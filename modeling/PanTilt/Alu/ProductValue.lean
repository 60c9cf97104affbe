import PanTilt.Alu.ProductOrder
import PanTilt.Alu.Value

/-!
The accuracy and the range of a product of two words, each normal or zero.

The exact product is the significand that the circuit takes, with a rest below one that it rounds
up. The answer is then good to one unit in the last place, except where the rounding runs over the
significand, where the exponent comes to 255 without an overflow, and where a zero meets a number
that is not small (`product_accurate_iff`).
-/

namespace PanTilt.Alu

open Lib.Precision

/-- An answer for the exact product `v`: a zero for zero, in the range of the numbers a clear answer
of the right sign within one unit in the last place, and above the range the infinity. -/
def ProductAccurate (v : ℚ) (A : Answer) : Prop :=
  (v = 0 → (fields A.result).IsZero) ∧
    (2 ^ (-126 : ℤ) ≤ |v| → |v| ≤ 2 ^ (128 : ℤ) - 2 ^ (104 : ℤ) → A.Clear ∧
      (fields A.result).expo ≠ 255 ∧ (fields A.result).sign = decide (v < 0) ∧
      |(fields A.result).value - v| < ulp 24 v) ∧
    (2 ^ (128 : ℤ) ≤ |v| → A.overflow = true ∧ fields A.result = ⟨decide (v < 0), 255, 0⟩)

/-- The same on what a circuit computes. -/
def Outcome.ProductAccurate (v : ℚ) (o : Outcome) : Prop :=
  (v = 0 → o.fields.IsZero) ∧
    (2 ^ (-126 : ℤ) ≤ |v| → |v| ≤ 2 ^ (128 : ℤ) - 2 ^ (104 : ℤ) → o.Clear ∧
      o.fields.expo ≠ 255 ∧ o.fields.sign = decide (v < 0) ∧ |o.fields.value - v| < ulp 24 v) ∧
    (2 ^ (128 : ℤ) ≤ |v| → o.overflow = true ∧ o.fields = ⟨decide (v < 0), 255, 0⟩)

/-- The exact product is not in the first power of two above the range, and not in the range just
below a power of two. -/
def ProductSafe (v : ℚ) : Prop :=
  ¬ (2 ^ (128 : ℤ) ≤ |v| ∧ |v| < 2 ^ (129 : ℤ)) ∧
    ¬ (2 ^ (-126 : ℤ) ≤ |v| ∧ |v| ≤ 2 ^ (128 : ℤ) - 2 ^ (104 : ℤ) ∧ (2 ^ 24 - 1) * ulp 24 v < |v|)

/-- Zero or normal. -/
def Fields.Ordinary (a : Fields) : Prop := a.IsZero ∨ a.Normal

/-! ### Two normal words -/

/-- **A product of significands** `Q` under the exponent `S`, up to a rest. -/
structure Multiplies (v : ℚ) (o : Outcome) (s : Bool) (S Q : ℕ) (θ : ℚ) : Prop
    extends Digits v s Q θ ((S : ℤ) - 277) where
  outcome : o =
    { sign := s
      expo := (S + 129) % 256
      frac := (Q + if θ = 0 then 0 else 1) % 2 ^ 23
      overflow := decide (383 ≤ S)
      underflow := decide (S < 127)
      exception := false }

/-- **What the circuit computes, beside the exact product.** -/
lemma exists_multiplies {a b : Fields} (ha : a.Normal) (hb : b.Normal) (hfa : a.frac < 2 ^ 23)
    (hfb : b.frac < 2 ^ 23) : ∃ Q θ, Multiplies (a.value * b.value) (productOutcome a b)
      (a.sign ^^ b.sign) (a.expo + b.expo + productTop a b) Q θ := by
  have h₁ := ha.pos
  have hproduct : product a b = (2 ^ 23 + a.frac) * (2 ^ 23 + b.frac) := by
    unfold product Fields.implied
    rw [if_neg (by omega)]
  have hlo : 2 ^ 23 * 2 ^ 23 ≤ product a b := by
    rw [hproduct]
    exact Nat.mul_le_mul (Nat.le_add_right _ _) (Nat.le_add_right _ _)
  have hhi : product a b < 2 ^ 24 * 2 ^ 24 := by
    rw [hproduct]
    exact Nat.mul_lt_mul'' (by omega) (by omega)
  obtain ⟨θ, hθ, hθ₀, hrest⟩ := exists_rest (K := ℚ) (product a b)
    (Nat.two_pow_pos (23 + productTop a b))
  refine ⟨product a b / 2 ^ (23 + productTop a b), θ, ⟨?_, ?_, hθ, ?_⟩, ?_⟩
  · unfold productTop
    split
    · omega
    · omega
  · unfold productTop
    split
    · omega
    · omega
  · have hpow : ((2 ^ (23 + productTop a b) : ℕ) : ℚ) = 2 ^ ((23 + productTop a b : ℕ) : ℤ) := by
      rw [Nat.cast_pow, Nat.cast_ofNat, zpow_natCast]
    have hne : (2 : ℚ) ^ ((23 + productTop a b : ℕ) : ℤ) ≠ 0 := (zpow_pos two_pos _).ne'
    rw [hpow, div_eq_iff hne] at hrest
    have hcast : (product a b : ℚ) = (2 ^ 23 + a.frac : ℕ) * (2 ^ 23 + b.frac : ℕ) := by
      rw [hproduct, Nat.cast_mul]
    rw [value_of_pos h₁, value_of_pos hb.pos, sgn_xor, mul_mul_mul_comm,
      mul_mul_mul_comm (_ : ℚ) _ _ ((2 : ℚ) ^ _), ← hcast, hrest, mul_assoc (_ + θ),
      ← zpow_add₀ two_ne_zero, ← zpow_add₀ two_ne_zero]
    congr 3
    push_cast
    ring
  · unfold productOutcome roundedUp
    rw [ha.exceptional hb]
    simp only [hθ₀]

section Normal

variable {v θ : ℚ} {o : Outcome} {s : Bool} {S Q : ℕ}

lemma Multiplies.runs_iff (h : Multiplies v o s S Q θ) :
    (2 ^ 24 - 1) * ulp 24 v < |v| ↔ Q = 2 ^ 24 - 1 ∧ θ ≠ 0 := by
  obtain ⟨hθ, hθ'⟩ := h.rest
  have hlt := h.lt
  rw [h.ulp_eq, h.abs_eq, mul_lt_mul_iff_of_pos_right (zpow_pos two_pos _)]
  constructor
  · intro hgt
    have hQ : ((2 ^ 24 - 2 : ℕ) : ℚ) < Q := by push_cast; linarith
    have hQ' : Q = 2 ^ 24 - 1 := by
      have := Nat.cast_lt.mp hQ
      omega
    refine ⟨hQ', ?_⟩
    rintro rfl
    rw [hQ'] at hgt
    push_cast at hgt
    linarith
  · rintro ⟨rfl, hne⟩
    have hpos : 0 < θ := lt_of_le_of_ne hθ hne.symm
    push_cast
    linarith

lemma Multiplies.range (h : Multiplies v o s S Q θ) :
    (2 ^ (-126 : ℤ) ≤ |v| ↔ 128 ≤ S) ∧ (2 ^ (128 : ℤ) ≤ |v| ↔ 382 ≤ S) ∧
      (|v| < 2 ^ (129 : ℤ) ↔ S < 383) ∧
      (|v| ≤ 2 ^ (128 : ℤ) - 2 ^ (104 : ℤ) ↔ S ≤ 381 ∧ ¬ (S = 381 ∧ Q = 2 ^ 24 - 1 ∧ θ ≠ 0)) := by
  have hlog := h.log_eq
  have hne := h.ne_zero
  refine ⟨?_, ?_, ?_, ?_⟩
  · rw [two_zpow_le_iff hne, hlog]
    omega
  · rw [two_zpow_le_iff hne, hlog]
    omega
  · rw [lt_two_zpow_iff hne, hlog]
    omega
  · have htop : (2 : ℚ) ^ (128 : ℤ) - 2 ^ (104 : ℤ) = (2 ^ 24 - 1) * 2 ^ (104 : ℤ) := by
      rw [sub_one_mul, two_zpow_128]
    rcases Nat.lt_trichotomy S 381 with hS | hS | hS
    · have hlt : |v| < 2 ^ (127 : ℤ) := (lt_two_zpow_iff hne).mpr (by omega)
      have hunit : (0 : ℚ) < 2 ^ (104 : ℤ) := zpow_pos two_pos _
      have hle : (2 : ℚ) ^ (127 : ℤ) ≤ (2 ^ 24 - 1) * 2 ^ (104 : ℤ) := by
        rw [two_zpow_127]
        exact mul_le_mul_of_nonneg_right (by norm_num) hunit.le
      rw [htop]
      exact iff_of_true (hlt.le.trans hle) ⟨by omega, by omega⟩
    · have hruns := not_congr h.runs_iff
      rw [h.ulp_eq, hS, not_lt] at hruns
      rw [htop]
      refine Iff.trans hruns ?_
      simp [hS]
    · have hge : 2 ^ (128 : ℤ) ≤ |v| := (two_zpow_le_iff hne).mpr (by omega)
      have hunit : (0 : ℚ) < 2 ^ (104 : ℤ) := zpow_pos two_pos _
      refine iff_of_false (fun hle => by linarith) (by omega)

lemma Multiplies.safe_iff (h : Multiplies v o s S Q θ) : ProductSafe v ↔
    S ≠ 382 ∧ ¬ (128 ≤ S ∧ S ≤ 380 ∧ Q = 2 ^ 24 - 1 ∧ θ ≠ 0) := by
  obtain ⟨h126, h128, h129, htop⟩ := h.range
  unfold ProductSafe
  rw [h126, h128, h129, htop, h.runs_iff]
  by_cases hr : Q = 2 ^ 24 - 1 ∧ θ ≠ 0
  · simp only [hr, ne_eq, not_false_eq_true, and_true]
    omega
  · simp only [hr, and_false, not_false_eq_true, and_true]
    omega

lemma Multiplies.fields_eq (h : Multiplies v o s S Q θ) (hlo : 128 ≤ S) (hhi : S ≤ 381) :
    o.Clear ∧ o.fields = ⟨s, S - 127, (Q + if θ = 0 then 0 else 1) % 2 ^ 23⟩ := by
  have hclear : o.Clear := by
    rw [h.outcome]
    exact ⟨decide_eq_false (by omega), decide_eq_false (by omega), rfl⟩
  refine ⟨hclear, ?_⟩
  rw [hclear.fields_eq, h.outcome]
  simp only [Fields.mk.injEq, true_and, and_true]
  omega

/-- **A product is within one unit** exactly if the rounding does not run over the significand. -/
lemma Multiplies.close_iff (h : Multiplies v o s S Q θ) (hlo : 128 ≤ S) (hhi : S ≤ 381) :
    |o.fields.value - v| < ulp 24 v ↔ ¬ (Q = 2 ^ 24 - 1 ∧ θ ≠ 0) := by
  obtain ⟨hθ, hθ'⟩ := h.rest
  have hge := h.ge
  have hlt := h.lt
  have hunit : (0 : ℚ) < 2 ^ ((S : ℤ) - 277) := zpow_pos two_pos _
  have hexpo : ((S - 127 : ℕ) : ℤ) - 150 = (S : ℤ) - 277 := by omega
  have herror : |o.fields.value - v| < ulp 24 v ↔
      |((2 ^ 23 + (Q + if θ = 0 then 0 else 1) % 2 ^ 23 : ℕ) : ℚ) - (Q + θ)| < 1 := by
    have hpos : 1 ≤ o.fields.expo := by
      rw [(h.fields_eq hlo hhi).2]
      simp only
      omega
    rw [value_of_pos hpos, h.ulp_eq, h.value, (h.fields_eq hlo hhi).2]
    simp only
    rw [hexpo, ← mul_sub, abs_sgn_mul, ← sub_mul, abs_mul, abs_of_pos hunit]
    exact mul_lt_iff_lt_one_left hunit
  rw [herror]
  by_cases h0 : θ = 0
  · have hQ : 2 ^ 23 + (Q + 0) % 2 ^ 23 = Q := by omega
    rw [if_pos h0, hQ, h0, add_zero, sub_self, abs_zero]
    exact iff_of_true one_pos (fun e => e.2 rfl)
  · have hpos : 0 < θ := lt_of_le_of_ne hθ (Ne.symm h0)
    rw [if_neg h0]
    by_cases hQ : Q = 2 ^ 24 - 1
    · -- the significand wraps to a power of two
      refine iff_of_false ?_ (fun e => e ⟨hQ, h0⟩)
      rw [hQ, abs_lt]
      rintro ⟨hl, -⟩
      norm_num at hl
      linarith
    · have hQ' : 2 ^ 23 + (Q + 1) % 2 ^ 23 = Q + 1 := by omega
      refine iff_of_true ?_ (fun e => hQ e.1)
      rw [hQ', Nat.cast_add, Nat.cast_one, add_sub_add_left_eq_sub, abs_lt]
      exact ⟨by linarith, by linarith⟩

theorem Multiplies.accurate_iff (h : Multiplies v o s S Q θ) :
    o.ProductAccurate v ↔ ProductSafe v := by
  obtain ⟨h126, h128, -, htop⟩ := h.range
  have hzero : v = 0 → o.fields.IsZero := fun h0 => absurd h0 h.ne_zero
  unfold Outcome.ProductAccurate
  rw [h.safe_iff, h126, h128, htop, h.sign]
  rcases (show S < 128 ∨ 128 ≤ S ∧ S ≤ 381 ∨ S = 382 ∨ 383 ≤ S by omega) with
    hS | ⟨hlo, hhi⟩ | hS | hS
  · exact iff_of_true ⟨hzero, by omega, by omega⟩ ⟨by omega, by omega⟩
  · obtain ⟨hclear, hfields⟩ := h.fields_eq hlo hhi
    have hclose := h.close_iff hlo hhi
    have hexpo : o.fields.expo ≠ 255 := by
      rw [hfields]
      simp only
      omega
    have hsign : o.fields.sign = s := by rw [hfields]
    constructor
    · intro e
      refine ⟨by omega, fun hr => ?_⟩
      exact hclose.mp (e.2.1 hlo ⟨hhi, by omega⟩).2.2.2 hr.2.2
    · intro e
      refine ⟨hzero, fun _ hr => ⟨hclear, hexpo, hsign, hclose.mpr (fun hr' => ?_)⟩, by omega⟩
      have htop : S = 381 := by
        by_contra hne
        exact e.2 ⟨hlo, by omega, hr'⟩
      exact hr.2 ⟨htop, hr'⟩
  · -- the exponent is 255, and no overflow is raised
    refine iff_of_false (fun e => ?_) (by omega)
    have hover := (e.2.2 (by omega)).1
    rw [h.outcome] at hover
    exact absurd hover (by simp [hS])
  · refine iff_of_true ⟨hzero, by omega, fun _ => ?_⟩ ⟨by omega, by omega⟩
    have hover : decide (383 ≤ S) = true := decide_eq_true hS
    rw [h.outcome]
    unfold Outcome.fields
    simp only [hover, if_true]
    exact ⟨trivial, trivial⟩

end Normal

/-! ### A zero -/

lemma Fields.Normal.lt_two_iff {a : Fields} (h : a.Normal) (hf : a.frac < 2 ^ 23) :
    |a.value| < 2 ↔ a.expo ≤ 127 := by
  have hlt := lt_two_zpow_iff (h.digits hf).ne_zero (k := 1)
  rw [zpow_one, (h.digits hf).log_eq] at hlt
  rw [hlt]
  omega

lemma Fields.Normal.le_one_iff {a : Fields} (h : a.Normal) (hf : a.frac < 2 ^ 23) :
    |a.value| ≤ 1 ↔ a.expo < 127 ∨ a.expo = 127 ∧ a.frac = 0 := by
  have hlt := lt_two_zpow_iff (h.digits hf).ne_zero (k := 0)
  rw [zpow_zero, (h.digits hf).log_eq] at hlt
  by_cases he : a.expo = 127
  · have habs : |a.value| = 1 + a.frac / 2 ^ 23 := by
      rw [value_of_pos h.pos, he, abs_sgn_mul, abs_of_nonneg]
      · norm_num
        ring
      · exact mul_nonneg (Nat.cast_nonneg _) (zpow_pos two_pos _).le
    have hfrac : (a.frac : ℚ) / 2 ^ 23 ≤ 0 ↔ a.frac = 0 := by
      rw [div_le_iff₀ (by norm_num), zero_mul, Nat.cast_nonpos]
    rw [habs, add_le_iff_nonpos_right, hfrac]
    omega
  · rw [le_iff_lt_or_eq, hlt]
    have hne : |a.value| ≠ 1 := by
      intro h1
      have hlog := (h.digits hf).log_eq
      rw [h1, Int.log_one_right] at hlog
      omega
    rw [or_iff_left hne]
    omega

/-- **Zero times a word** keeps the exponent of the word. -/
lemma zero_mul_isZero {a b : Fields} (ha : a.IsZero) (hb : b.expo ≤ 254) :
    (productOutcome a b).fields.IsZero ↔ b.expo ≤ 127 := by
  have hproduct : product a b = 0 := by
    unfold product Fields.implied
    rw [if_pos ha.1, ha.2, Nat.zero_mul]
  have htop : productTop a b = 0 := by
    unfold productTop
    rw [hproduct]
    rfl
  have hexc : exceptional a b = false := by
    unfold exceptional
    rw [ha.1, Bool.or_eq_false_iff, beq_eq_false_iff_ne, beq_eq_false_iff_ne]
    omega
  rw [product_fields (by rw [ha.1, htop]; omega), hproduct, htop, hexc, ha.1]
  unfold Fields.IsZero roundedUp
  split
  · exact iff_of_true ⟨rfl, rfl⟩ (by omega)
  · simp
    omega

lemma mul_zero_isZero {a b : Fields} (ha : a.Normal) (hf : a.frac < 2 ^ 23) (hb : b.IsZero) :
    (productOutcome a b).fields.IsZero ↔ a.expo < 127 ∨ a.expo = 127 ∧ a.frac = 0 := by
  have hpos := ha.pos
  have hle := ha.le
  have hproduct : product a b = (2 ^ 23 + a.frac) * 2 ^ 23 := by
    unfold product Fields.implied
    rw [if_neg (by omega), hb.2, Nat.add_zero]
  have htop : productTop a b = 0 := by
    unfold productTop
    rw [hproduct, if_neg (by omega)]
  have hexc : exceptional a b = false := by
    unfold exceptional
    rw [hb.1, Bool.or_eq_false_iff, beq_eq_false_iff_ne, beq_eq_false_iff_ne]
    omega
  rw [product_fields (by rw [hb.1, htop]; omega), hproduct, htop, hexc, hb.1]
  unfold Fields.IsZero roundedUp
  split
  · exact iff_of_true ⟨rfl, rfl⟩ (by omega)
  · simp
    omega

/-! ### The unit -/

/-- The product of a zero with a number that is not too large, or a safe one. -/
def ProductTaken (a b : Fields) : Prop :=
  a.value = 0 ∧ |b.value| < 2 ∨ b.value = 0 ∧ |a.value| ≤ 1 ∨
    a.value * b.value ≠ 0 ∧ ProductSafe (a.value * b.value)

lemma Outcome.productAccurate_zero (o : Outcome) : o.ProductAccurate 0 ↔ o.fields.IsZero := by
  constructor
  · intro h
    exact h.1 rfl
  · intro h
    refine ⟨fun _ => h, fun hle => ?_, fun hle => ?_⟩
    · exact absurd hle (by rw [abs_zero]; exact not_le.mpr (zpow_pos two_pos _))
    · exact absurd hle (by rw [abs_zero]; exact not_le.mpr (zpow_pos two_pos _))

/-- **When a product is accurate.** -/
theorem product_accurate_iff (x : Bool) {n1 n2 : BitVec 32} (h1 : (fields n1).Ordinary)
    (h2 : (fields n2).Ordinary) :
    ProductAccurate ((fields n1).value * (fields n2).value) (main x n1 n2 2) ↔
      ProductTaken (fields n1) (fields n2) := by
  have hmain : mainOutcome x 2 (fields n1) (fields n2) =
      productOutcome (fields n1) (fields n2) := rfl
  have hf1 := frac_lt n1
  have hf2 := frac_lt n2
  obtain ⟨hover, -, -⟩ := flags_main x n1 n2 2
  unfold ProductAccurate ProductTaken
  rw [clear_main, fields_main, hover, hmain]
  change (productOutcome (fields n1) (fields n2)).ProductAccurate _ ↔ _
  rcases h1 with h1 | h1
  · rw [h1.value_eq, zero_mul, Outcome.productAccurate_zero]
    rcases h2 with h2 | h2
    · rw [h2.value_eq, zero_mul_isZero h1 (by rw [h2.1]; omega), h2.1]
      simp
    · rw [zero_mul_isZero h1 h2.le, h2.lt_two_iff hf2]
      simp [(h2.digits hf2).ne_zero]
  · rcases h2 with h2 | h2
    · rw [h2.value_eq, mul_zero, Outcome.productAccurate_zero, mul_zero_isZero h1 hf1 h2,
        h1.le_one_iff hf1]
      simp [(h1.digits hf1).ne_zero]
    · obtain ⟨Q, θ, h⟩ := exists_multiplies h1 h2 hf1 hf2
      rw [h.accurate_iff]
      simp [(h1.digits hf1).ne_zero, (h2.digits hf2).ne_zero]

theorem three_halves_times_two_accurate :
    ProductAccurate ((fields 0x3FC00000).value * (fields 0x40000000).value)
      (main false 0x3FC00000 0x40000000 2) := by
  have hv : (fields 0x3FC00000).value * (fields 0x40000000).value = 3 := by decide +kernel
  have hulp : ulp 24 (3 : ℚ) = 2 ^ (-22 : ℤ) := by decide +kernel
  refine (product_accurate_iff false (.inr ⟨by decide, by decide⟩)
    (.inr ⟨by decide, by decide⟩)).mpr (.inr (.inr ?_))
  rw [hv]
  refine ⟨by norm_num, ?_, ?_⟩
  · rintro ⟨hle, -⟩
    exact absurd hle (by norm_num)
  · rintro ⟨-, -, hgt⟩
    rw [hulp] at hgt
    exact absurd hgt (by norm_num)

/-- Zero times two is not zero. -/
theorem zero_times_two :
    (fields 0x00000000).Ordinary ∧ (fields 0x40000000).Ordinary ∧
      ¬ ProductAccurate ((fields 0x00000000).value * (fields 0x40000000).value)
        (main false 0x00000000 0x40000000 2) := by
  refine ⟨.inl ⟨by decide, by decide⟩, .inr ⟨by decide, by decide⟩, fun h => ?_⟩
  have hzero := h.1 (by decide +kernel)
  have hword : (main false 0x00000000 0x40000000 2).result = 0x00800000 := by decide +kernel
  rw [hword] at hzero
  exact absurd hzero.1 (by decide)

end PanTilt.Alu
