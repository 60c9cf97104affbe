import PanTilt.Alu.Exception
import PanTilt.Alu.Value

/-!
The accuracy of a sum or a difference of two normal words.

Aligned to the larger exponent the exact sum is what the circuit computes, up to a rest below one
that the alignment drops. The answer is then good to two units of the larger operand, except where
the difference cancels, where it falls to the default of the normalisation, and where the largest
exponent is taken for an overflow (`sum_accurate_iff`).
-/

namespace PanTilt.Alu

open Lib.Precision

/-- The exact sum, or with `sub` the exact difference. -/
def exactSum (sub : Bool) (a b : Fields) : ℚ := a.value + if sub then -b.value else b.value

/-- An answer for the exact sum `v` of two words with the larger exponent `e`: a zero for zero, and
in the range of the numbers a clear answer within two units of the larger operand. -/
def SumAccurate (v : ℚ) (e : ℕ) (A : Answer) : Prop :=
  (v = 0 → (fields A.result).IsZero) ∧
    (2 ^ (-126 : ℤ) ≤ |v| → |v| ≤ 2 ^ (127 : ℤ) → A.Clear ∧ (fields A.result).expo ≠ 255 ∧
      |(fields A.result).value - v| < 2 ^ ((e : ℤ) - 149))

/-- The exact sum is not zero, not one of those that fall to the default of the normalisation, and
with the largest exponent not just below the power of two that is taken for an overflow. -/
def SumSafe (v : ℚ) (e : ℕ) : Prop :=
  v ≠ 0 ∧
    ¬ (15 * 2 ^ ((e : ℤ) - 150) < |v| ∧ |v| ≤ 31 * 2 ^ ((e : ℤ) - 150) ∧ 2 ^ (-126 : ℤ) ≤ |v|) ∧
    ¬ (e = 254 ∧ 2 ^ (127 : ℤ) - 2 ^ (104 : ℤ) < |v| ∧ |v| ≤ 2 ^ (127 : ℤ))

/-- The same on what a circuit computes. -/
def Outcome.SumAccurate (v : ℚ) (e : ℕ) (o : Outcome) : Prop :=
  (v = 0 → o.fields.IsZero) ∧
    (2 ^ (-126 : ℤ) ≤ |v| → |v| ≤ 2 ^ (127 : ℤ) → o.Clear ∧ o.fields.expo ≠ 255 ∧
      |o.fields.value - v| < 2 ^ ((e : ℤ) - 149))

/-! ### The exact sum, aligned -/

/-- A word beside one with the exponent `other`, on the larger exponent: the significand `m`, and a
rest that is not there in the larger word. -/
structure Aligned (a : Fields) (other m : ℕ) (ρ : ℚ) : Prop where
  lt : m < 2 ^ 24
  ge_of_le : other ≤ a.expo → 2 ^ 23 ≤ m
  lt_of_lt : a.expo < other → m < 2 ^ 23
  rest : 0 ≤ ρ ∧ ρ < 1
  exact : other ≤ a.expo → ρ = 0
  pos : (0 : ℚ) < m + ρ
  value : a.value = sgn a.sign * ((m + ρ) * 2 ^ (((max a.expo other : ℕ) : ℤ) - 150))

lemma exists_aligned_fst {a b : Fields} (ha : a.Normal) (hf : a.frac < 2 ^ 23) :
    ∃ α, Aligned a b.expo (alignedFst a b) α := by
  have hpos := ha.pos
  have himplied : a.implied = 2 ^ 23 := if_neg (by omega)
  unfold alignedFst
  rw [himplied]
  by_cases h : b.expo ≤ a.expo
  · rw [if_pos h]
    refine ⟨0, by omega, fun _ => by omega, fun h' => absurd h' (Nat.not_lt.2 h), ⟨le_rfl, one_pos⟩,
      fun _ => rfl, ?_, ?_⟩
    · rw [add_zero]
      exact Nat.cast_pos.mpr (by omega)
    · rw [value_of_pos hpos, Nat.max_eq_left h, add_zero]
  · obtain ⟨α, hα, -, hrest⟩ := exists_rest (K := ℚ) (2 ^ 23 + a.frac)
      (Nat.two_pow_pos (b.expo - a.expo))
    have hdouble : 2 ^ 1 ≤ 2 ^ (b.expo - a.expo) := Nat.pow_le_pow_right Nat.two_pos (by omega)
    have hlt : (2 ^ 23 + a.frac) / 2 ^ (b.expo - a.expo) < 2 ^ 23 := by
      rw [Nat.div_lt_iff_lt_mul (Nat.two_pow_pos _)]
      omega
    have hpow : ((2 ^ (b.expo - a.expo) : ℕ) : ℚ) = 2 ^ ((b.expo : ℤ) - a.expo) := by
      rw [Nat.cast_pow, Nat.cast_ofNat, ← zpow_natCast, Nat.cast_sub (by omega)]
    have hunit : (0 : ℚ) < 2 ^ ((b.expo : ℤ) - a.expo) := zpow_pos two_pos _
    rw [if_neg h]
    refine ⟨α, by omega, fun h' => absurd h' h, fun _ => hlt, hα, fun h' => absurd h' h, ?_, ?_⟩
    · rw [← hrest, hpow]
      exact div_pos (Nat.cast_pos.mpr (by omega)) hunit
    · rw [hpow, div_eq_iff hunit.ne'] at hrest
      rw [value_of_pos hpos, Nat.max_eq_right (by omega), hrest, mul_assoc (_ + α),
        ← zpow_add₀ two_ne_zero, sub_add_sub_cancel]

lemma exists_aligned_snd {a b : Fields} (ha : a.Normal) (hb : b.Normal) (hf : b.frac < 2 ^ 23) :
    ∃ β, Aligned b a.expo (alignedSnd a b) β := by
  have h₁ := ha.pos
  have h₂ := hb.pos
  rw [← (aligned_swap (show a.expo = 0 ↔ b.expo = 0 by omega)).1]
  exact exists_aligned_fst hb hf

lemma exactSum_eq (sub : Bool) {a b : Fields} {A B U : ℚ} (ha : a.value = sgn a.sign * (A * U))
    (hb : b.value = sgn b.sign * (B * U)) :
    exactSum sub a b = sgn a.sign * ((A + sgn (sub ^^ a.sign ^^ b.sign) * B) * U) := by
  unfold exactSum
  rw [ha, hb]
  cases sub <;> cases a.sign <;> cases b.sign <;> simp [sgn] <;> ring

/-- **A difference of significands** `r`, up to a rest that makes it too large. -/
structure Subtracts (v : ℚ) (e : ℕ) (o : Outcome) (s : Bool) (r : ℕ) (δ : ℚ) : Prop where
  lt : r < 2 ^ 24
  rest : 0 ≤ δ ∧ δ < 1
  zero : r = 0 → δ = 0
  outcome : o = normalised s e r false
  value : v = sgn s * ((r - δ) * 2 ^ ((e : ℤ) - 150))

/-- **A sum of significands** `t`, up to a rest that makes it too small. -/
structure Adds (v : ℚ) (e : ℕ) (o : Outcome) (s : Bool) (t : ℕ) (δ : ℚ) : Prop where
  ge : 2 ^ 23 ≤ t
  lt : t < 2 ^ 25 - 1
  rest : 0 ≤ δ ∧ δ < 1
  gt : (2 : ℚ) ^ 23 < t + δ
  outcome : o = if t < 2 ^ 24 then normalised s e t false else carried s e t false
  value : v = sgn s * ((t + δ) * 2 ^ ((e : ℤ) - 150))

section Aligned

variable {sub : Bool} {a b : Fields} {A B : ℕ} {α β : ℚ} (hA : Aligned a b.expo A α)
  (hB : Aligned b a.expo B β)

include hA hB

lemma exactSum_aligned : exactSum sub a b = sgn a.sign *
    ((A + α + sgn (sub ^^ a.sign ^^ b.sign) * (B + β)) *
      2 ^ (((max a.expo b.expo : ℕ) : ℤ) - 150)) := by
  have hvb := hB.value
  rw [max_comm b.expo a.expo] at hvb
  exact exactSum_eq sub hA.value hvb

/-- **The sum of the significands**: the larger word is exact, and the smaller one is not zero. -/
lemma adds_aligned {o : Outcome} (hop : (sub ^^ a.sign ^^ b.sign) = false)
    (ho : o = if A + B < 2 ^ 24 then normalised a.sign (max a.expo b.expo) (A + B) false
      else carried a.sign (max a.expo b.expo) (A + B) false) :
    Adds (exactSum sub a b) (max a.expo b.expo) o a.sign (A + B) (α + β) := by
  have hv := @exactSum_aligned sub a b A B α β hA hB
  rw [hop] at hv
  have hvalue : exactSum sub a b = sgn a.sign *
      (((A + B : ℕ) + (α + β)) * 2 ^ (((max a.expo b.expo : ℕ) : ℤ) - 150)) := by
    rw [hv]
    simp only [sgn, Bool.false_eq_true, if_false]
    push_cast
    ring
  have h₁ := hA.lt
  have h₂ := hB.lt
  rcases le_total b.expo a.expo with h | h
  · have hge := hA.ge_of_le h
    have hle : ((2 ^ 23 : ℕ) : ℚ) ≤ A := Nat.cast_le.mpr hge
    push_cast at hle
    have hrest : 0 ≤ α + β ∧ α + β < 1 := by
      rw [hA.exact h, zero_add]
      exact hB.rest
    refine ⟨by omega, by omega, hrest, ?_, ho, hvalue⟩
    push_cast
    linarith [hA.rest.1, hB.pos]
  · have hge := hB.ge_of_le h
    have hle : ((2 ^ 23 : ℕ) : ℚ) ≤ B := Nat.cast_le.mpr hge
    push_cast at hle
    have hrest : 0 ≤ α + β ∧ α + β < 1 := by
      rw [hB.exact h, add_zero]
      exact hA.rest
    refine ⟨by omega, by omega, hrest, ?_, ho, hvalue⟩
    push_cast
    linarith [hB.rest.1, hA.pos]

/-- **The difference of the significands**: the smaller word is subtracted, with its rest. -/
lemma subtracts_aligned {o : Outcome} (hop : (sub ^^ a.sign ^^ b.sign) = true)
    (ho : o = if B ≤ A then normalised a.sign (max a.expo b.expo) (A - B) false
      else normalised (!a.sign) (max a.expo b.expo) (B - A) false) :
    ∃ s r δ, Subtracts (exactSum sub a b) (max a.expo b.expo) o s r δ := by
  have hv := @exactSum_aligned sub a b A B α β hA hB
  have h₁ := hA.lt
  have h₂ := hB.lt
  rw [hop] at hv
  by_cases hle : B ≤ A
  · have hexpo : b.expo ≤ a.expo := by
      by_contra h
      have hsmall := hA.lt_of_lt (by omega)
      have hlarge := hB.ge_of_le (by omega)
      omega
    refine ⟨a.sign, A - B, β, by omega, hB.rest, fun h0 => hB.exact ?_, ?_, ?_⟩
    · by_contra h
      have hsmall := hB.lt_of_lt (by omega)
      have hlarge := hA.ge_of_le hexpo
      omega
    · rw [ho, if_pos hle]
    · rw [hv, hA.exact hexpo, Nat.cast_sub hle]
      simp only [sgn, if_true]
      ring
  · have hexpo : a.expo ≤ b.expo := by
      by_contra h
      have hsmall := hB.lt_of_lt (by omega)
      have hlarge := hA.ge_of_le (by omega)
      omega
    refine ⟨!a.sign, B - A, α, by omega, hA.rest, by omega, ?_, ?_⟩
    · rw [ho, if_neg hle]
    · rw [hv, hB.exact hexpo, Nat.cast_sub (by omega), sgn_not]
      simp only [sgn, if_true]
      ring

end Aligned

/-- **What the circuit computes, beside the exact sum.** -/
lemma sum_cases (sub : Bool) {a b : Fields} (ha : a.Normal) (hb : b.Normal) (hfa : a.frac < 2 ^ 23)
    (hfb : b.frac < 2 ^ 23) :
    (∃ s r δ, Subtracts (exactSum sub a b) (max a.expo b.expo) (sumOutcome sub a b) s r δ) ∨
      ∃ s t δ, Adds (exactSum sub a b) (max a.expo b.expo) (sumOutcome sub a b) s t δ := by
  obtain ⟨α, hA⟩ := exists_aligned_fst (b := b) ha hfa
  obtain ⟨β, hB⟩ := exists_aligned_snd ha hb hfb
  rw [sumOutcome_eq (ha.exceptional hb)]
  unfold alignedSum
  rcases hop : sub ^^ a.sign ^^ b.sign with _ | _
  · exact .inr ⟨_, _, _, adds_aligned hA hB hop (by rw [if_neg Bool.false_ne_true])⟩
  · exact .inl (subtracts_aligned hA hB hop (by rw [if_pos rfl]))

lemma close_iff (s : Bool) (e : ℕ) (m y : ℚ) :
    |sgn s * (m * 2 ^ ((e : ℤ) - 150)) - sgn s * (y * 2 ^ ((e : ℤ) - 150))| < 2 ^ ((e : ℤ) - 149) ↔
      |m - y| < 2 := by
  have hunit : (0 : ℚ) < 2 ^ ((e : ℤ) - 150) := zpow_pos two_pos _
  rw [← mul_sub, abs_sgn_mul, ← sub_mul, abs_mul, abs_of_pos hunit,
    show (e : ℤ) - 149 = 1 + (e - 150) by ring, zpow_add₀ two_ne_zero, zpow_one,
    mul_lt_mul_iff_of_pos_right hunit]

/-! ### A difference -/

section Difference

variable {v δ : ℚ} {e r : ℕ} {o : Outcome} {s : Bool}

lemma Subtracts.abs_eq (h : Subtracts v e o s r δ) : |v| = (r - δ) * 2 ^ ((e : ℤ) - 150) := by
  have hle : δ ≤ r := by
    rcases Nat.eq_zero_or_pos r with h0 | hpos
    · rw [h0, h.zero h0, Nat.cast_zero]
    · have hone : (1 : ℚ) ≤ r := by exact_mod_cast hpos
      linarith [h.rest.2]
  rw [h.value, abs_sgn_mul, abs_of_nonneg]
  exact mul_nonneg (sub_nonneg.mpr hle) (zpow_pos two_pos _).le

lemma Subtracts.eq_zero_iff (h : Subtracts v e o s r δ) : v = 0 ↔ r = 0 := by
  have hunit : (2 : ℚ) ^ ((e : ℤ) - 150) ≠ 0 := (zpow_pos two_pos _).ne'
  rw [h.value, mul_eq_zero, or_iff_right (sgn_ne_zero s), mul_eq_zero, or_iff_left hunit,
    sub_eq_zero]
  constructor
  · intro hr
    have hlt : (r : ℚ) < 1 := hr ▸ h.rest.2
    exact Nat.lt_one_iff.mp (by exact_mod_cast hlt)
  · intro h0
    rw [h0, h.zero h0, Nat.cast_zero]

lemma Subtracts.safe_iff (h : Subtracts v e o s r δ) : SumSafe v e ↔
    r ≠ 0 ∧ ¬ (16 ≤ r ∧ r < 32 ∧ 2 ^ (-126 : ℤ) ≤ |v|) ∧ ¬ (e = 254 ∧ r = 2 ^ 23) := by
  have hunit : (0 : ℚ) < 2 ^ ((e : ℤ) - 150) := zpow_pos two_pos _
  have hlow : 15 * 2 ^ ((e : ℤ) - 150) < |v| ↔ 16 ≤ r := by
    rw [h.abs_eq, mul_lt_mul_iff_of_pos_right hunit]
    exact lt_sub_rest_iff (k := 15) h.rest
  have hhigh : |v| ≤ 31 * 2 ^ ((e : ℤ) - 150) ↔ r < 32 := by
    rw [h.abs_eq, mul_le_mul_iff_of_pos_right hunit, Nat.lt_succ_iff]
    exact sub_rest_le_iff (k := 31) h.rest
  have htop : e = 254 →
      (2 ^ (127 : ℤ) - 2 ^ (104 : ℤ) < |v| ∧ |v| ≤ 2 ^ (127 : ℤ) ↔ r = 2 ^ 23) := by
    intro he
    have hu : (2 : ℚ) ^ ((e : ℤ) - 150) = 2 ^ (104 : ℤ) := by rw [he]; rfl
    have hgt : (2 : ℚ) ^ 23 - 1 < r - δ ↔ 2 ^ 23 - 1 < r := by
      rw [← lt_sub_rest_iff h.rest]
      norm_num
    have hle : (r : ℚ) - δ ≤ 2 ^ 23 ↔ r ≤ 2 ^ 23 := by
      rw [← sub_rest_le_iff h.rest]
      norm_num
    rw [hu] at hunit
    rw [h.abs_eq, hu, two_zpow_127, ← sub_one_mul, mul_lt_mul_iff_of_pos_right hunit,
      mul_le_mul_iff_of_pos_right hunit, hgt, hle]
    omega
  unfold SumSafe
  rw [hlow, hhigh, Ne, h.eq_zero_iff]
  by_cases he : e = 254
  · rw [htop he]
  · simp [he]

lemma Subtracts.normShift_lt (h : Subtracts v e o s r δ) (hd : ¬ Defaulted r)
    (hv : 2 ^ (-126 : ℤ) ≤ |v|) : normShift r < e := by
  by_contra hle
  obtain ⟨hmul, hlt⟩ := mul_two_pow_normShift hd h.lt
  have hr : (r : ℚ) * 2 ^ (normShift r : ℤ) < 2 ^ (24 : ℤ) := by
    have hcast : ((r * 2 ^ normShift r : ℕ) : ℚ) < (2 ^ 24 : ℕ) := Nat.cast_lt.mpr (by omega)
    push_cast at hcast
    exact_mod_cast hcast
  have hunit : (2 : ℚ) ^ ((e : ℤ) - 150) ≤ 2 ^ ((normShift r : ℤ) + -150) :=
    zpow_le_zpow_right₀ one_le_two (by omega)
  have hnonneg : (0 : ℚ) ≤ r := Nat.cast_nonneg r
  have habs : |v| < 2 ^ (-126 : ℤ) := by
    calc |v| ≤ r * 2 ^ ((e : ℤ) - 150) := by
          rw [h.abs_eq]
          exact mul_le_mul_of_nonneg_right (by linarith [h.rest.1]) (zpow_pos two_pos _).le
      _ ≤ r * 2 ^ ((normShift r : ℤ) + -150) := mul_le_mul_of_nonneg_left hunit hnonneg
      _ = r * 2 ^ (normShift r : ℤ) * 2 ^ (-150 : ℤ) := by rw [zpow_add₀ two_ne_zero, mul_assoc]
      _ < 2 ^ (24 : ℤ) * 2 ^ (-150 : ℤ) := mul_lt_mul_of_pos_right hr (zpow_pos two_pos _)
      _ = 2 ^ (-126 : ℤ) := by rw [← zpow_add₀ two_ne_zero]; rfl
  exact absurd hv (not_le.mpr habs)

/-- **A safe difference is exact but for its rest.** -/
lemma Subtracts.accurate (h : Subtracts v e o s r δ) (he : 1 ≤ e) (he' : e ≤ 254)
    (hd : ¬ Defaulted r) (hover : ¬ (e = 254 ∧ 2 ^ 23 ≤ r)) : o.SumAccurate v e := by
  obtain ⟨hmul, -⟩ := mul_two_pow_normShift hd h.lt
  refine ⟨fun h0 => absurd (.inl (h.eq_zero_iff.mp h0)) hd, fun hlow _ => ?_⟩
  have hshift := h.normShift_lt hd hlow
  have hno : ¬ (e = 254 ∧ normShift r = 0) := by
    rintro ⟨h254, h0⟩
    have hle := @le_normShift_of_lt r hd 23
    omega
  have hclear : o.Clear := by
    rw [h.outcome]
    refine ⟨?_, decide_eq_false (by omega), rfl⟩
    show (e == 254 && normShift r == 0) = false
    rwa [Bool.and_eq_false_iff, beq_eq_false_iff_ne, beq_eq_false_iff_ne, ← not_and_or]
  have hfields : o.fields = ⟨s, e - normShift r, normFrac r⟩ := by
    rw [hclear.fields_eq, h.outcome]
    show Fields.mk s ((e + 256 - normShift r) % 256) (normFrac r) = _
    rw [show (e + 256 - normShift r) % 256 = e - normShift r by omega]
  have hvalue : o.fields.value = sgn s * (r * 2 ^ ((e : ℤ) - 150)) := by
    rw [hfields, value_of_pos (show 1 ≤ e - normShift r by omega)]
    simp only
    rw [← hmul, Nat.cast_mul, Nat.cast_pow, Nat.cast_ofNat, ← zpow_natCast, mul_assoc (r : ℚ),
      ← zpow_add₀ two_ne_zero, Nat.cast_sub hshift.le, show
        (normShift r : ℤ) + ((e : ℤ) - normShift r - 150) = e - 150 by ring]
  refine ⟨hclear, by rw [hfields]; simp only; omega, ?_⟩
  rw [hvalue, h.value, close_iff, sub_sub_cancel, abs_of_nonneg h.rest.1]
  linarith [h.rest.2]

lemma Subtracts.cancelled (h : Subtracts v e o s r δ) (he : 1 ≤ e) (he' : e ≤ 254) (h0 : r = 0) :
    ¬ o.SumAccurate v e := by
  intro hacc
  have hzero := (hacc.1 (h.eq_zero_iff.mpr h0)).1
  rw [h.outcome, normalised_of_defaulted r (by omega) (.inl h0)] at hzero
  split at hzero
  · exact absurd hzero (Nat.succ_ne_zero 254)
  · exact absurd hzero (by simp only; omega)

lemma Subtracts.abs_le (h : Subtracts v e o s r δ) (he : e ≤ 254) (hr : r ≤ 2 ^ 23) :
    |v| ≤ 2 ^ (127 : ℤ) := by
  have hcast : (r : ℚ) ≤ (2 ^ 23 : ℕ) := Nat.cast_le.mpr hr
  have hunit : (2 : ℚ) ^ ((e : ℤ) - 150) ≤ 2 ^ (104 : ℤ) :=
    zpow_le_zpow_right₀ one_le_two (by omega)
  calc |v| ≤ (2 ^ 23 : ℕ) * 2 ^ ((e : ℤ) - 150) := by
        rw [h.abs_eq]
        exact mul_le_mul_of_nonneg_right (by linarith [h.rest.1]) (zpow_pos two_pos _).le
    _ ≤ (2 ^ 23 : ℕ) * 2 ^ (104 : ℤ) := mul_le_mul_of_nonneg_left hunit (Nat.cast_nonneg _)
    _ = 2 ^ (127 : ℤ) := by rw [two_zpow_127, Nat.cast_pow, Nat.cast_ofNat]

lemma Subtracts.defaulted (h : Subtracts v e o s r δ) (he : 1 ≤ e) (he' : e ≤ 254) (hr : 16 ≤ r)
    (hr' : r < 32) (hv : 2 ^ (-126 : ℤ) ≤ |v|) : ¬ o.SumAccurate v e := by
  intro hacc
  obtain ⟨-, hexpo, hclose⟩ := hacc.2 hv (h.abs_le he' (by omega))
  rw [h.outcome, normalised_of_defaulted r (by omega) (.inr ⟨hr, hr'⟩)] at hexpo hclose
  split at hexpo
  · exact absurd rfl hexpo
  · next h254 =>
    rw [if_neg h254, value_of_pos he, h.value, close_iff] at hclose
    have hcast : (r : ℚ) < (32 : ℕ) := Nat.cast_lt.mpr hr'
    push_cast at hcast hclose
    have hδ := h.rest.1
    linarith [(abs_lt.mp hclose).2]

lemma Subtracts.overflowed (h : Subtracts v e o s r δ) (he : e = 254) (hr : r = 2 ^ 23) :
    ¬ o.SumAccurate v e := by
  intro hacc
  have hlow : 2 ^ (-126 : ℤ) ≤ |v| := by
    have hunit : (2 : ℚ) ^ (-126 : ℤ) ≤ 2 ^ ((e : ℤ) - 150) :=
      zpow_le_zpow_right₀ one_le_two (by omega)
    have hone : (1 : ℚ) ≤ r - δ := by
      rw [hr]
      push_cast
      linarith [h.rest.2]
    calc (2 : ℚ) ^ (-126 : ℤ) ≤ 1 * 2 ^ ((e : ℤ) - 150) := by rwa [one_mul]
      _ ≤ |v| := by
        rw [h.abs_eq]
        exact mul_le_mul_of_nonneg_right hone (zpow_pos two_pos _).le
  obtain ⟨hclear, -⟩ := hacc.2 hlow (h.abs_le he.le hr.le)
  have hover := hclear.1
  rw [h.outcome, he, hr] at hover
  unfold normalised at hover
  rw [(norm_of_le le_rfl (by omega : 2 ^ 23 < 2 ^ 24)).1] at hover
  simp at hover

theorem Subtracts.accurate_iff (h : Subtracts v e o s r δ) (he : 1 ≤ e) (he' : e ≤ 254) :
    o.SumAccurate v e ↔ SumSafe v e := by
  rw [h.safe_iff]
  by_cases h0 : r = 0
  · exact iff_of_false (h.cancelled he he' h0) (fun e => e.1 h0)
  have hv : v ≠ 0 := fun hv => h0 (h.eq_zero_iff.mp hv)
  by_cases hd : 16 ≤ r ∧ r < 32
  · by_cases hlow : 2 ^ (-126 : ℤ) ≤ |v|
    · exact iff_of_false (h.defaulted he he' hd.1 hd.2 hlow) (fun e => e.2.1 ⟨hd.1, hd.2, hlow⟩)
    · refine iff_of_true ⟨fun e => absurd e hv, fun e => absurd e hlow⟩ ⟨h0, ?_, by omega⟩
      exact fun e => hlow e.2.2
  have hd' : ¬ Defaulted r := by unfold Defaulted; omega
  by_cases hover : e = 254 ∧ 2 ^ 23 ≤ r
  · by_cases hr : r = 2 ^ 23
    · exact iff_of_false (h.overflowed hover.1 hr) (fun e => e.2.2 ⟨hover.1, hr⟩)
    · -- above the power of two the overflow is one
      refine iff_of_true ⟨fun e => absurd e hv, fun _ hhigh => ?_⟩ ⟨h0, by omega, by omega⟩
      have hunit : (0 : ℚ) < 2 ^ (104 : ℤ) := zpow_pos two_pos _
      have hle : (r : ℚ) - δ ≤ 2 ^ 23 := by
        rw [h.abs_eq, hover.1, two_zpow_127] at hhigh
        exact le_of_mul_le_mul_right hhigh hunit
      have hr' : r ≤ 2 ^ 23 := (sub_rest_le_iff (k := 2 ^ 23) h.rest).mp (by exact_mod_cast hle)
      omega
  · exact iff_of_true (h.accurate he he' hd' hover) ⟨h0, by omega, by omega⟩

end Difference

/-! ### A sum -/

section Sum

variable {v δ : ℚ} {e t : ℕ} {o : Outcome} {s : Bool}

lemma Adds.abs_eq (h : Adds v e o s t δ) : |v| = (t + δ) * 2 ^ ((e : ℤ) - 150) := by
  have hnonneg : (0 : ℚ) ≤ t + δ := by
    have := h.gt
    linarith
  rw [h.value, abs_sgn_mul, abs_of_nonneg]
  exact mul_nonneg hnonneg (zpow_pos two_pos _).le

lemma Adds.ne_top (h : Adds v e o s t δ) (hv : |v| ≤ 2 ^ (127 : ℤ)) : e ≠ 254 := by
  rintro rfl
  rw [h.abs_eq, two_zpow_127] at hv
  have hle := le_of_mul_le_mul_right hv (zpow_pos two_pos _)
  have hgt := h.gt
  linarith

lemma Adds.safe (h : Adds v e o s t δ) : SumSafe v e := by
  have hunit : (0 : ℚ) < 2 ^ ((e : ℤ) - 150) := zpow_pos two_pos _
  have hgt := h.gt
  refine ⟨?_, ?_, ?_⟩
  · rw [← abs_pos, h.abs_eq]
    exact mul_pos (by linarith) hunit
  · rintro ⟨-, hle, -⟩
    rw [h.abs_eq, mul_le_mul_iff_of_pos_right hunit] at hle
    linarith
  · rintro ⟨he, -, hle⟩
    exact h.ne_top hle he

lemma Adds.in_place (h : Adds v e o s t δ) (he : 1 ≤ e) (he' : e < 254) (hlt : t < 2 ^ 24) :
    o.Clear ∧ o.fields.expo ≠ 255 ∧ |o.fields.value - v| < 2 ^ ((e : ℤ) - 149) := by
  obtain ⟨hshift, hfrac⟩ := norm_of_le h.ge hlt
  have hout := h.outcome
  rw [if_pos hlt] at hout
  unfold normalised at hout
  rw [hshift, hfrac] at hout
  have hclear : o.Clear := by
    rw [hout]
    refine ⟨?_, decide_eq_false (Nat.not_lt_zero e), rfl⟩
    show (e == 254 && true) = false
    rw [Bool.and_true, beq_eq_false_iff_ne]
    exact he'.ne
  have hfields : o.fields = ⟨s, e, t - 2 ^ 23⟩ := by
    rw [hclear.fields_eq, hout]
    simp only [Fields.mk.injEq, true_and, and_true]
    omega
  refine ⟨hclear, by rw [hfields]; simp only; omega, ?_⟩
  rw [hfields, value_of_pos he, h.value]
  simp only
  rw [Nat.add_sub_cancel' h.ge, close_iff, abs_lt]
  exact ⟨by linarith [h.rest.2], by linarith [h.rest.1]⟩

/-- A sum with a carry is halved, with the last bit rounded up. -/
lemma Adds.halved (h : Adds v e o s t δ) (he' : e < 254) (hge : 2 ^ 24 ≤ t) :
    o.Clear ∧ o.fields.expo ≠ 255 ∧ |o.fields.value - v| < 2 ^ ((e : ℤ) - 149) := by
  have ht := h.lt
  have hout := h.outcome
  rw [if_neg (by omega)] at hout
  unfold carried at hout
  have hclear : o.Clear := by
    rw [hout]
    exact ⟨beq_eq_false_iff_ne.mpr he'.ne, rfl, rfl⟩
  have hfields : o.fields = ⟨s, e + 1, (t - 2 ^ 24) / 2 + t % 2⟩ := by
    rw [hclear.fields_eq, hout]
    simp only [Fields.mk.injEq, true_and]
    omega
  have hdouble : ((2 ^ 23 + ((t - 2 ^ 24) / 2 + t % 2) : ℕ) : ℚ) * 2 = ((t + t % 2 : ℕ) : ℚ) := by
    have hnat : (2 ^ 23 + ((t - 2 ^ 24) / 2 + t % 2)) * 2 = t + t % 2 := by omega
    rw [← hnat, Nat.cast_mul, Nat.cast_ofNat]
  have hvalue : o.fields.value = sgn s * (((t + t % 2 : ℕ) : ℚ) * 2 ^ ((e : ℤ) - 150)) := by
    rw [hfields, value_of_pos (Nat.le_add_left 1 e), ← hdouble]
    simp only
    rw [mul_assoc (_ : ℚ) 2, ← zpow_one_add₀ two_ne_zero]
    congr 3
    push_cast
    ring
  refine ⟨hclear, by rw [hfields]; simp only; omega, ?_⟩
  have hmod : ((t % 2 : ℕ) : ℚ) ≤ 1 := by
    exact_mod_cast Nat.lt_succ_iff.mp (Nat.mod_lt t Nat.two_pos)
  have hmod' : (0 : ℚ) ≤ (t % 2 : ℕ) := Nat.cast_nonneg _
  rw [hvalue, h.value, close_iff, Nat.cast_add, add_sub_add_left_eq_sub, abs_lt]
  exact ⟨by linarith [h.rest.2], by linarith [h.rest.1]⟩

lemma Adds.accurate (h : Adds v e o s t δ) (he : 1 ≤ e) (he' : e ≤ 254) : o.SumAccurate v e := by
  refine ⟨fun h0 => absurd h0 h.safe.1, fun _ hhigh => ?_⟩
  have htop : e < 254 := lt_of_le_of_ne he' (h.ne_top hhigh)
  rcases Nat.lt_or_ge t (2 ^ 24) with hlt | hge
  · exact h.in_place he htop hlt
  · exact h.halved htop hge

end Sum

/-! ### The unit -/

/-- **When a sum or a difference is accurate.** -/
theorem sum_accurate_iff (x : Bool) {n1 n2 : BitVec 32} {oper : BitVec 2}
    (h1 : (fields n1).Normal) (h2 : (fields n2).Normal) (hoper : oper = 0 ∨ oper = 1) :
    SumAccurate (exactSum (oper == 1) (fields n1) (fields n2))
        (max (fields n1).expo (fields n2).expo) (main x n1 n2 oper) ↔
      SumSafe (exactSum (oper == 1) (fields n1) (fields n2))
        (max (fields n1).expo (fields n2).expo) := by
  have hmain : mainOutcome x oper (fields n1) (fields n2) =
      sumOutcome (oper == 1) (fields n1) (fields n2) := by
    rcases hoper with rfl | rfl <;> rfl
  have hpos := h1.pos
  have hle := h1.le
  have hle' := h2.le
  unfold SumAccurate
  rw [clear_main, fields_main, hmain]
  rcases sum_cases (oper == 1) h1 h2 (frac_lt n1) (frac_lt n2) with ⟨s, r, δ, h⟩ | ⟨s, t, δ, h⟩
  · exact h.accurate_iff (by omega) (by omega)
  · exact iff_of_true (h.accurate (by omega) (by omega)) h.safe

theorem one_and_two_accurate :
    SumAccurate (exactSum ((0 : BitVec 2) == 1) (fields 0x3F800000) (fields 0x40000000))
      (max (fields 0x3F800000).expo (fields 0x40000000).expo)
      (main false 0x3F800000 0x40000000 0) := by
  have hv : exactSum ((0 : BitVec 2) == 1) (fields 0x3F800000) (fields 0x40000000) = 3 := by
    decide +kernel
  have he : max (fields 0x3F800000).expo (fields 0x40000000).expo = 128 := by decide
  refine (sum_accurate_iff false ⟨by decide, by decide⟩ ⟨by decide, by decide⟩ (.inl rfl)).mpr ?_
  rw [hv, he]
  refine ⟨by norm_num, ?_, fun h => absurd h.1 (by decide)⟩
  rintro ⟨-, hle, -⟩
  exact absurd hle (by norm_num)

/-- One less one is one. -/
theorem one_less_one :
    (fields 0x3F800000).Normal ∧
      ¬ SumAccurate (exactSum ((1 : BitVec 2) == 1) (fields 0x3F800000) (fields 0x3F800000))
        (max (fields 0x3F800000).expo (fields 0x3F800000).expo)
        (main false 0x3F800000 0x3F800000 1) := by
  refine ⟨⟨by decide, by decide⟩, fun h => ?_⟩
  have hzero := h.1 (add_neg_cancel _)
  have hword : (main false 0x3F800000 0x3F800000 1).result = 0x3F800000 := by decide +kernel
  rw [hword] at hzero
  exact absurd hzero.1 (by decide)

end PanTilt.Alu
