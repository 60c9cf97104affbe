import PanTilt.Alu.Value

/-!
The accuracy and the range of a quotient of two normal words.

Where the fraction of the dividend is the smaller one, the circuit has the digits of the exact
quotient, under an exponent that wraps: in the range, and in one corner below it, the answer is
right. Where it is not, the flags hang on the bit that `temp_E1` does not have, and no value of that
bit serves (`quotient_accurate_iff`).
-/

namespace PanTilt.Alu

open Lib.Precision

/-- An answer for the exact quotient `v`: in the range of the numbers a clear answer, chopped to 24
bits, and out of the range the flag. -/
def QuotientAccurate (v : ℚ) (A : Answer) : Prop :=
  (2 ^ (-126 : ℤ) ≤ |v| → |v| < 2 ^ (128 : ℤ) → A.Clear ∧ (fields A.result).expo ≠ 255 ∧
      (fields A.result).value = chop 24 v) ∧
    (2 ^ (128 : ℤ) ≤ |v| → A.overflow = true) ∧ (|v| < 2 ^ (-126 : ℤ) → A.underflow = true)

/-- The same on what a circuit computes. -/
def Outcome.QuotientAccurate (v : ℚ) (o : Outcome) : Prop :=
  (2 ^ (-126 : ℤ) ≤ |v| → |v| < 2 ^ (128 : ℤ) → o.Clear ∧ o.fields.expo ≠ 255 ∧
      o.fields.value = chop 24 v) ∧
    (2 ^ (128 : ℤ) ≤ |v| → o.overflow = true) ∧ (|v| < 2 ^ (-126 : ℤ) → o.underflow = true)

/-- The fraction of the dividend is the smaller one, and the exponents differ by what the range
holds, or by one value below it. -/
def QuotientSafe (a b : Fields) : Prop :=
  a.frac < b.frac ∧
    (b.expo ≤ a.expo + 125 ∧ a.expo ≤ b.expo + 128 ∨ b.expo = a.expo + 127)

/-! ### A quotient from one on -/

lemma quotientOutcome_flags {a b : Fields} (hle : divisor a b ≤ dividend a)
    (ht : quotientExpo a b < 256) (x : Bool) :
    (quotientOutcome x a b).overflow = false ∧ (quotientOutcome x a b).underflow = !x := by
  unfold quotientOutcome
  rw [if_pos hle]
  simp only [decide_eq_true ht, Bool.and_true, decide_eq_false (Nat.not_le.mpr ht),
    Bool.and_false, and_self]

/-- **No value of the missing bit serves** a quotient whose significand is not below one. -/
lemma not_quotientAccurate_of_le {a b : Fields} (hle : divisor a b ≤ dividend a)
    (ht : quotientExpo a b < 256) (v : ℚ) :
    ¬ ∀ x, (quotientOutcome x a b).QuotientAccurate v := by
  intro h
  obtain ⟨hover, hunder⟩ := quotientOutcome_flags hle ht false
  obtain ⟨-, hunder'⟩ := quotientOutcome_flags hle ht true
  rcases lt_or_ge |v| (2 ^ (-126 : ℤ)) with hlow | hlow
  · have hflag := (h true).2.2 hlow
    rw [hunder'] at hflag
    cases hflag
  · rcases lt_or_ge |v| (2 ^ (128 : ℤ)) with hhigh | hhigh
    · have hclear := ((h false).1 hlow hhigh).1.2.1
      rw [hunder] at hclear
      cases hclear
    · have hflag := (h false).2.1 hhigh
      rw [hover] at hflag
      cases hflag

/-! ### A quotient below one -/

/-- **A quotient below one**: the digits `Q` under the difference `d` of the exponents. -/
structure Divides (v : ℚ) (o : Outcome) (s : Bool) (d : ℤ) (Q : ℕ) (θ : ℚ) : Prop
    extends Digits v s Q θ (d - 24) where
  outcome : o =
    { sign := s
      expo := ((d + 382) % 256).toNat
      frac := Q % 2 ^ 23
      overflow := false
      underflow := decide ((d + 383) % 256 = 0)
      exception := false }

/-- **What the circuit computes, beside the exact quotient.** -/
lemma exists_divides {a b : Fields} (ha : a.Normal) (hb : b.Normal) (hfa : a.frac < 2 ^ 23)
    (hfb : b.frac < 2 ^ 23) (hlt : a.frac < b.frac) : ∃ Q θ, ∀ x,
      Divides (a.value / b.value) (quotientOutcome x a b) (a.sign ^^ b.sign)
        ((a.expo : ℤ) - b.expo) Q θ := by
  have h₁ := ha.pos
  have h₂ := hb.pos
  have hle := ha.le
  have hle' := hb.le
  have hva : a.Valid := ⟨by omega, hfa⟩
  have hvb : b.Valid := ⟨by omega, hfb⟩
  obtain ⟨hA, hB, ht⟩ := quotient_of_normal hva hvb (by omega)
  obtain ⟨hQ, -, htop⟩ := significandQuotient_bounds hfa hfb
  obtain ⟨θ, hθ, -, hrest⟩ := exists_rest (K := ℚ) ((2 ^ 23 + a.frac) * 2 ^ 24)
    (show 0 < 2 ^ 23 + b.frac by omega)
  refine ⟨significandQuotient a.frac b.frac, θ, fun x => ⟨⟨hQ, by omega, hθ, ?_⟩, ?_⟩⟩
  · have hpos : (0 : ℚ) < (2 ^ 23 + b.frac : ℕ) := Nat.cast_pos.mpr (by omega)
    have hpow : (2 : ℚ) ^ ((a.expo : ℤ) - 150) / 2 ^ ((b.expo : ℤ) - 150) =
        2 ^ 24 * 2 ^ ((a.expo : ℤ) - b.expo - 24) := by
      rw [← zpow_sub₀ two_ne_zero, ← zpow_natCast, ← zpow_add₀ two_ne_zero]
      congr 1
      push_cast
      ring
    rw [value_of_pos h₁, value_of_pos h₂, mul_div_mul_comm, mul_div_mul_comm, sgn_div, hpow,
      ← mul_assoc (_ / _ : ℚ), div_mul_eq_mul_div]
    rw [Nat.cast_mul, Nat.cast_pow, Nat.cast_ofNat] at hrest
    rw [hrest]
    rfl
  · have hexc := ha.exceptional hb
    unfold quotientOutcome quotientFrac
    rw [hA, hB, ht, hexc, if_neg (by omega), if_neg (by omega)]
    simp only [Outcome.mk.injEq, true_and, Bool.false_or, Bool.and_eq_false_iff,
      beq_eq_false_iff_ne, decide_eq_false_iff_not]
    refine ⟨by omega, by omega, ?_, by omega⟩
    rw [Bool.eq_iff_iff, beq_iff_eq, decide_eq_true_eq]
    omega

section Below

variable {v θ : ℚ} {o : Outcome} {s : Bool} {d : ℤ} {Q : ℕ}

lemma Divides.range (h : Divides v o s d Q θ) :
    (2 ^ (-126 : ℤ) ≤ |v| ↔ -125 ≤ d) ∧ (|v| < 2 ^ (128 : ℤ) ↔ d ≤ 128) ∧
      (2 ^ (128 : ℤ) ≤ |v| ↔ 129 ≤ d) ∧ (|v| < 2 ^ (-126 : ℤ) ↔ d < -125) := by
  have hlog := h.log_eq
  rw [two_zpow_le_iff h.ne_zero, two_zpow_le_iff h.ne_zero, lt_two_zpow_iff h.ne_zero,
    lt_two_zpow_iff h.ne_zero, hlog]
  refine ⟨?_, ?_, ?_, ?_⟩ <;> omega

lemma Divides.chopped (h : Divides v o s d Q θ) (hlo : -125 ≤ d) (hhi : d ≤ 128) :
    o.Clear ∧ o.fields.expo ≠ 255 ∧ o.fields.value = chop 24 v := by
  have hge := h.ge
  have hlt := h.lt
  have hclear : o.Clear := by
    rw [h.outcome]
    exact ⟨rfl, decide_eq_false (by omega), rfl⟩
  have hfields : o.fields = ⟨s, (d + 126).toNat, Q - 2 ^ 23⟩ := by
    rw [hclear.fields_eq, h.outcome]
    simp only [Fields.mk.injEq, true_and]
    omega
  have hpos : 1 ≤ o.fields.expo := by
    rw [hfields]
    simp only
    omega
  have hexpo : ((d + 126).toNat : ℤ) - 150 = d - 24 := by omega
  refine ⟨hclear, ?_, ?_⟩
  · rw [hfields]
    simp only
    omega
  · rw [value_of_pos hpos, h.chop_eq, hfields]
    simp only
    rw [Nat.add_sub_cancel' hge, hexpo]

lemma Divides.accurate_iff (h : Divides v o s d Q θ) (hlo : -253 ≤ d) (hhi : d ≤ 253) :
    o.QuotientAccurate v ↔ -125 ≤ d ∧ d ≤ 128 ∨ d = -127 := by
  obtain ⟨h₁, h₂, h₃, h₄⟩ := h.range
  unfold Outcome.QuotientAccurate
  rw [h₁, h₂, h₃, h₄]
  have hover : o.overflow = false := by rw [h.outcome]
  have hunder : o.underflow = decide ((d + 383) % 256 = 0) := by rw [h.outcome]
  rw [hover, hunder, decide_eq_true_eq]
  constructor
  · rintro ⟨-, hhigh, hlow⟩
    have hhigh' : d ≤ 128 := by
      by_contra hd
      exact Bool.false_ne_true (hhigh (by omega))
    omega
  · intro hd
    refine ⟨fun hl hh => h.chopped hl hh, by omega, by omega⟩

end Below

/-! ### The unit -/

/-- **When a quotient is accurate**, whatever stands for the missing bit. -/
theorem quotient_accurate_iff {n1 n2 : BitVec 32} (h1 : (fields n1).Normal)
    (h2 : (fields n2).Normal) :
    (∀ x, QuotientAccurate ((fields n1).value / (fields n2).value) (main x n1 n2 3)) ↔
      QuotientSafe (fields n1) (fields n2) := by
  have hfa := frac_lt n1
  have hfb := frac_lt n2
  have hpos := h1.pos
  have hpos' := h2.pos
  have hle := h1.le
  have hle' := h2.le
  have hunit : ∀ x, QuotientAccurate ((fields n1).value / (fields n2).value) (main x n1 n2 3) ↔
      (quotientOutcome x (fields n1) (fields n2)).QuotientAccurate
        ((fields n1).value / (fields n2).value) := by
    intro x
    have hmain : mainOutcome x 3 (fields n1) (fields n2) =
        quotientOutcome x (fields n1) (fields n2) := rfl
    obtain ⟨hover, hunder, -⟩ := flags_main x n1 n2 3
    unfold QuotientAccurate Outcome.QuotientAccurate
    rw [clear_main, fields_main, hover, hunder, hmain]
  unfold QuotientSafe
  rw [forall_congr' hunit]
  by_cases hlt : (fields n1).frac < (fields n2).frac
  · obtain ⟨Q, θ, h⟩ := exists_divides h1 h2 hfa hfb hlt
    have hiff := fun x => (h x).accurate_iff (by omega) (by omega)
    rw [forall_congr' hiff, forall_const]
    omega
  · obtain ⟨hA, hB, ht⟩ := quotient_of_normal (valid_fields n1) (valid_fields n2)
      (show (fields n1).expo ≠ 0 by omega)
    refine iff_of_false (not_quotientAccurate_of_le ?_ ?_ _) (fun hsafe => hlt hsafe.1)
    · omega
    · omega

theorem two_over_three_halves_accurate :
    QuotientAccurate ((fields 0x40000000).value / (fields 0x3FC00000).value)
        (main false 0x40000000 0x3FC00000 3) ∧
      QuotientAccurate ((fields 0x40000000).value / (fields 0x3FC00000).value)
        (main true 0x40000000 0x3FC00000 3) := by
  have h := (@quotient_accurate_iff 0x40000000 0x3FC00000 ⟨by decide, by decide⟩
    ⟨by decide, by decide⟩).mpr ⟨by decide, .inl ⟨by decide, by decide⟩⟩
  exact ⟨h false, h true⟩

/-- The largest power of two over the smallest one raises no overflow. -/
theorem lost_overflow :
    (fields 0x7F000000).Normal ∧ (fields 0x00800000).Normal ∧
      ∀ x, ¬ QuotientAccurate ((fields 0x7F000000).value / (fields 0x00800000).value)
        (main x 0x7F000000 0x00800000 3) := by
  refine ⟨⟨by decide, by decide⟩, ⟨by decide, by decide⟩, fun x h => ?_⟩
  have hv : (fields 0x7F000000).value / (fields 0x00800000).value = 2 ^ 253 := by decide +kernel
  have hflag : ∀ x, (main x 0x7F000000 0x00800000 3).overflow = false := by decide +kernel
  rw [hv] at h
  have hover := h.2.1 (by norm_num)
  rw [hflag] at hover
  cases hover

end PanTilt.Alu
