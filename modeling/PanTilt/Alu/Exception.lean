import PanTilt.Alu.SumOrder
import PanTilt.Alu.Main

/-!
Exceptions of the unit: an operand whose exponent has all bits set, or a zero divisor.

The unit answers all ones, unless the flags of the circuit, which know nothing of the exception,
overrule it. A sum never does; a product overflows with a large exponent beside the exceptional one;
and the flags of a quotient depend on the bit `x` that the circuit does not have.
-/

namespace PanTilt.Alu

/-- An exception shows as the word of all ones. -/
def Unmasked (A : Answer) : Prop := A.exception = true → A.result = BitVec.allOnes 32

/-- The exponent beside the exceptional one makes the product overflow. -/
def ProductMasked (a b : Fields) : Prop :=
  exceptional a b = true ∧ (128 ≤ min a.expo b.expo ∨
    min a.expo b.expo = 127 ∧ 2 ^ 47 ≤ (2 ^ 23 + a.frac) * (2 ^ 23 + b.frac))

/-- The quotient raises a flag: where it is at least one, the underflow that `x` does not hold back,
and below one the underflow of an exponent of zero. -/
def QuotientMasked (x : Bool) (a b : Fields) : Prop :=
  (exceptional a b = true ∨ b.expo = 0 ∧ b.frac = 0) ∧
    if divisor a b ≤ dividend a then x = false
    else a.expo = 255 ∧ b.expo = 126 ∨ a.expo = 128 ∧ b.expo = 255

/-- The pairs of operands on which an exception is overruled. -/
def Masked (x : Bool) (oper : BitVec 2) (a b : Fields) : Prop :=
  if oper.getLsbD 1 then if oper.getLsbD 0 then QuotientMasked x a b else ProductMasked a b
  else False

/-! ### The flags under an exception -/

lemma Outcome.fields_exception {o : Outcome} (h : o.exception = true) :
    o.fields = ⟨true, 255, 2 ^ 23 - 1⟩ ↔ o.overflow = false ∧ o.underflow = false := by
  unfold Outcome.fields
  rw [h]
  cases o.overflow <;> cases o.underflow <;> simp

lemma exception_sumOutcome (sub : Bool) (a b : Fields) :
    (sumOutcome sub a b).exception = exceptional a b := by
  unfold sumOutcome
  split
  · split <;> rfl
  · split <;> rfl

lemma exception_quotientOutcome (x : Bool) (a b : Fields) :
    (quotientOutcome x a b).exception = (exceptional a b || (b.expo == 0 && b.frac == 0)) := by
  unfold quotientOutcome
  split <;> rfl

/-- **A product under an exception** never underflows, and overflows where it is masked. -/
lemma product_flags {a b : Fields} (ha : a.Valid) (hb : b.Valid) (h : exceptional a b = true) :
    ((productOutcome a b).overflow = false ∧ (productOutcome a b).underflow = false) ↔
      ¬ ProductMasked a b := by
  have hmax := max_of_exceptional ha hb h
  have hsum : a.expo + b.expo = 255 + min a.expo b.expo := by rw [← hmax]; omega
  have htop := productTop_le a b
  have hcarry : min a.expo b.expo = 127 →
      (productTop a b = 1 ↔ 2 ^ 47 ≤ (2 ^ 23 + a.frac) * (2 ^ 23 + b.frac)) := by
    intro hmin
    unfold productTop product Fields.implied
    rw [if_neg (show ¬ a.expo = 0 by omega)]
    split
    · next hle => exact iff_of_true rfl hle
    · next hnot => exact iff_of_false Nat.zero_ne_one hnot
  unfold productOutcome ProductMasked
  simp only [hsum, h, true_and, decide_eq_false_iff_not]
  omega

lemma quotientExpo_of_exception {a b : Fields} (ha : a.Valid) (hb : b.Valid)
    (h : exceptional a b = true ∨ b.expo = 0 ∧ b.frac = 0) :
    quotientExpo a b < 256 ∧ (divisor a b ≤ dividend a ∨ (quotientExpo a b = 0 ↔
      a.expo = 255 ∧ b.expo = 126 ∨ a.expo = 128 ∧ b.expo = 255)) := by
  have h₁ := ha.expo
  have h₂ := hb.expo
  by_cases ha₀ : a.expo = 0
  · -- the fractions are normalised, and the exponent stays close to the bias
    have hsa := normShift_le a.frac
    have hsb := normShift_le b.frac
    have hexpo : quotientExpo a b =
        (639 - b.expo - normShift a.frac) % 256 + normShift b.frac := by
      unfold quotientExpo Fields.implied
      simp only [ha₀, if_true, Nat.zero_add]
      omega
    rcases h with h | ⟨hb₀, hfrac⟩
    · have hmax := max_of_exceptional ha hb h
      rw [hexpo]
      refine ⟨by omega, .inr ?_⟩
      omega
    · have hzero : Defaulted b.frac := .inl hfrac
      have hdivisor : divisor a b = 0 := by
        unfold divisor Fields.implied
        rw [if_pos ha₀, Nat.zero_add, normFrac_of_defaulted hzero]
      rw [hexpo, normShift_of_defaulted hzero, hdivisor]
      exact ⟨by omega, .inl (Nat.zero_le _)⟩
  · obtain ⟨hA, hB, hexpo⟩ := quotient_of_normal ha hb ha₀
    rw [hA, hB, hexpo]
    refine ⟨Nat.mod_lt _ (by omega), ?_⟩
    rcases h with h | ⟨-, hfrac⟩
    · have hmax := max_of_exceptional ha hb h
      exact .inr (by omega)
    · exact .inl (hfrac ▸ Nat.zero_le _)

lemma quotient_flags (x : Bool) {a b : Fields} (ha : a.Valid) (hb : b.Valid)
    (h : exceptional a b = true ∨ b.expo = 0 ∧ b.frac = 0) :
    ((quotientOutcome x a b).overflow = false ∧ (quotientOutcome x a b).underflow = false) ↔
      ¬ QuotientMasked x a b := by
  obtain ⟨hlt, hzero⟩ := quotientExpo_of_exception ha hb h
  unfold quotientOutcome QuotientMasked
  by_cases hle : divisor a b ≤ dividend a
  · rw [if_pos hle, if_pos hle, decide_eq_false (by omega : ¬ 256 ≤ quotientExpo a b),
      decide_eq_true hlt]
    cases x <;> simp [h]
  · have hiff := hzero.resolve_left hle
    rw [if_neg hle, if_neg hle, ← hiff]
    simp [h]
    omega

/-! ### The unit -/

/-- **When an exception shows.** -/
theorem unmasked_iff (x : Bool) (n1 n2 : BitVec 32) (oper : BitVec 2) :
    Unmasked (main x n1 n2 oper) ↔ ¬ Masked x oper (fields n1) (fields n2) := by
  have ha := valid_fields n1
  have hb := valid_fields n2
  have hones : fields (BitVec.allOnes 32) = ⟨true, 255, 2 ^ 23 - 1⟩ := by decide
  obtain ⟨-, -, hexc⟩ := flags_main x n1 n2 oper
  unfold Unmasked
  rw [hexc, ← fields_inj, fields_main, hones]
  unfold mainOutcome Masked
  cases oper.getLsbD 1
  · simp only [Bool.false_eq_true, if_false, not_false_eq_true, iff_true]
    rw [exception_sumOutcome]
    exact sumOutcome_exceptional ha hb
  · cases oper.getLsbD 0
    · simp only [Bool.false_eq_true, if_false, if_true]
      have hprod : (productOutcome (fields n1) (fields n2)).exception = true ↔
          exceptional (fields n1) (fields n2) = true := Iff.rfl
      constructor
      · intro h hmasked
        have hflags := (Outcome.fields_exception (hprod.mpr hmasked.1)).mp (h hmasked.1)
        exact (product_flags ha hb hmasked.1).mp hflags hmasked
      · intro h he
        exact (Outcome.fields_exception he).mpr ((product_flags ha hb (hprod.mp he)).mpr h)
    · simp only [if_true]
      have hquot : (quotientOutcome x (fields n1) (fields n2)).exception = true ↔
          exceptional (fields n1) (fields n2) = true ∨
            (fields n2).expo = 0 ∧ (fields n2).frac = 0 := by
        rw [exception_quotientOutcome, Bool.or_eq_true, Bool.and_eq_true, beq_iff_eq, beq_iff_eq]
      constructor
      · intro h hmasked
        have he := hquot.mpr hmasked.1
        have hflags := (Outcome.fields_exception he).mp (h he)
        exact (quotient_flags x ha hb hmasked.1).mp hflags hmasked
      · intro h he
        exact (Outcome.fields_exception he).mpr ((quotient_flags x ha hb (hquot.mp he)).mpr h)

/-- A large number times infinity: the overflow makes it an infinite word. -/
theorem infinity_times_large : ¬ Unmasked (main false 0x7F800000#32 0x7F000000#32 2) := by
  intro h
  exact absurd (h (by decide +kernel)) (by decide +kernel)

end PanTilt.Alu
