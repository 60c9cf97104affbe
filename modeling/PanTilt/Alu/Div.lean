import PanTilt.Alu.Answer

/-!
`div.v`: the quotient of two words.

Every wire of the module is a definition, and `quotientOutcome` is what the circuit computes, on the
fields of the two words (`div_outcome`). Both implied bits are taken from the exponent of the first
word. The module reads `temp_E1[8]`, a bit that the 8 bits of `temp_E1` do not have; what stands
there is the parameter `x`.
-/

namespace PanTilt.Alu

open Lib.Adder
open BitVec (ofBool)

/-- `Divider24bit`. -/
def divider24bit (a : BitVec 48) (b : BitVec 24) : BitVec 25 :=
  (a / b.setWidth 48).extractLsb' 0 25

namespace DivUnit

/-! ### The wires -/

section Wires

variable (x : Bool) (n1 n2 : BitVec 32)

def isN2Zero : Bool := reductionNor31bit (n2.extractLsb' 0 31)
def exception : Bool :=
  reductionAnd8bit (n1.extractLsb' 23 8) || reductionAnd8bit (n2.extractLsb' 23 8) || isN2Zero n2
def finalSign : Bool := n1.getLsbD 31 ^^ n2.getLsbD 31
def reducedOrE1 : Bool := reductionOr8bit (n1.extractLsb' 23 8)
/-- Reduced from the exponent of `n1`, too. -/
def reducedOrE2 : Bool := reductionOr8bit (n1.extractLsb' 23 8)

def complementedE2 : BitVec 8 := complement8bit (n2.extractLsb' 23 8)
def subE : BitVec 8 := (adder8bit (n1.extractLsb' 23 8) (complementedE2 n2) true).sum
def biasAddedE : BitVec 8 := (adder8bit (subE n1 n2) 0b01111111 false).sum

/-- `NM1`: `normalized_M1` and `shift_E1`. -/
def normalized1 : BitVec 23 × BitVec 5 :=
  normalizeMandfindShift (ofBool (reducedOrE1 n1) ++ n1.extractLsb' 0 23) false false
/-- `NM2`: `normalized_M2` and `shift_E2`. -/
def normalized2 : BitVec 23 × BitVec 5 :=
  normalizeMandfindShift (ofBool (reducedOrE2 n1) ++ n2.extractLsb' 0 23) false false

def MDivResult : BitVec 25 :=
  divider24bit (ofBool true ++ (normalized1 n1).1 ++ 0#24) (ofBool true ++ (normalized2 n1 n2).1)
/-- `M02`: `temp` and `final_M`. -/
def tempFinalM : BitVec 24 :=
  mux24Bit (0b0#1 ++ (MDivResult n1 n2).extractLsb' 0 23)
    (0b0#1 ++ (MDivResult n1 n2).extractLsb' 1 23) (MDivResult n1 n2)[24]
def finalM : BitVec 23 := (tempFinalM n1 n2).extractLsb' 0 23

def complementedShiftE1 : BitVec 8 := complement8bit (0b000#3 ++ (normalized1 n1).2)
def tempE1 : BitVec 8 := (adder8bit (biasAddedE n1 n2) (complementedShiftE1 n1) true).sum
/-- `ADD04`: the nine bits of `temp_E2`. -/
def tempE2 : Sum 8 := adder8bit (tempE1 n1 n2) (0b000#3 ++ (normalized2 n1 n2).2) false
def overflow1 : Bool := x && (tempE2 n1 n2).cout
def underflow1 : Bool := !(x || (tempE2 n1 n2).cout)
/-- `ADD05`: the nine bits of `temp_E3`. -/
def tempE3 : Sum 8 := adder8bit (tempE2 n1 n2).sum 0b11111111 false
def overflow2 : Bool := (tempE2 n1 n2).cout && (tempE3 n1 n2).cout
def underflow2 : Bool := !((tempE2 n1 n2).cout || (tempE3 n1 n2).cout)
def finalE : BitVec 8 := mux8Bit (tempE3 n1 n2).sum (tempE2 n1 n2).sum (MDivResult n1 n2)[24]

end Wires

end DivUnit

open DivUnit in
/-- The circuit. -/
def div (x : Bool) (n1 n2 : BitVec 32) : Answer where
  result := ofBool (finalSign n1 n2) ++ finalE n1 n2 ++ finalM n1 n2
  overflow := mux1Bit (overflow2 n1 n2) (overflow1 x n1 n2) (MDivResult n1 n2)[24]
  underflow := mux1Bit (underflow2 n1 n2) (underflow1 x n1 n2) (MDivResult n1 n2)[24]
  exception := exception n1 n2

/-! ### What the circuit computes -/

/-- The normalised fraction of the dividend. -/
def dividend (a : Fields) : ℕ := normFrac (a.implied + a.frac)

/-- The normalised fraction of the divisor, with the implied bit of the dividend. -/
def divisor (a b : Fields) : ℕ := normFrac (a.implied + b.frac)

/-- The quotient of two normalised significands, with 24 bits behind the point. -/
def significandQuotient (A B : ℕ) : ℕ := (2 ^ 23 + A) * 2 ^ 24 / (2 ^ 23 + B)

/-- The 23 bits of the quotient behind its leading one. -/
def quotientFrac (A B : ℕ) : ℕ :=
  if B ≤ A then significandQuotient A B / 2 % 2 ^ 23 else significandQuotient A B % 2 ^ 23

/-- The nine bits of `temp_E2` as a number. -/
def quotientExpo (a b : Fields) : ℕ :=
  (a.expo + (256 - b.expo) + 127 + (256 - normShift (a.implied + a.frac))) % 256 +
    normShift (a.implied + b.frac)

lemma quotientExpo_lt (a b : Fields) : quotientExpo a b < 280 := by
  have hshift := normShift_le (a.implied + b.frac)
  unfold quotientExpo
  omega

/-- The quotient of two words. -/
def quotientOutcome (x : Bool) (a b : Fields) : Outcome :=
  if divisor a b ≤ dividend a then
    { sign := a.sign ^^ b.sign
      expo := quotientExpo a b % 256
      frac := quotientFrac (dividend a) (divisor a b)
      overflow := x && decide (256 ≤ quotientExpo a b)
      underflow := !x && decide (quotientExpo a b < 256)
      exception := exceptional a b || (b.expo == 0 && b.frac == 0) }
  else
    { sign := a.sign ^^ b.sign
      expo := (quotientExpo a b + 255) % 256
      frac := quotientFrac (dividend a) (divisor a b)
      overflow := decide (256 < quotientExpo a b)
      underflow := quotientExpo a b == 0
      exception := exceptional a b || (b.expo == 0 && b.frac == 0) }

lemma significandQuotient_bounds {A B : ℕ} (hA : A < 2 ^ 23) (hB : B < 2 ^ 23) :
    2 ^ 23 ≤ significandQuotient A B ∧ significandQuotient A B < 2 ^ 25 ∧
      (2 ^ 24 ≤ significandQuotient A B ↔ B ≤ A) := by
  unfold significandQuotient
  rw [Nat.le_div_iff_mul_le (by omega), Nat.div_lt_iff_lt_mul (by omega),
    Nat.le_div_iff_mul_le (by omega)]
  omega

lemma quotient_of_normal {a b : Fields} (ha : a.Valid) (hb : b.Valid) (ha₀ : a.expo ≠ 0) :
    dividend a = a.frac ∧ divisor a b = b.frac ∧
      quotientExpo a b = (a.expo + 383 - b.expo) % 256 := by
  have h₁ := ha.frac
  have h₂ := hb.frac
  have he := hb.expo
  obtain ⟨hsa, hfa⟩ := norm_of_le (Nat.le_add_right (2 ^ 23) a.frac) (by omega)
  obtain ⟨hsb, hfb⟩ := norm_of_le (Nat.le_add_right (2 ^ 23) b.frac) (by omega)
  unfold dividend divisor quotientExpo Fields.implied
  rw [if_neg ha₀, hsa, hsb, hfa, hfb, Nat.add_sub_cancel_left, Nat.add_sub_cancel_left]
  refine ⟨rfl, rfl, ?_⟩
  omega

namespace DivUnit

variable (x : Bool) (n1 n2 : BitVec 32)

lemma toNat_normalized1 : (normalized1 n1).1.toNat = dividend (fields n1) ∧
    (normalized1 n1).2.toNat = normShift ((fields n1).implied + (fields n1).frac) := by
  obtain ⟨hM, hs⟩ :=
    @normalize_eq (ofBool (reducedOrE1 n1) ++ n1.extractLsb' 0 23) false false rfl
  rw [reducedOrE1, implied_append] at hM hs
  exact ⟨hM, hs⟩

lemma toNat_normalized2 : (normalized2 n1 n2).1.toNat = divisor (fields n1) (fields n2) ∧
    (normalized2 n1 n2).2.toNat = normShift ((fields n1).implied + (fields n2).frac) := by
  obtain ⟨hM, hs⟩ :=
    @normalize_eq (ofBool (reducedOrE2 n1) ++ n2.extractLsb' 0 23) false false rfl
  rw [reducedOrE2, implied_append] at hM hs
  exact ⟨hM, hs⟩

lemma dividend_lt : dividend (fields n1) < 2 ^ 23 := by
  rw [← (toNat_normalized1 n1).1]
  exact (normalized1 n1).1.isLt

lemma divisor_lt : divisor (fields n1) (fields n2) < 2 ^ 23 := by
  rw [← (toNat_normalized2 n1 n2).1]
  exact (normalized2 n1 n2).1.isLt

lemma toNat_MDivResult : (MDivResult n1 n2).toNat =
    significandQuotient (dividend (fields n1)) (divisor (fields n1) (fields n2)) := by
  have hbounds := significandQuotient_bounds (dividend_lt n1) (divisor_lt n1 n2)
  have ha : (ofBool true ++ (normalized1 n1).1 ++ 0#24).toNat =
      (2 ^ 23 + dividend (fields n1)) * 2 ^ 24 := by
    rw [toNat_append_eq, toNat_append_eq, (toNat_normalized1 n1).1]
    show (1 * 2 ^ 23 + _) * 2 ^ 24 + 0 = _
    omega
  have hb : (ofBool true ++ (normalized2 n1 n2).1).toNat =
      2 ^ 23 + divisor (fields n1) (fields n2) := by
    rw [toNat_append_eq, (toNat_normalized2 n1 n2).1]
    show 1 * 2 ^ 23 + _ = _
    omega
  rw [MDivResult, divider24bit, BitVec.extractLsb'_toNat, BitVec.toNat_udiv,
    BitVec.toNat_setWidth_of_le (by omega), ha, hb, Nat.shiftRight_zero]
  exact Nat.mod_eq_of_lt hbounds.2.1

lemma MDivResult_top : (MDivResult n1 n2)[24] =
    decide (divisor (fields n1) (fields n2) ≤ dividend (fields n1)) := by
  obtain ⟨-, hlt, htop⟩ := significandQuotient_bounds (dividend_lt n1) (divisor_lt n1 n2)
  rw [← BitVec.getLsbD_eq_getElem, ← BitVec.testBit_toNat, Nat.testBit_eq_decide_div_mod_eq,
    decide_eq_decide, toNat_MDivResult, ← htop]
  omega

lemma toNat_finalM : (finalM n1 n2).toNat =
    quotientFrac (dividend (fields n1)) (divisor (fields n1) (fields n2)) := by
  rw [finalM, tempFinalM, mux24Bit_eq, MDivResult_top, BitVec.extractLsb'_toNat,
    Nat.shiftRight_zero, quotientFrac]
  by_cases h : divisor (fields n1) (fields n2) ≤ dividend (fields n1)
  · rw [decide_eq_true h, if_pos rfl, if_pos h, toNat_zero_append, BitVec.extractLsb'_toNat,
      toNat_MDivResult, Nat.shiftRight_eq_div_pow, Nat.mod_mod, Nat.pow_one]
  · rw [decide_eq_false h, if_neg Bool.false_ne_true, if_neg h, toNat_zero_append,
      BitVec.extractLsb'_toNat, toNat_MDivResult, Nat.shiftRight_zero, Nat.mod_mod]

lemma tempE2_value : (tempE2 n1 n2).value = quotientExpo (fields n1) (fields n2) := by
  have hle := normShift_le ((fields n1).implied + (fields n1).frac)
  have hsubE : (subE n1 n2).toNat = ((fields n1).expo + (256 - (fields n2).expo)) % 256 :=
    isAdder_adder8bit.sub_sum _ _
  have hbias : (biasAddedE n1 n2).toNat = ((subE n1 n2).toNat + 127) % 256 :=
    isAdder_adder8bit.sum _ _ _
  have hE1 : (tempE1 n1 n2).toNat =
      ((biasAddedE n1 n2).toNat + (256 - (0b000#3 ++ (normalized1 n1).2).toNat)) % 256 :=
    isAdder_adder8bit.sub_sum _ _
  rw [toNat_zero_append, (toNat_normalized1 n1).2] at hE1
  rw [tempE2, isAdder_adder8bit, toNat_zero_append, (toNat_normalized2 n1 n2).2, hE1, hbias, hsubE,
    quotientExpo, Bool.toNat_false]
  omega

lemma isN2Zero_eq :
    isN2Zero n2 = ((fields n2).expo == 0 && (fields n2).frac == 0) := by
  have hn := toNat_eq_fields n2
  have hexpo := expo_lt n2
  have hfrac := frac_lt n2
  have hlow : (n2.extractLsb' 0 31).toNat = (fields n2).expo * 2 ^ 23 + (fields n2).frac := by
    rw [BitVec.extractLsb'_toNat, Nat.shiftRight_zero]
    cases hs : (fields n2).sign
    · rw [hs, Bool.toNat_false] at hn
      omega
    · rw [hs, Bool.toNat_true] at hn
      omega
  rw [isN2Zero, reductionNor31bit_eq, hlow, Bool.eq_iff_iff, decide_eq_true_eq, Bool.and_eq_true,
    beq_iff_eq, beq_iff_eq]
  omega

lemma tempE2_eq : (tempE2 n1 n2).sum.toNat = quotientExpo (fields n1) (fields n2) % 256 ∧
    (tempE2 n1 n2).cout = decide (256 ≤ quotientExpo (fields n1) (fields n2)) := by
  rw [← tempE2_value, tempE2, isAdder_adder8bit.sum, isAdder_adder8bit.cout, isAdder_adder8bit]
  exact ⟨rfl, rfl⟩

lemma tempE3_eq : (tempE3 n1 n2).sum.toNat = (quotientExpo (fields n1) (fields n2) + 255) % 256 ∧
    (tempE3 n1 n2).cout = decide (quotientExpo (fields n1) (fields n2) % 256 ≠ 0) := by
  rw [tempE3, isAdder_adder8bit.sum, isAdder_adder8bit.cout, (tempE2_eq n1 n2).1, decide_eq_decide]
  show (_ % 256 + 255 + 0) % 256 = _ ∧ (256 ≤ _ % 256 + 255 + 0 ↔ _)
  omega

theorem div_outcome : (div x n1 n2).outcome = quotientOutcome x (fields n1) (fields n2) := by
  obtain ⟨hsum2, hcout2⟩ := tempE2_eq n1 n2
  obtain ⟨hsum3, hcout3⟩ := tempE3_eq n1 n2
  have hexc : DivUnit.exception n1 n2 = (exceptional (fields n1) (fields n2) ||
      ((fields n2).expo == 0 && (fields n2).frac == 0)) := by
    rw [DivUnit.exception, exceptional_eq, isN2Zero_eq]
  have hlt := quotientExpo_lt (fields n1) (fields n2)
  unfold Answer.outcome div quotientOutcome
  simp only [fields_append, toNat_finalM, hexc, mux1Bit_eq, finalE, mux8Bit_eq, MDivResult_top]
  by_cases h : divisor (fields n1) (fields n2) ≤ dividend (fields n1)
  · simp only [decide_eq_true h, if_pos h, if_true, hsum2, overflow1, underflow1, hcout2,
      Outcome.mk.injEq]
    refine ⟨rfl, trivial, trivial, trivial, ?_, trivial⟩
    rw [Bool.not_or, ← decide_not]
    simp
  · simp only [decide_eq_false h, if_neg h, if_false, hsum3, overflow2, underflow2, hcout2, hcout3,
      Bool.false_eq_true, Outcome.mk.injEq]
    refine ⟨rfl, trivial, trivial, ?_, ?_, trivial⟩
    · rw [← Bool.decide_and, decide_eq_decide]
      omega
    · rw [← Bool.decide_or, ← decide_not, Bool.eq_iff_iff, decide_eq_true_eq, beq_iff_eq]
      omega

end DivUnit

end PanTilt.Alu
