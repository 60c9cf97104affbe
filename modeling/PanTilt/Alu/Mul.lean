import PanTilt.Alu.Answer

/-!
`mul.v`: the product of two words.

Every wire of the module is a definition, and `productOutcome` is what the circuit computes, on the
fields of the two words (`mul_outcome`). Both implied bits are taken from the exponent of the first
word.
-/

namespace PanTilt.Alu

open Lib.Adder
open BitVec (ofBool)

/-- `Multiplier24bit`. -/
def multiplier24bit (a b : BitVec 24) : BitVec 48 := a.setWidth 48 * b.setWidth 48

namespace MulUnit

/-! ### The wires -/

section Wires

variable (n1 n2 : BitVec 32)

def exception : Bool :=
  reductionAnd8bit (n1.extractLsb' 23 8) || reductionAnd8bit (n2.extractLsb' 23 8)
def finalSign : Bool := n1.getLsbD 31 ^^ n2.getLsbD 31
def reducedOrE1 : Bool := reductionOr8bit (n1.extractLsb' 23 8)
/-- Reduced from the exponent of `n1`, too. -/
def reducedOrE2 : Bool := reductionOr8bit (n1.extractLsb' 23 8)

def MMulResult : BitVec 48 :=
  multiplier24bit (ofBool (reducedOrE1 n1) ++ n1.extractLsb' 0 23)
    (ofBool (reducedOrE2 n1) ++ n2.extractLsb' 0 23)
def mulRound1 : Bool := reductionOr24bit (0b0#1 ++ (MMulResult n1 n2).extractLsb' 0 23)
def mulRound2 : Bool := reductionOr24bit ((MMulResult n1 n2).extractLsb' 0 24)
def finalProductRound : Bool :=
  mux1Bit (mulRound1 n1 n2) (mulRound2 n1 n2) (MMulResult n1 n2)[47]
def normalizedMMulResult : BitVec 24 :=
  mux24Bit (0b0#1 ++ (MMulResult n1 n2).extractLsb' 23 23)
    (0b0#1 ++ (MMulResult n1 n2).extractLsb' 24 23) (MMulResult n1 n2)[47]
/-- `ADD23`: `temp` and `final_M`. -/
def tempFinalM : BitVec 24 :=
  (adder24bit (0b0#1 ++ (normalizedMMulResult n1 n2).extractLsb' 0 23)
    (0#23 ++ ofBool (finalProductRound n1 n2)) false).sum
def finalM : BitVec 23 := (tempFinalM n1 n2).extractLsb' 0 23

/-- `ADD01`: the nine bits of `sum_E`. -/
def sumE : Sum 8 := adder8bit (n1.extractLsb' 23 8) (n2.extractLsb' 23 8) false
/-- `ADD02`: the sum is `final_E`, the carry `carry_E`. -/
def finalE : Sum 9 :=
  adder9bit (ofBool (sumE n1 n2).cout ++ (sumE n1 n2).sum) 0b110000001 (MMulResult n1 n2)[47]

end Wires

end MulUnit

open MulUnit in
/-- The circuit. -/
def mul (n1 n2 : BitVec 32) : Answer where
  result := ofBool (finalSign n1 n2) ++ (finalE n1 n2).sum.extractLsb' 0 8 ++ finalM n1 n2
  overflow := (finalE n1 n2).cout && (finalE n1 n2).sum[8]
  underflow := !(finalE n1 n2).cout
  exception := exception n1 n2

/-! ### What the circuit computes -/

/-- The product of the significands, with the implied bit of the first word. -/
def product (a b : Fields) : ℕ := (a.implied + a.frac) * (a.implied + b.frac)

/-- The top bit of the product. -/
def productTop (a b : Fields) : ℕ := if 2 ^ 47 ≤ product a b then 1 else 0

lemma productTop_le (a b : Fields) : productTop a b ≤ 1 := by
  unfold productTop
  split <;> omega

/-- The 23 bits of `p` from bit `k` on, and one more if a bit below is set. -/
def roundedUp (p k : ℕ) : ℕ := (p / 2 ^ k + if p % 2 ^ k = 0 then 0 else 1) % 2 ^ 23

/-- The product of two words. -/
def productOutcome (a b : Fields) : Outcome where
  sign := a.sign ^^ b.sign
  expo := (a.expo + b.expo + productTop a b + 129) % 256
  frac := roundedUp (product a b) (23 + productTop a b)
  overflow := decide (383 ≤ a.expo + b.expo + productTop a b)
  underflow := decide (a.expo + b.expo + productTop a b < 127)
  exception := exceptional a b

namespace MulUnit

variable (n1 n2 : BitVec 32)

lemma toNat_MMulResult : (MMulResult n1 n2).toNat = product (fields n1) (fields n2) := by
  have h1 := (ofBool (reducedOrE1 n1) ++ n1.extractLsb' 0 23).isLt
  have h2 := (ofBool (reducedOrE2 n1) ++ n2.extractLsb' 0 23).isLt
  have hlt : (ofBool (reducedOrE1 n1) ++ n1.extractLsb' 0 23).toNat *
      (ofBool (reducedOrE2 n1) ++ n2.extractLsb' 0 23).toNat < 2 ^ 24 * 2 ^ 24 :=
    Nat.mul_lt_mul'' h1 h2
  rw [MMulResult, multiplier24bit, BitVec.toNat_mul, BitVec.toNat_setWidth_of_le (by omega),
    BitVec.toNat_setWidth_of_le (by omega), Nat.mod_eq_of_lt (by omega), reducedOrE1, reducedOrE2,
    implied_append, implied_append]
  rfl

lemma MMulResult_top :
    (MMulResult n1 n2)[47] = decide (productTop (fields n1) (fields n2) = 1) := by
  have hlt := (MMulResult n1 n2).isLt
  rw [← BitVec.getLsbD_eq_getElem, ← BitVec.testBit_toNat, Nat.testBit_eq_decide_div_mod_eq,
    productTop, decide_eq_decide]
  rw [toNat_MMulResult] at hlt ⊢
  split <;> omega

lemma finalProductRound_eq : finalProductRound n1 n2 = decide
    (product (fields n1) (fields n2) % 2 ^ (23 + productTop (fields n1) (fields n2)) ≠ 0) := by
  rw [finalProductRound, mux1Bit_eq, MMulResult_top, mulRound1, mulRound2, reductionOr24bit_eq,
    reductionOr24bit_eq, toNat_append_eq, BitVec.extractLsb'_toNat, BitVec.extractLsb'_toNat,
    toNat_MMulResult, Nat.shiftRight_zero]
  unfold productTop
  split
  · rfl
  · simp

lemma toNat_normalizedMMulResult : (normalizedMMulResult n1 n2).toNat =
    product (fields n1) (fields n2) / 2 ^ (23 + productTop (fields n1) (fields n2)) % 2 ^ 23 := by
  rw [normalizedMMulResult, mux24Bit_eq, MMulResult_top]
  unfold productTop
  split
  · rw [decide_eq_true rfl, if_pos rfl, toNat_zero_append, BitVec.extractLsb'_toNat,
      toNat_MMulResult, Nat.shiftRight_eq_div_pow]
  · rw [decide_eq_false (by omega), if_neg Bool.false_ne_true, toNat_zero_append,
      BitVec.extractLsb'_toNat, toNat_MMulResult, Nat.shiftRight_eq_div_pow]

lemma toNat_finalM : (finalM n1 n2).toNat = roundedUp (product (fields n1) (fields n2))
    (23 + productTop (fields n1) (fields n2)) := by
  have hround : (0#23 ++ ofBool (finalProductRound n1 n2)).toNat =
      if product (fields n1) (fields n2) % 2 ^ (23 + productTop (fields n1) (fields n2)) = 0 then 0
      else 1 := by
    rw [toNat_append_eq, finalProductRound_eq]
    split
    case isTrue h => simp [h]
    case isFalse h => simp [h]
  rw [finalM, tempFinalM, BitVec.extractLsb'_toNat, isAdder_adder24bit.sum, hround,
    toNat_append_eq, BitVec.extractLsb'_toNat, toNat_normalizedMMulResult, roundedUp]
  simp only [Nat.shiftRight_zero, Bool.toNat_false, BitVec.toNat_ofNat]
  split <;> omega

lemma finalE_value : (finalE n1 n2).value = (fields n1).expo + (fields n2).expo +
    productTop (fields n1) (fields n2) + 385 := by
  have hsum := isAdder_adder8bit (n1.extractLsb' 23 8) (n2.extractLsb' 23 8) false
  have htop : (decide (productTop (fields n1) (fields n2) = 1)).toNat =
      productTop (fields n1) (fields n2) := by
    unfold productTop
    split <;> rfl
  have hsumE : (ofBool (sumE n1 n2).cout ++ (sumE n1 n2).sum).toNat = (sumE n1 n2).value := by
    rw [toNat_append_eq, BitVec.toNat_ofBool]
    rfl
  rw [finalE, isAdder_adder9bit, hsumE, sumE, hsum, MMulResult_top, htop]
  show (fields n1).expo + (fields n2).expo + 0 + 385 + _ = _
  omega

theorem mul_outcome : (mul n1 n2).outcome = productOutcome (fields n1) (fields n2) := by
  have h1 := expo_lt n1
  have h2 := expo_lt n2
  have hE := finalE_value n1 n2
  have hlt := (finalE n1 n2).sum.isLt
  have htop := productTop_le (fields n1) (fields n2)
  have hbit : (finalE n1 n2).sum[8] = decide (256 ≤ (finalE n1 n2).sum.toNat) := by
    rw [← BitVec.getLsbD_eq_getElem, ← BitVec.testBit_toNat, Nat.testBit_eq_decide_div_mod_eq,
      decide_eq_decide]
    omega
  unfold Answer.outcome mul productOutcome
  simp only [fields_append, toNat_finalM, Outcome.mk.injEq, BitVec.extractLsb'_toNat,
    Nat.shiftRight_zero, hbit]
  unfold Sum.value at hE
  refine ⟨rfl, ?_, trivial, ?_, ?_, exceptional_eq n1 n2⟩
  · cases hc : (finalE n1 n2).cout
    · rw [hc, Bool.toNat_false] at hE
      omega
    · rw [hc, Bool.toNat_true] at hE
      omega
  · cases hc : (finalE n1 n2).cout
    · rw [hc, Bool.toNat_false] at hE
      rw [Bool.false_and, decide_eq_false (by omega)]
    · rw [hc, Bool.toNat_true] at hE
      rw [Bool.true_and, decide_eq_decide]
      omega
  · cases hc : (finalE n1 n2).cout
    · rw [hc, Bool.toNat_false] at hE
      rw [Bool.not_false, decide_eq_true (by omega)]
    · rw [hc, Bool.toNat_true] at hE
      rw [Bool.not_true, decide_eq_false (by omega)]

end MulUnit

end PanTilt.Alu
