import PanTilt.Alu.Answer

/-!
`add_sub.v`: the sum or the difference of two words.

Every wire of the module is a definition. `sumOutcome` is what the circuit computes, on the fields
of the two words (`addSub_outcome`): the significands aligned to the larger exponent, added or
subtracted, and normalised. Both implied bits are taken from the exponent of the first word.
-/

namespace PanTilt.Alu

open Lib.Adder
open BitVec (ofBool)

namespace AddSub

/-! ### The wires -/

section Wires

variable (n1 n2 : BitVec 32) (sub : Bool)

def reducedAndE1 : Bool := reductionAnd8bit (n1.extractLsb' 23 8)
def reducedAndE2 : Bool := reductionAnd8bit (n2.extractLsb' 23 8)
def exception : Bool := reducedAndE1 n1 || reducedAndE2 n2
def reducedOrE1 : Bool := reductionOr8bit (n1.extractLsb' 23 8)
/-- Reduced from the exponent of `n1`, too. -/
def reducedOrE2 : Bool := reductionOr8bit (n1.extractLsb' 23 8)

def complementedE2 : BitVec 8 := complement8bit (n2.extractLsb' 23 8)
/-- `ADD01`: the sum is `temp_exp_diff`, the carry `isE1GreaterThanE2`. -/
def tempExpDiff : Sum 8 := adder8bit (n1.extractLsb' 23 8) (complementedE2 n2) true
def isE1GreaterThanE2 : Bool := (tempExpDiff n1 n2).cout
def complementedTempExpDiff : BitVec 8 := complement8bit2s (tempExpDiff n1 n2).sum
def expDiff : BitVec 8 :=
  mux8Bit (complementedTempExpDiff n1 n2) (tempExpDiff n1 n2).sum (isE1GreaterThanE2 n1 n2)
def E : BitVec 8 := mux8Bit (n2.extractLsb' 23 8) (n1.extractLsb' 23 8) (isE1GreaterThanE2 n1 n2)

def M1 : BitVec 24 :=
  if isE1GreaterThanE2 n1 n2 then ofBool (reducedOrE1 n1) ++ n1.extractLsb' 0 23
  else (ofBool (reducedOrE1 n1) ++ n1.extractLsb' 0 23) >>> expDiff n1 n2
def M2 : BitVec 24 :=
  if isE1GreaterThanE2 n1 n2 then (ofBool (reducedOrE2 n1) ++ n2.extractLsb' 0 23) >>> expDiff n1 n2
  else ofBool (reducedOrE2 n1) ++ n2.extractLsb' 0 23

def realOper : Bool := sub ^^ n1.getLsbD 31 ^^ n2.getLsbD 31
def realSign : Bool := n1.getLsbD 31
def newM2 : BitVec 24 := mux24Bit (M2 n1 n2) (complement24bit (M2 n1 n2)) (realOper n1 n2 sub)
/-- `ADD02`: the sum is `M_result`, the carry `M_carry`. -/
def MResult : Sum 24 := adder24bit (M1 n1 n2) (newM2 n1 n2 sub) (realOper n1 n2 sub)
def MCarry : Bool := (MResult n1 n2 sub).cout
def finalSign : Bool :=
  (!realSign n1 && realOper n1 n2 sub && !MCarry n1 n2 sub) ||
    (!realOper n1 n2 sub && realSign n1) || (MCarry n1 n2 sub && realSign n1)

def oneAddedE : BitVec 8 := (adder8bit (E n1 n2) 1 false).sum
def newE : BitVec 8 :=
  mux8Bit (E n1 n2) (oneAddedE n1 n2) (MCarry n1 n2 sub && !realOper n1 n2 sub)
def complementedMResult : BitVec 24 := complement24bit2s (MResult n1 n2 sub).sum
def MResult2 : BitVec 24 :=
  mux24Bit (MResult n1 n2 sub).sum (complementedMResult n1 n2 sub)
    (realOper n1 n2 sub && !MCarry n1 n2 sub)
def finalM : BitVec 23 :=
  (normalizeMandfindShift (MResult2 n1 n2 sub) (MCarry n1 n2 sub) (realOper n1 n2 sub)).1
def shiftE : BitVec 5 :=
  (normalizeMandfindShift (MResult2 n1 n2 sub) (MCarry n1 n2 sub) (realOper n1 n2 sub)).2
/-- `ADD03`: the nine bits of `final_E`. -/
def finalE : Sum 8 := adder8bit (newE n1 n2 sub) (complement8bit (0b000#3 ++ shiftE n1 n2 sub)) true

end Wires

end AddSub

open AddSub in
/-- The circuit. -/
def addSub (n1 n2 : BitVec 32) (sub : Bool) : Answer where
  result := ofBool (finalSign n1 n2 sub) ++ (finalE n1 n2 sub).sum ++ finalM n1 n2 sub
  overflow := oneAddedE n1 n2 == BitVec.allOnes 8 && shiftE n1 n2 sub == 0
  underflow := !(finalE n1 n2 sub).cout
  exception := exception n1 n2

/-! ### What the circuit computes -/

/-- The first significand on the larger exponent. -/
def alignedFst (a b : Fields) : ℕ :=
  if b.expo ≤ a.expo then a.implied + a.frac else (a.implied + a.frac) / 2 ^ (b.expo - a.expo)

/-- The second significand on the larger exponent, with the implied bit of the first word. -/
def alignedSnd (a b : Fields) : ℕ :=
  if b.expo ≤ a.expo then (a.implied + b.frac) / 2 ^ (a.expo - b.expo) else a.implied + b.frac

/-- A normalised significand `r` under the exponent `e`. -/
def normalised (s : Bool) (e r : ℕ) (exc : Bool) : Outcome where
  sign := s
  expo := (e + 256 - normShift r) % 256
  frac := normFrac r
  overflow := e == 254 && normShift r == 0
  underflow := decide (e < normShift r)
  exception := exc

/-- A sum `t` of 25 bits under the exponent `e`: half of it, rounded up. -/
def carried (s : Bool) (e t : ℕ) (exc : Bool) : Outcome where
  sign := s
  expo := (e + 1) % 256
  frac := ((t - 2 ^ 24) / 2 + t % 2) % 2 ^ 23
  overflow := e == 254
  underflow := false
  exception := exc

/-- The sum, or with `sub` the difference, of two words. -/
def sumOutcome (sub : Bool) (a b : Fields) : Outcome :=
  if sub ^^ a.sign ^^ b.sign then
    if alignedSnd a b ≤ alignedFst a b then
      normalised a.sign (max a.expo b.expo) (alignedFst a b - alignedSnd a b) (exceptional a b)
    else
      normalised (!a.sign) (max a.expo b.expo) (alignedSnd a b - alignedFst a b) (exceptional a b)
  else if alignedFst a b + alignedSnd a b < 2 ^ 24 then
    normalised a.sign (max a.expo b.expo) (alignedFst a b + alignedSnd a b) (exceptional a b)
  else carried a.sign (max a.expo b.expo) (alignedFst a b + alignedSnd a b) (exceptional a b)

namespace AddSub

variable (n1 n2 : BitVec 32) (sub : Bool)

lemma isE1GreaterThanE2_eq :
    isE1GreaterThanE2 n1 n2 = decide ((fields n2).expo ≤ (fields n1).expo) :=
  isAdder_adder8bit.sub_cout _ _

lemma toNat_tempExpDiff : (tempExpDiff n1 n2).sum.toNat =
    ((fields n1).expo + (256 - (fields n2).expo)) % 256 := isAdder_adder8bit.sub_sum _ _

lemma toNat_expDiff : (expDiff n1 n2).toNat = if (fields n2).expo ≤ (fields n1).expo then
    (fields n1).expo - (fields n2).expo else (fields n2).expo - (fields n1).expo := by
  have h1 := expo_lt n1
  have h2 := expo_lt n2
  rw [expDiff, mux8Bit_eq, isE1GreaterThanE2_eq]
  by_cases h : (fields n2).expo ≤ (fields n1).expo
  · rw [decide_eq_true h, if_pos rfl, if_pos h, toNat_tempExpDiff]
    omega
  · rw [decide_eq_false h, if_neg Bool.false_ne_true, if_neg h, complementedTempExpDiff,
      toNat_complement8bit2s, toNat_tempExpDiff]
    omega

lemma toNat_E : (E n1 n2).toNat = max (fields n1).expo (fields n2).expo := by
  rw [E, mux8Bit_eq, isE1GreaterThanE2_eq]
  by_cases h : (fields n2).expo ≤ (fields n1).expo
  · rw [decide_eq_true h, if_pos rfl, Nat.max_eq_left h]
    rfl
  · rw [decide_eq_false h, if_neg Bool.false_ne_true, Nat.max_eq_right (by omega)]
    rfl

lemma toNat_M1 : (M1 n1 n2).toNat = alignedFst (fields n1) (fields n2) := by
  rw [M1, alignedFst, isE1GreaterThanE2_eq]
  by_cases h : (fields n2).expo ≤ (fields n1).expo
  · rw [decide_eq_true h, if_pos rfl, if_pos h, reducedOrE1, implied_append]
    rfl
  · rw [decide_eq_false h, if_neg Bool.false_ne_true, if_neg h, BitVec.ushiftRight_eq',
      BitVec.toNat_ushiftRight, Nat.shiftRight_eq_div_pow, reducedOrE1, implied_append,
      toNat_expDiff, if_neg h]
    rfl

lemma toNat_M2 : (M2 n1 n2).toNat = alignedSnd (fields n1) (fields n2) := by
  have himplied : (ofBool (reducedOrE2 n1) ++ n2.extractLsb' 0 23).toNat =
      (fields n1).implied + (fields n2).frac := implied_append n1 _
  rw [M2, alignedSnd, isE1GreaterThanE2_eq]
  by_cases h : (fields n2).expo ≤ (fields n1).expo
  · rw [decide_eq_true h, if_pos rfl, if_pos h, BitVec.ushiftRight_eq',
      BitVec.toNat_ushiftRight, Nat.shiftRight_eq_div_pow, himplied, toNat_expDiff, if_pos h]
  · rw [decide_eq_false h, if_neg Bool.false_ne_true, if_neg h, himplied]

/-! ### The difference and the sum -/

lemma realOper_eq : realOper n1 n2 sub = (sub ^^ (fields n1).sign ^^ (fields n2).sign) := rfl

lemma exception_eq : exception n1 n2 = exceptional (fields n1) (fields n2) :=
  exceptional_eq n1 n2

section Difference

variable {n1 n2 sub} (h : realOper n1 n2 sub = true)

include h

lemma MResult_of_true :
    MResult n1 n2 sub = adder24bit (M1 n1 n2) (~~~M2 n1 n2) true := by
  rw [MResult, newM2, h, mux24Bit_eq, if_pos rfl, complement24bit_eq]

lemma MCarry_of_true :
    MCarry n1 n2 sub = decide (alignedSnd (fields n1) (fields n2) ≤
      alignedFst (fields n1) (fields n2)) := by
  rw [MCarry, MResult_of_true h, isAdder_adder24bit.sub_cout, toNat_M1, toNat_M2]

lemma toNat_MResult2_of_true : (MResult2 n1 n2 sub).toNat =
    if alignedSnd (fields n1) (fields n2) ≤ alignedFst (fields n1) (fields n2) then
      alignedFst (fields n1) (fields n2) - alignedSnd (fields n1) (fields n2)
    else alignedSnd (fields n1) (fields n2) - alignedFst (fields n1) (fields n2) := by
  have h1 := (M1 n1 n2).isLt
  have h2 := (M2 n1 n2).isLt
  have hsum : (MResult n1 n2 sub).sum.toNat = (alignedFst (fields n1) (fields n2) +
      (2 ^ 24 - alignedSnd (fields n1) (fields n2))) % 2 ^ 24 := by
    rw [MResult_of_true h, isAdder_adder24bit.sub_sum, toNat_M1, toNat_M2]
  rw [toNat_M1] at h1
  rw [toNat_M2] at h2
  rw [MResult2, mux24Bit_eq, h, MCarry_of_true h, Bool.true_and]
  by_cases hle : alignedSnd (fields n1) (fields n2) ≤ alignedFst (fields n1) (fields n2)
  · rw [decide_eq_true hle, Bool.not_true, if_neg Bool.false_ne_true, if_pos hle, hsum]
    omega
  · rw [decide_eq_false hle, Bool.not_false, if_pos rfl, if_neg hle, complementedMResult,
      toNat_complement24bit2s, hsum]
    omega

end Difference

section Sum

variable {n1 n2 sub} (h : realOper n1 n2 sub = false)

include h

lemma MResult_of_false :
    MResult n1 n2 sub = adder24bit (M1 n1 n2) (M2 n1 n2) false := by
  rw [MResult, newM2, h, mux24Bit_eq, if_neg Bool.false_ne_true]

lemma MCarry_of_false : MCarry n1 n2 sub = decide (2 ^ 24 ≤
    alignedFst (fields n1) (fields n2) + alignedSnd (fields n1) (fields n2)) := by
  rw [MCarry, MResult_of_false h, isAdder_adder24bit.cout, toNat_M1, toNat_M2, Bool.toNat_false,
    Nat.add_zero]

lemma toNat_MResult2_of_false : (MResult2 n1 n2 sub).toNat =
    (alignedFst (fields n1) (fields n2) + alignedSnd (fields n1) (fields n2)) % 2 ^ 24 := by
  rw [MResult2, mux24Bit_eq, h, Bool.false_and, if_neg Bool.false_ne_true, MResult_of_false h,
    isAdder_adder24bit.sum, toNat_M1, toNat_M2, Bool.toNat_false, Nat.add_zero]

end Sum

/-! ### The exponent -/

lemma toNat_oneAddedE :
    (oneAddedE n1 n2).toNat = (max (fields n1).expo (fields n2).expo + 1) % 256 := by
  rw [oneAddedE, isAdder_adder8bit.sum, toNat_E]
  rfl

lemma oneAddedE_eq : (oneAddedE n1 n2 == BitVec.allOnes 8) =
    (max (fields n1).expo (fields n2).expo == 254) := by
  have h1 := expo_lt n1
  have h2 := expo_lt n2
  rw [Bool.eq_iff_iff, beq_iff_eq, beq_iff_eq, ← BitVec.toNat_inj, toNat_oneAddedE]
  show _ = 255 ↔ _
  omega

lemma finalE_sum : (finalE n1 n2 sub).sum.toNat =
    ((newE n1 n2 sub).toNat + (256 - (shiftE n1 n2 sub).toNat)) % 256 := by
  rw [finalE, complement8bit, isAdder_adder8bit.sub_sum, toNat_zero_append]
  rfl

lemma finalE_cout : (finalE n1 n2 sub).cout =
    decide ((shiftE n1 n2 sub).toNat ≤ (newE n1 n2 sub).toNat) := by
  rw [finalE, complement8bit, isAdder_adder8bit.sub_cout, toNat_zero_append]

lemma shiftE_eq_zero : (shiftE n1 n2 sub == 0) = ((shiftE n1 n2 sub).toNat == 0) := by
  rw [Bool.eq_iff_iff, beq_iff_eq, beq_iff_eq, ← BitVec.toNat_inj]
  rfl

lemma outcome_normalised {s : Bool} {r : ℕ} (hc : (MCarry n1 n2 sub && !realOper n1 n2 sub) = false)
    (hs : finalSign n1 n2 sub = s) (hr : (MResult2 n1 n2 sub).toNat = r) :
    (addSub n1 n2 sub).outcome = normalised s (max (fields n1).expo (fields n2).expo) r
      (exceptional (fields n1) (fields n2)) := by
  obtain ⟨hfrac, hshift⟩ := normalize_eq (MResult2 n1 n2 sub) hc
  have hle := normShift_le r
  have hnewE : (newE n1 n2 sub).toNat = max (fields n1).expo (fields n2).expo := by
    rw [newE, hc, mux8Bit_eq, if_neg Bool.false_ne_true, toNat_E]
  have hshift' : (shiftE n1 n2 sub).toNat = normShift r := by rw [shiftE, hshift, hr]
  unfold Answer.outcome addSub normalised
  simp only [fields_append, finalE_sum, finalE_cout, oneAddedE_eq, shiftE_eq_zero, hshift', hnewE,
    hs, exception_eq]
  congr 1
  · omega
  · rw [finalM, hfrac, hr]
  · rw [← decide_not, decide_eq_decide]
    omega

lemma outcome_carried (hop : realOper n1 n2 sub = false) (hc : 2 ^ 24 ≤
    alignedFst (fields n1) (fields n2) + alignedSnd (fields n1) (fields n2)) :
    (addSub n1 n2 sub).outcome = carried (fields n1).sign (max (fields n1).expo (fields n2).expo)
      (alignedFst (fields n1) (fields n2) + alignedSnd (fields n1) (fields n2))
      (exceptional (fields n1) (fields n2)) := by
  have h1 := (M1 n1 n2).isLt
  have h2 := (M2 n1 n2).isLt
  rw [toNat_M1] at h1
  rw [toNat_M2] at h2
  have hcarry : MCarry n1 n2 sub = true := by rw [MCarry_of_false hop, decide_eq_true hc]
  have hhalf : normalizeMandfindShift (MResult2 n1 n2 sub) (MCarry n1 n2 sub)
      (realOper n1 n2 sub) = ((MResult2 n1 n2 sub).extractLsb' 1 23 +
        (0#22 ++ (MResult2 n1 n2 sub).extractLsb' 0 1), 0) := by
    rw [hop, hcarry]
    rfl
  have hfrac : (finalM n1 n2 sub).toNat =
      ((MResult2 n1 n2 sub).toNat / 2 + (MResult2 n1 n2 sub).toNat % 2) % 2 ^ 23 := by
    have hlt := (MResult2 n1 n2 sub).isLt
    rw [finalM, hhalf]
    simp only [BitVec.toNat_add, toNat_append_eq, BitVec.extractLsb'_toNat,
      Nat.shiftRight_eq_div_pow, BitVec.toNat_ofNat]
    omega
  have hnewE : (newE n1 n2 sub).toNat = (max (fields n1).expo (fields n2).expo + 1) % 256 := by
    rw [newE, hcarry, hop, mux8Bit_eq, Bool.not_false, Bool.and_self, if_pos rfl, toNat_oneAddedE]
  have hshift : (shiftE n1 n2 sub).toNat = 0 := by rw [shiftE, hhalf]; rfl
  have hs : finalSign n1 n2 sub = (fields n1).sign := by
    rw [finalSign, hop, hcarry]
    show _ = realSign n1
    cases realSign n1 <;> rfl
  unfold Answer.outcome addSub carried
  simp only [fields_append, finalE_sum, finalE_cout, oneAddedE_eq, shiftE_eq_zero, hshift, hnewE,
    hs, exception_eq, hfrac, toNat_MResult2_of_false hop, Outcome.mk.injEq]
  refine ⟨trivial, by omega, by omega, ?_, ?_, trivial⟩
  · simp
  · simp

theorem addSub_outcome :
    (addSub n1 n2 sub).outcome = sumOutcome sub (fields n1) (fields n2) := by
  unfold sumOutcome
  rw [← realOper_eq]
  by_cases hop : realOper n1 n2 sub
  · rw [if_pos hop]
    have hcarry := MCarry_of_true hop
    have hr := toNat_MResult2_of_true hop
    have hc : (MCarry n1 n2 sub && !realOper n1 n2 sub) = false := by
      rw [hop, Bool.not_true, Bool.and_false]
    by_cases hle : alignedSnd (fields n1) (fields n2) ≤ alignedFst (fields n1) (fields n2)
    · rw [decide_eq_true hle] at hcarry
      rw [if_pos hle] at hr ⊢
      refine outcome_normalised n1 n2 sub hc ?_ hr
      rw [finalSign, hop, hcarry]
      show _ = realSign n1
      cases realSign n1 <;> rfl
    · rw [decide_eq_false hle] at hcarry
      rw [if_neg hle] at hr ⊢
      refine outcome_normalised n1 n2 sub hc ?_ hr
      rw [finalSign, hop, hcarry]
      show _ = !realSign n1
      cases realSign n1 <;> rfl
  · have hop' := Bool.eq_false_of_not_eq_true hop
    rw [if_neg hop]
    by_cases hlt : alignedFst (fields n1) (fields n2) + alignedSnd (fields n1) (fields n2) < 2 ^ 24
    · have hcarry : MCarry n1 n2 sub = false := by
        rw [MCarry_of_false hop', decide_eq_false (by omega)]
      rw [if_pos hlt]
      refine outcome_normalised n1 n2 sub (by rw [hcarry, Bool.false_and]) ?_ ?_
      · rw [finalSign, hop', hcarry]
        show _ = realSign n1
        cases realSign n1 <;> rfl
      · rw [toNat_MResult2_of_false hop', Nat.mod_eq_of_lt hlt]
    · rw [if_neg hlt]
      exact outcome_carried n1 n2 sub hop' (by omega)

end AddSub

end PanTilt.Alu
