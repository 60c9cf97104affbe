import PanTilt.Alu.Normalize

/-!
The words of the unit and what a circuit answers.

A word has a sign, an exponent and a fraction (`Fields`). A circuit answers with a word and three
flags, and `Main` lets the flags overrule the word: `Answer.flagged` is that word, and
`Outcome.fields` the same on the fields.
-/

namespace PanTilt.Alu

open Lib.Adder
open BitVec (ofBool)

/-! ### Words -/

/-- The fields of a word: `n[31]`, `n[30:23]` and `n[22:0]`. -/
@[ext] structure Fields where
  sign : Bool
  expo : ℕ
  frac : ℕ
  deriving DecidableEq

def fields (n : BitVec 32) : Fields where
  sign := n.getLsbD 31
  expo := (n.extractLsb' 23 8).toNat
  frac := (n.extractLsb' 0 23).toNat

lemma expo_lt (n : BitVec 32) : (fields n).expo < 256 := (n.extractLsb' 23 8).isLt

lemma frac_lt (n : BitVec 32) : (fields n).frac < 2 ^ 23 := (n.extractLsb' 0 23).isLt

lemma toNat_eq_fields (n : BitVec 32) :
    n.toNat = (fields n).sign.toNat * 2 ^ 31 + (fields n).expo * 2 ^ 23 + (fields n).frac := by
  have hlt := n.isLt
  have hsign : (fields n).sign = decide (n.toNat / 2 ^ 31 % 2 = 1) := by
    show n.getLsbD 31 = _
    rw [← BitVec.testBit_toNat, Nat.testBit_eq_decide_div_mod_eq]
  have hexpo : (fields n).expo = n.toNat / 2 ^ 23 % 2 ^ 8 := by
    show (n.extractLsb' 23 8).toNat = _
    rw [BitVec.extractLsb'_toNat, Nat.shiftRight_eq_div_pow]
  have hfrac : (fields n).frac = n.toNat % 2 ^ 23 := by
    show (n.extractLsb' 0 23).toNat = _
    rw [BitVec.extractLsb'_toNat, Nat.shiftRight_zero]
  rw [hsign, hexpo, hfrac]
  by_cases h : n.toNat / 2 ^ 31 % 2 = 1
  · rw [decide_eq_true h, Bool.toNat_true]
    omega
  · rw [decide_eq_false h, Bool.toNat_false]
    omega

/-- The fields of some word. -/
structure Fields.Valid (a : Fields) : Prop where
  expo : a.expo < 256
  frac : a.frac < 2 ^ 23

lemma valid_fields (n : BitVec 32) : (fields n).Valid := ⟨expo_lt n, frac_lt n⟩

theorem fields_inj {n n' : BitVec 32} : fields n = fields n' ↔ n = n' := by
  constructor
  · intro h
    apply BitVec.eq_of_toNat_eq
    rw [toNat_eq_fields, h, ← toNat_eq_fields]
  · rintro rfl
    rfl

lemma fields_append (s : Bool) (E : BitVec 8) (M : BitVec 23) :
    fields (ofBool s ++ E ++ M) = ⟨s, E.toNat, M.toNat⟩ := by
  have hsign : (ofBool s ++ E ++ M).getLsbD 31 = s := by
    rw [BitVec.getLsbD_append, if_neg (by omega),
      BitVec.getLsbD_append, if_neg (by omega), BitVec.getLsbD_ofBool]
    simp
  have hexpo : (ofBool s ++ E ++ M).extractLsb' 23 8 = E := by
    apply BitVec.eq_of_getLsbD_eq
    intro i hi
    rw [BitVec.getLsbD_extractLsb', BitVec.getLsbD_append, if_neg (by omega),
      BitVec.getLsbD_append, if_pos (by omega), Nat.add_sub_cancel_left]
    simp [hi]
  have hfrac : (ofBool s ++ E ++ M).extractLsb' 0 23 = M := BitVec.extractLsb'_append_eq_right
  unfold fields
  rw [hsign, hexpo, hfrac]

/-- The implied bit of a word: denormalised words have none. -/
def Fields.implied (a : Fields) : ℕ := if a.expo = 0 then 0 else 2 ^ 23

lemma implied_append (n : BitVec 32) (M : BitVec 23) :
    (ofBool (reductionOr8bit (n.extractLsb' 23 8)) ++ M).toNat =
      (fields n).implied + M.toNat := by
  rw [toNat_append_eq, reductionOr8bit_eq]
  show (ofBool (decide ((fields n).expo ≠ 0))).toNat * 2 ^ 23 + _ = _
  unfold Fields.implied
  by_cases h : (fields n).expo = 0
  · simp [h]
  · simp [h]

/-- One of two words has an exponent with all bits set: it is infinite or no number. -/
def exceptional (a b : Fields) : Bool := a.expo == 255 || b.expo == 255

lemma exceptional_eq (n1 n2 : BitVec 32) :
    (reductionAnd8bit (n1.extractLsb' 23 8) || reductionAnd8bit (n2.extractLsb' 23 8)) =
      exceptional (fields n1) (fields n2) := by
  rw [reductionAnd8bit_eq, reductionAnd8bit_eq]
  rfl

lemma max_of_exceptional {a b : Fields} (ha : a.Valid) (hb : b.Valid)
    (h : exceptional a b = true) : max a.expo b.expo = 255 := by
  have h₁ := ha.expo
  have h₂ := hb.expo
  unfold exceptional at h
  rw [Bool.or_eq_true, beq_iff_eq, beq_iff_eq] at h
  omega

/-! ### Answers -/

/-- What a circuit puts out. -/
structure Answer where
  result : BitVec 32
  overflow : Bool
  underflow : Bool
  exception : Bool
  deriving DecidableEq

/-- The word under its flags: overflow counts most, exception least. -/
def Answer.flagged (A : Answer) : BitVec 32 :=
  if A.overflow then ofBool (A.result.getLsbD 31) ++ 0b11111111#8 ++ 0#23
  else if A.underflow then ofBool (A.result.getLsbD 31) ++ 0#8 ++ 0#23
  else if A.exception then BitVec.allOnes 32
  else A.result

/-- An answer by its fields. -/
structure Outcome where
  sign : Bool
  expo : ℕ
  frac : ℕ
  overflow : Bool
  underflow : Bool
  exception : Bool
  deriving DecidableEq

def Answer.outcome (A : Answer) : Outcome where
  sign := (fields A.result).sign
  expo := (fields A.result).expo
  frac := (fields A.result).frac
  overflow := A.overflow
  underflow := A.underflow
  exception := A.exception

/-- The fields under the flags. -/
def Outcome.fields (o : Outcome) : Fields :=
  if o.overflow then ⟨o.sign, 255, 0⟩
  else if o.underflow then ⟨o.sign, 0, 0⟩
  else if o.exception then ⟨true, 255, 2 ^ 23 - 1⟩
  else ⟨o.sign, o.expo, o.frac⟩

theorem fields_flagged (A : Answer) : fields A.flagged = A.outcome.fields := by
  obtain ⟨n, overflow, underflow, exception⟩ := A
  cases overflow with
  | true => exact fields_append _ _ _
  | false =>
    cases underflow with
    | true => exact fields_append _ _ _
    | false =>
      cases exception with
      | true => exact show fields (BitVec.allOnes 32) = ⟨true, 255, 2 ^ 23 - 1⟩ by decide
      | false => rfl

end PanTilt.Alu
