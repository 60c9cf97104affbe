import PanTilt.Alu.AddSub
import PanTilt.Alu.Mul
import PanTilt.Alu.Div

/-!
`Main.v`: the arithmetic unit, which picks the answer of one circuit by the two bits of `oper` and
lets the flags overrule its word.

`mainOutcome` is the operation on the fields, and `fields_main` says that the unit computes it.
-/

namespace PanTilt.Alu

open BitVec (ofBool)

/-- The unit, with `x` for the bit that `div` reads and does not have. -/
def main (x : Bool) (n1 n2 : BitVec 32) (oper : BitVec 2) : Answer :=
  let as := addSub n1 n2 (oper.getLsbD 1 || oper.getLsbD 0)
  let m := mul n1 n2
  let d := div x n1 n2
  let tempResult := mux32Bit as.result m.result (oper.getLsbD 1)
  let result4 := mux32Bit tempResult d.result (oper.getLsbD 1 && oper.getLsbD 0)
  let temp1 := mux1Bit as.overflow m.overflow (oper.getLsbD 1)
  let overflow := mux1Bit temp1 d.overflow (oper.getLsbD 1 && oper.getLsbD 0)
  let temp2 := mux1Bit as.underflow m.underflow (oper.getLsbD 1)
  let underflow := mux1Bit temp2 d.underflow (oper.getLsbD 1 && oper.getLsbD 0)
  let temp3 := mux1Bit as.exception m.exception (oper.getLsbD 1)
  let exception := mux1Bit temp3 d.exception (oper.getLsbD 1 && oper.getLsbD 0)
  let result5 := mux32Bit result4 0b11111111111111111111111111111111 exception
  let result6 := mux32Bit result5 (ofBool (result4.getLsbD 31) ++ 0#31) underflow
  let result := mux32Bit result6
    (ofBool (result4.getLsbD 31) ++ 0b1111111100000000000000000000000#31) overflow
  ⟨result, overflow, underflow, exception⟩

/-- The operation on the fields of two words. -/
def mainOutcome (x : Bool) (oper : BitVec 2) (a b : Fields) : Outcome :=
  if oper.getLsbD 1 then if oper.getLsbD 0 then quotientOutcome x a b else productOutcome a b
  else sumOutcome (oper.getLsbD 0) a b

/-- The answer the unit picks. -/
def picked (x : Bool) (n1 n2 : BitVec 32) (oper : BitVec 2) : Answer :=
  if oper.getLsbD 1 then if oper.getLsbD 0 then div x n1 n2 else mul n1 n2
  else addSub n1 n2 (oper.getLsbD 0)

lemma picked_outcome (x : Bool) (n1 n2 : BitVec 32) (oper : BitVec 2) :
    (picked x n1 n2 oper).outcome = mainOutcome x oper (fields n1) (fields n2) := by
  unfold picked mainOutcome
  split
  · split
    · exact DivUnit.div_outcome x n1 n2
    · exact MulUnit.mul_outcome n1 n2
  · exact AddSub.addSub_outcome n1 n2 (oper.getLsbD 0)

lemma main_result (x : Bool) (n1 n2 : BitVec 32) (oper : BitVec 2) :
    (main x n1 n2 oper).result = (picked x n1 n2 oper).flagged := by
  have hinf : ∀ s : Bool, ofBool s ++ 0b1111111100000000000000000000000#31 =
      ofBool s ++ 0b11111111#8 ++ 0#23 := by decide
  have hzero : ∀ s : Bool, ofBool s ++ 0#31 = ofBool s ++ 0#8 ++ 0#23 := by decide
  unfold main picked Answer.flagged
  rw [← hinf, ← hzero]
  cases oper.getLsbD 1 <;> cases oper.getLsbD 0 <;> simp

/-- **The unit computes the operation.** -/
theorem fields_main (x : Bool) (n1 n2 : BitVec 32) (oper : BitVec 2) :
    fields (main x n1 n2 oper).result = (mainOutcome x oper (fields n1) (fields n2)).fields := by
  rw [main_result, fields_flagged, picked_outcome]

theorem flags_main (x : Bool) (n1 n2 : BitVec 32) (oper : BitVec 2) :
    (main x n1 n2 oper).overflow = (mainOutcome x oper (fields n1) (fields n2)).overflow ∧
      (main x n1 n2 oper).underflow = (mainOutcome x oper (fields n1) (fields n2)).underflow ∧
      (main x n1 n2 oper).exception = (mainOutcome x oper (fields n1) (fields n2)).exception := by
  have hpicked : (main x n1 n2 oper).overflow = (picked x n1 n2 oper).overflow ∧
      (main x n1 n2 oper).underflow = (picked x n1 n2 oper).underflow ∧
      (main x n1 n2 oper).exception = (picked x n1 n2 oper).exception := by
    unfold main picked
    cases oper.getLsbD 1 <;> cases oper.getLsbD 0 <;> simp
  rw [← picked_outcome]
  exact hpicked

end PanTilt.Alu
