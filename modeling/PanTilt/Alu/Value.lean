import Mathlib.Algebra.Order.Field.Rat
import Mathlib.Data.Rat.Floor
import PanTilt.Alu.Main
import PanTilt.Lib.Precision

/-!
The numbers that words stand for.

A word is read as an IEEE single: a sign, a significand and a power of two (`Fields.value`). The
digits of a number are the same with a rest. An answer is clear if it raises no flag; the word of a
clear outcome is that of the circuit.
-/

namespace PanTilt.Alu

open Lib.Precision

/-! ### Values -/

/-- A sign as a factor. -/
def sgn (s : Bool) : ℚ := if s then -1 else 1

/-- The number of a word, unless its exponent is 255. -/
def Fields.value (a : Fields) : ℚ :=
  sgn a.sign * ((a.implied + a.frac : ℕ) * 2 ^ (((max a.expo 1 : ℕ) : ℤ) - 150))

/-- The exponent is in `1..254`. -/
structure Fields.Normal (a : Fields) : Prop where
  pos : 1 ≤ a.expo
  le : a.expo ≤ 254

/-- One of the two zeros. -/
def Fields.IsZero (a : Fields) : Prop := a.expo = 0 ∧ a.frac = 0

lemma abs_sgn (s : Bool) : |sgn s| = 1 := by
  cases s
  · exact abs_one
  · exact (abs_neg 1).trans abs_one

lemma sgn_ne_zero (s : Bool) : sgn s ≠ 0 := by
  have h := abs_sgn s
  intro h0
  rw [h0, abs_zero] at h
  exact zero_ne_one h

lemma sgn_not (s : Bool) : sgn (!s) = -sgn s := by
  cases s
  · rfl
  · exact (neg_neg 1).symm

lemma sgn_xor (s t : Bool) : sgn (s ^^ t) = sgn s * sgn t := by
  cases s
  · exact (one_mul _).symm.trans (by rw [Bool.false_xor]; rfl)
  · rw [Bool.true_xor, sgn_not]
    exact (neg_one_mul _).symm

lemma sgn_div (s t : Bool) : sgn s / sgn t = sgn (s ^^ t) := by
  rw [sgn_xor, div_eq_iff (sgn_ne_zero t), mul_assoc, ← sgn_xor, Bool.xor_self]
  exact (mul_one _).symm

lemma abs_sgn_mul (s : Bool) (y : ℚ) : |sgn s * y| = |y| := by rw [abs_mul, abs_sgn, one_mul]

lemma value_of_pos {a : Fields} (h : 1 ≤ a.expo) :
    a.value = sgn a.sign * ((2 ^ 23 + a.frac : ℕ) * 2 ^ ((a.expo : ℤ) - 150)) := by
  unfold Fields.value Fields.implied
  rw [if_neg (by omega), Nat.max_eq_left h]

lemma Fields.IsZero.value_eq {a : Fields} (h : a.IsZero) : a.value = 0 := by
  unfold Fields.value Fields.implied
  rw [if_pos h.1, h.2, Nat.cast_zero, zero_mul, mul_zero]

lemma two_zpow_127 : (2 : ℚ) ^ (127 : ℤ) = 2 ^ 23 * 2 ^ (104 : ℤ) := by
  rw [← zpow_natCast, ← zpow_add₀ two_ne_zero]
  rfl

lemma two_zpow_128 : (2 : ℚ) ^ (128 : ℤ) = 2 ^ 24 * 2 ^ (104 : ℤ) := by
  rw [← zpow_natCast, ← zpow_add₀ two_ne_zero]
  rfl

/-! ### Digits -/

/-- The digits of a number: a sign, and a significand of 24 bits with a rest below one, in units of
`2 ^ k`. -/
structure Digits (v : ℚ) (s : Bool) (Q : ℕ) (θ : ℚ) (k : ℤ) : Prop where
  ge : 2 ^ 23 ≤ Q
  lt : Q < 2 ^ 24
  rest : 0 ≤ θ ∧ θ < 1
  value : v = sgn s * ((Q + θ) * 2 ^ k)

section Digits

variable {v θ : ℚ} {s : Bool} {Q : ℕ} {k : ℤ}

lemma Digits.pos (h : Digits v s Q θ k) : 0 < (Q + θ) * (2 : ℚ) ^ k := by
  have hQ : (0 : ℚ) < Q := Nat.cast_pos.mpr (by have := h.ge; omega)
  exact mul_pos (by linarith [h.rest.1]) (zpow_pos two_pos _)

lemma Digits.abs_eq (h : Digits v s Q θ k) : |v| = (Q + θ) * 2 ^ k := by
  rw [h.value, abs_sgn_mul, abs_of_pos h.pos]

lemma Digits.ne_zero (h : Digits v s Q θ k) : v ≠ 0 := by
  rw [h.value]
  exact mul_ne_zero (sgn_ne_zero s) h.pos.ne'

lemma Digits.sign (h : Digits v s Q θ k) : decide (v < 0) = s := by
  have hpos := h.pos
  rw [h.value]
  cases s
  · simp only [sgn, Bool.false_eq_true, if_false, one_mul]
    exact decide_eq_false (not_lt.mpr hpos.le)
  · simp only [sgn, if_true, neg_one_mul]
    exact decide_eq_true (neg_lt_zero.mpr hpos)

lemma Digits.log_eq (h : Digits v s Q θ k) : Int.log 2 |v| = k + 23 := by
  rw [log_significand h.ge h.lt h.rest h.abs_eq]
  push_cast
  ring

lemma Digits.ulp_eq (h : Digits v s Q θ k) : ulp 24 v = 2 ^ k :=
  ulp_significand h.ge h.lt h.rest h.abs_eq

lemma Digits.chop_eq (h : Digits v s Q θ k) : chop 24 v = sgn s * (Q * 2 ^ k) := by
  have hsign := h.sign
  rw [chop_significand h.ge h.lt h.rest h.abs_eq]
  cases s
  · rw [if_neg (of_decide_eq_false hsign), sgn, if_neg Bool.false_ne_true, one_mul]
  · rw [if_pos (of_decide_eq_true hsign), sgn, if_pos rfl, neg_one_mul]

end Digits

lemma Fields.Normal.digits {a : Fields} (h : a.Normal) (hf : a.frac < 2 ^ 23) :
    Digits a.value a.sign (2 ^ 23 + a.frac) 0 ((a.expo : ℤ) - 150) where
  ge := Nat.le_add_right _ _
  lt := by omega
  rest := ⟨le_rfl, one_pos⟩
  value := by rw [value_of_pos h.pos, add_zero]

/-! ### Clear outcomes -/

/-- No flag is raised. -/
def Answer.Clear (A : Answer) : Prop :=
  A.overflow = false ∧ A.underflow = false ∧ A.exception = false

def Outcome.Clear (o : Outcome) : Prop :=
  o.overflow = false ∧ o.underflow = false ∧ o.exception = false

lemma Outcome.Clear.fields_eq {o : Outcome} (h : o.Clear) :
    o.fields = ⟨o.sign, o.expo, o.frac⟩ := by
  unfold Outcome.fields
  rw [h.1, h.2.1, h.2.2]
  rfl

lemma clear_main (x : Bool) (n1 n2 : BitVec 32) (oper : BitVec 2) :
    (main x n1 n2 oper).Clear ↔ (mainOutcome x oper (fields n1) (fields n2)).Clear := by
  obtain ⟨ho, hu, he⟩ := flags_main x n1 n2 oper
  unfold Answer.Clear Outcome.Clear
  rw [ho, hu, he]

lemma Fields.Normal.exceptional {a b : Fields} (ha : a.Normal) (hb : b.Normal) :
    PanTilt.Alu.exceptional a b = false := by
  have h₁ := ha.le
  have h₂ := hb.le
  unfold PanTilt.Alu.exceptional
  rw [Bool.or_eq_false_iff, beq_eq_false_iff_ne, beq_eq_false_iff_ne]
  omega

end PanTilt.Alu
