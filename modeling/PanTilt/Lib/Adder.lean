import Mathlib.Tactic.Common
import Mathlib.Data.Nat.Basic
import Mathlib.Tactic.Ring

/-!
Adders as circuits: two words and a carry in, a word and a carry out.

`IsAdder` says that the carry and the word are, read together, the sum of the inputs; `chain` puts
an adder of the high bits behind one of the low bits (`IsAdder.chain`). What an adder computes
follows from `IsAdder` alone: the sum, the difference to the complement with a carry
(`IsAdder.sub_sum`, `IsAdder.sub_cout`) and the negation (`IsAdder.neg`). `Exact` collects the sum
and the difference as integers.
-/

namespace PanTilt.Lib.Adder

variable {v w : ℕ}

/-- What comes out of an adder. -/
structure Sum (w : ℕ) where
  sum : BitVec w
  cout : Bool
  deriving DecidableEq

/-- The carry and the word as one number. -/
def Sum.value (r : Sum w) : ℕ := r.cout.toNat * 2 ^ w + r.sum.toNat

/-- The carry and the word are the sum of the inputs. -/
def IsAdder (f : BitVec w → BitVec w → Bool → Sum w) : Prop :=
  ∀ a b cin, (f a b cin).value = a.toNat + b.toNat + cin.toNat

/-! ### Words in two parts -/

lemma toNat_append_eq (x : BitVec w) (y : BitVec v) :
    (x ++ y).toNat = x.toNat * 2 ^ v + y.toNat := by
  rw [BitVec.toNat_append, ← Nat.shiftLeft_add_eq_or_of_lt y.isLt, Nat.shiftLeft_eq]

lemma toNat_zero_append (x : BitVec v) : (0#w ++ x).toNat = x.toNat := by
  rw [toNat_append_eq, BitVec.toNat_zero, Nat.zero_mul, Nat.zero_add]

lemma toNat_parts (x : BitVec (w + v)) :
    x.toNat = (x.extractLsb' v w).toNat * 2 ^ v + (x.extractLsb' 0 v).toNat := by
  rw [BitVec.extractLsb'_toNat, BitVec.extractLsb'_toNat, Nat.shiftRight_eq_div_pow,
    Nat.shiftRight_zero]
  have hlt : x.toNat / 2 ^ v < 2 ^ w := by
    rw [Nat.div_lt_iff_lt_mul (Nat.two_pow_pos v), ← Nat.pow_add]
    exact x.isLt
  rw [Nat.mod_eq_of_lt hlt, Nat.div_add_mod']

/-! ### Adders in a chain -/

/-- An adder of the low bits and, behind its carry, one of the high bits. -/
def chain (hi : BitVec w → BitVec w → Bool → Sum w) (lo : BitVec v → BitVec v → Bool → Sum v)
    (a b : BitVec (w + v)) (cin : Bool) : Sum (w + v) :=
  let l := lo (a.extractLsb' 0 v) (b.extractLsb' 0 v) cin
  let h := hi (a.extractLsb' v w) (b.extractLsb' v w) l.cout
  ⟨h.sum ++ l.sum, h.cout⟩

theorem IsAdder.chain {hi : BitVec w → BitVec w → Bool → Sum w}
    {lo : BitVec v → BitVec v → Bool → Sum v} (hhi : IsAdder hi) (hlo : IsAdder lo) :
    IsAdder (chain hi lo) := by
  intro a b cin
  have hl := hlo (a.extractLsb' 0 v) (b.extractLsb' 0 v) cin
  have hh := hhi (a.extractLsb' v w) (b.extractLsb' v w)
    (lo (a.extractLsb' 0 v) (b.extractLsb' 0 v) cin).cout
  rw [toNat_parts a, toNat_parts b]
  simp only [Sum.value, Adder.chain, toNat_append_eq, Nat.pow_add] at hl hh ⊢
  generalize lo (a.extractLsb' 0 v) (b.extractLsb' 0 v) cin = l at hl hh ⊢
  generalize hi (a.extractLsb' v w) (b.extractLsb' v w) l.cout = h at hh ⊢
  -- the carry of the low part enters the high part
  calc h.cout.toNat * (2 ^ w * 2 ^ v) + (h.sum.toNat * 2 ^ v + l.sum.toNat)
      = (h.cout.toNat * 2 ^ w + h.sum.toNat) * 2 ^ v + l.sum.toNat := by ring
    _ = (a.extractLsb' v w).toNat * 2 ^ v + (b.extractLsb' v w).toNat * 2 ^ v +
          (l.cout.toNat * 2 ^ v + l.sum.toNat) := by rw [hh]; ring
    _ = _ := by rw [hl]; ring

/-! ### What an adder computes -/

section IsAdder

variable {f : BitVec w → BitVec w → Bool → Sum w} (hf : IsAdder f)

include hf

theorem IsAdder.sum (a b : BitVec w) (cin : Bool) :
    (f a b cin).sum.toNat = (a.toNat + b.toNat + cin.toNat) % 2 ^ w := by
  rw [← hf a b cin, Sum.value, Nat.mul_comm, Nat.mul_add_mod, Nat.mod_eq_of_lt (f a b cin).sum.isLt]

theorem IsAdder.cout (a b : BitVec w) (cin : Bool) :
    (f a b cin).cout = decide (2 ^ w ≤ a.toNat + b.toNat + cin.toNat) := by
  have hlt := (f a b cin).sum.isLt
  rw [← hf a b cin, Sum.value]
  cases (f a b cin).cout
  · simp only [Bool.toNat_false, Nat.zero_mul, Nat.zero_add]
    exact (decide_eq_false (by omega)).symm
  · simp only [Bool.toNat_true, Nat.one_mul]
    exact (decide_eq_true (by omega)).symm

theorem IsAdder.sub_sum (a b : BitVec w) :
    (f a (~~~b) true).sum.toNat = (a.toNat + (2 ^ w - b.toNat)) % 2 ^ w := by
  have hlt := b.isLt
  rw [hf.sum, BitVec.toNat_not, Bool.toNat_true]
  congr 1
  omega

theorem IsAdder.sub_cout (a b : BitVec w) :
    (f a (~~~b) true).cout = decide (b.toNat ≤ a.toNat) := by
  have hlt := b.isLt
  rw [hf.cout, BitVec.toNat_not, Bool.toNat_true]
  exact decide_eq_decide.2 (by omega)

theorem IsAdder.neg (hw : 0 < w) (a : BitVec w) :
    (f (~~~a) 1 false).sum.toNat = (2 ^ w - a.toNat) % 2 ^ w := by
  have hlt := a.isLt
  have hone : (1 : BitVec w).toNat = 1 := by
    rw [BitVec.ofNat_eq_ofNat, BitVec.toNat_ofNat, Nat.mod_eq_of_lt (Nat.one_lt_two_pow hw.ne')]
  rw [hf.sum, BitVec.toNat_not, hone, Bool.toNat_false]
  congr 1
  omega

end IsAdder

/-! ### Integer arithmetic -/

/-- The carry and the word are the sum, and to the complement with a carry in the word is the
difference and the carry says that nothing was borrowed. -/
structure Exact (f : BitVec w → BitVec w → Bool → Sum w) : Prop where
  add : ∀ a b cin, (f a b cin).sum.toNat + 2 ^ w * (f a b cin).cout.toNat =
    a.toNat + b.toNat + cin.toNat
  sub : ∀ a b, ((f a (~~~b) true).sum.toNat : ℤ) = ((a.toNat : ℤ) - b.toNat) % 2 ^ w
  borrow : ∀ a b, (f a (~~~b) true).cout = true ↔ b.toNat ≤ a.toNat

theorem IsAdder.exact {f : BitVec w → BitVec w → Bool → Sum w} (hf : IsAdder f) : Exact f where
  add a b cin := by
    rw [← hf a b cin, Sum.value, Nat.mul_comm, Nat.add_comm]
  sub a b := by
    have hle : b.toNat ≤ 2 ^ w := b.isLt.le
    rw [hf.sub_sum, Int.natCast_mod, Nat.cast_add, Nat.cast_sub hle, Nat.cast_pow, Nat.cast_ofNat]
    -- a whole turn more or less
    calc ((a.toNat : ℤ) + (2 ^ w - b.toNat)) % 2 ^ w
        = ((a.toNat : ℤ) - b.toNat + 2 ^ w) % 2 ^ w := by ring_nf
      _ = ((a.toNat : ℤ) - b.toNat) % 2 ^ w := Int.add_emod_right _ _
  borrow a b := by
    rw [hf.sub_cout, decide_eq_true_eq]

end PanTilt.Lib.Adder
