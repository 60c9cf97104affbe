import PanTilt.Lib.Adder

/-!
`Utils.v`: the gates and small circuits the arithmetic units are wired from.

A part select `n[hi:lo]` is `n.extractLsb' lo (hi - lo + 1)`, a concatenation is `++`. Beside each
circuit stands what it computes: the reductions decide about the number of a word, the adders are
adders, a multiplexer is a choice.
-/

namespace PanTilt.Alu

open Lib.Adder
open BitVec (ofBool)

/-! ### Reductions -/

def reductionAnd8bit (i : BitVec 8) : Bool :=
  i[7] && (i[6] && (i[5] && (i[4] && (i[3] && (i[2] && (i[1] && i[0]))))))

def reductionOr8bit (i : BitVec 8) : Bool :=
  i[7] || (i[6] || (i[5] || (i[4] || (i[3] || (i[2] || (i[1] || i[0]))))))

def reductionOr24bit (i : BitVec 24) : Bool :=
  reductionOr8bit (i.extractLsb' 0 8) || reductionOr8bit (i.extractLsb' 8 8) ||
    reductionOr8bit (i.extractLsb' 16 8)

def reductionNor31bit (i : BitVec 31) : Bool :=
  !(reductionOr24bit (i.extractLsb' 0 24) || reductionOr8bit (0b0#1 ++ i.extractLsb' 24 7))

lemma reductionAnd8bit_eq : ∀ i, reductionAnd8bit i = decide (i.toNat = 255) := by decide

lemma reductionOr8bit_eq : ∀ i, reductionOr8bit i = decide (i.toNat ≠ 0) := by decide

lemma reductionOr24bit_eq (i : BitVec 24) : reductionOr24bit i = decide (i.toNat ≠ 0) := by
  have hlt := i.isLt
  simp only [reductionOr24bit, reductionOr8bit_eq, BitVec.extractLsb'_toNat,
    Nat.shiftRight_eq_div_pow, ← Bool.decide_or]
  exact decide_eq_decide.2 (by omega)

lemma reductionNor31bit_eq (i : BitVec 31) : reductionNor31bit i = decide (i.toNat = 0) := by
  have hlt := i.isLt
  simp only [reductionNor31bit, reductionOr24bit_eq, reductionOr8bit_eq, toNat_append_eq,
    BitVec.extractLsb'_toNat, Nat.shiftRight_eq_div_pow, ← Bool.decide_or, ← decide_not]
  exact decide_eq_decide.2 (by simp; omega)

/-! ### Complements and adders -/

/-- Eight `not` gates. -/
def complement8bit (i : BitVec 8) : BitVec 8 := ~~~i

def complement24bit (i : BitVec 24) : BitVec 24 :=
  complement8bit (i.extractLsb' 16 8) ++ complement8bit (i.extractLsb' 8 8) ++
    complement8bit (i.extractLsb' 0 8)

lemma complement24bit_eq (i : BitVec 24) : complement24bit i = ~~~i := by
  have hlt := i.isLt
  apply BitVec.eq_of_toNat_eq
  simp only [complement24bit, complement8bit, toNat_append_eq, BitVec.toNat_not,
    BitVec.extractLsb'_toNat, Nat.shiftRight_eq_div_pow]
  omega

/-- Four bits with the carries looked ahead. -/
def adder4bit (a b : BitVec 4) (cin : Bool) : Sum 4 :=
  let g0 := a[0] && b[0]
  let g1 := a[1] && b[1]
  let g2 := a[2] && b[2]
  let g3 := a[3] && b[3]
  let p0 := a[0] ^^ b[0]
  let p1 := a[1] ^^ b[1]
  let p2 := a[2] ^^ b[2]
  let p3 := a[3] ^^ b[3]
  let c0 := g0 || (p0 && cin)
  let c1 := g1 || (p1 && g0) || (p1 && p0 && cin)
  let c2 := g2 || (p2 && g1) || (p2 && p1 && g0) || (p2 && p1 && p0 && cin)
  { sum := ofBool (p3 ^^ c2) ++ ofBool (p2 ^^ c1) ++ ofBool (p1 ^^ c0) ++ ofBool (p0 ^^ cin)
    cout := g3 || (p3 && g2) || (p3 && p2 && g1) || (p3 && p2 && p1 && g0) ||
      (p3 && p2 && p1 && p0 && cin) }

def adder8bit : BitVec 8 → BitVec 8 → Bool → Sum 8 := chain adder4bit adder4bit

/-- The ninth bit of `Adder9bit`. -/
def topBit (a b : BitVec 1) (ctemp : Bool) : Sum 1 where
  sum := ofBool (a[0] ^^ b[0] ^^ ctemp)
  cout := (a[0] && b[0]) || (a[0] && ctemp) || (ctemp && b[0])

def adder9bit : BitVec 9 → BitVec 9 → Bool → Sum 9 := chain topBit adder8bit

def adder24bit : BitVec 24 → BitVec 24 → Bool → Sum 24 :=
  chain adder8bit (chain adder8bit adder8bit)

theorem isAdder_adder4bit : IsAdder adder4bit := by unfold IsAdder; decide

theorem isAdder_adder8bit : IsAdder adder8bit := isAdder_adder4bit.chain isAdder_adder4bit

theorem isAdder_adder9bit : IsAdder adder9bit :=
  have htop : IsAdder topBit := by unfold IsAdder; decide
  htop.chain isAdder_adder8bit

theorem isAdder_adder24bit : IsAdder adder24bit :=
  isAdder_adder8bit.chain (isAdder_adder8bit.chain isAdder_adder8bit)

def complement8bit2s (i : BitVec 8) : BitVec 8 :=
  (adder8bit (complement8bit i) 0b00000001 false).sum

def complement24bit2s (i : BitVec 24) : BitVec 24 :=
  (adder24bit (complement24bit i) 0b000000000000000000000001 false).sum

lemma toNat_complement8bit2s (i : BitVec 8) : (complement8bit2s i).toNat = (256 - i.toNat) % 256 :=
  isAdder_adder8bit.neg (Nat.succ_pos 7) i

lemma toNat_complement24bit2s (i : BitVec 24) :
    (complement24bit2s i).toNat = (2 ^ 24 - i.toNat) % 2 ^ 24 := by
  rw [complement24bit2s, complement24bit_eq]
  exact isAdder_adder24bit.neg (Nat.succ_pos 23) i

lemma cast_neg_mod {n i : ℕ} (hi : i ≤ n) : (((n - i) % n : ℕ) : ℤ) = -(i : ℤ) % n := by
  rw [Int.natCast_mod, Nat.cast_sub hi, sub_eq_neg_add, Int.add_emod_right]

/-- **The adders and the complementers compute integer arithmetic.** Each adder is exact, the
complements are those of its differences, and the complements of two negate. -/
theorem adders_exact :
    Exact adder4bit ∧ Exact adder8bit ∧ Exact adder9bit ∧ Exact adder24bit ∧
      (∀ i, complement8bit i = ~~~i) ∧ (∀ i, complement24bit i = ~~~i) ∧
      (∀ i, ((complement8bit2s i).toNat : ℤ) = -(i.toNat : ℤ) % 2 ^ 8) ∧
      ∀ i, ((complement24bit2s i).toNat : ℤ) = -(i.toNat : ℤ) % 2 ^ 24 := by
  refine ⟨isAdder_adder4bit.exact, isAdder_adder8bit.exact, isAdder_adder9bit.exact,
    isAdder_adder24bit.exact, fun i => rfl, complement24bit_eq, ?_, ?_⟩
  · intro i
    rw [toNat_complement8bit2s]
    exact cast_neg_mod i.isLt.le
  · intro i
    rw [toNat_complement24bit2s]
    exact cast_neg_mod i.isLt.le

/-! ### Multiplexers -/

def mux1Bit (in0 in1 sl : Bool) : Bool := (in0 && !sl) || (in1 && sl)

def mux8Bit (in0 in1 : BitVec 8) (sl : Bool) : BitVec 8 :=
  ofBool (mux1Bit in0[7] in1[7] sl) ++ ofBool (mux1Bit in0[6] in1[6] sl) ++
    ofBool (mux1Bit in0[5] in1[5] sl) ++ ofBool (mux1Bit in0[4] in1[4] sl) ++
    ofBool (mux1Bit in0[3] in1[3] sl) ++ ofBool (mux1Bit in0[2] in1[2] sl) ++
    ofBool (mux1Bit in0[1] in1[1] sl) ++ ofBool (mux1Bit in0[0] in1[0] sl)

def mux24Bit (in0 in1 : BitVec 24) (sl : Bool) : BitVec 24 :=
  mux8Bit (in0.extractLsb' 16 8) (in1.extractLsb' 16 8) sl ++
    mux8Bit (in0.extractLsb' 8 8) (in1.extractLsb' 8 8) sl ++
    mux8Bit (in0.extractLsb' 0 8) (in1.extractLsb' 0 8) sl

def mux32Bit (in0 in1 : BitVec 32) (sl : Bool) : BitVec 32 :=
  mux8Bit (in0.extractLsb' 24 8) (in1.extractLsb' 24 8) sl ++
    mux24Bit (in0.extractLsb' 0 24) (in1.extractLsb' 0 24) sl

@[simp] lemma mux1Bit_eq (in0 in1 sl : Bool) : mux1Bit in0 in1 sl = if sl then in1 else in0 := by
  cases sl <;> simp [mux1Bit]

@[simp] lemma mux8Bit_eq (in0 in1 : BitVec 8) (sl : Bool) :
    mux8Bit in0 in1 sl = if sl then in1 else in0 := by
  have hbits : ∀ i : BitVec 8, (ofBool i[7] ++ ofBool i[6] ++ ofBool i[5] ++ ofBool i[4] ++
      ofBool i[3] ++ ofBool i[2] ++ ofBool i[1] ++ ofBool i[0] : BitVec 8) = i := by decide
  unfold mux8Bit
  simp only [mux1Bit_eq]
  cases sl
  · exact hbits in0
  · exact hbits in1

@[simp] lemma mux24Bit_eq (in0 in1 : BitVec 24) (sl : Bool) :
    mux24Bit in0 in1 sl = if sl then in1 else in0 := by
  have hparts : ∀ i : BitVec 24, (i.extractLsb' 16 8 ++ i.extractLsb' 8 8 ++ i.extractLsb' 0 8 :
      BitVec 24) = i := fun i => by
    apply BitVec.eq_of_toNat_eq
    have hlt := i.isLt
    simp only [toNat_append_eq, BitVec.extractLsb'_toNat, Nat.shiftRight_eq_div_pow]
    omega
  unfold mux24Bit
  simp only [mux8Bit_eq]
  cases sl
  · exact hparts in0
  · exact hparts in1

@[simp] lemma mux32Bit_eq (in0 in1 : BitVec 32) (sl : Bool) :
    mux32Bit in0 in1 sl = if sl then in1 else in0 := by
  have hparts : ∀ i : BitVec 32, (i.extractLsb' 24 8 ++ i.extractLsb' 0 24 : BitVec 32) = i :=
    fun i => by
      apply BitVec.eq_of_toNat_eq
      have hlt := i.isLt
      simp only [toNat_append_eq, BitVec.extractLsb'_toNat, Nat.shiftRight_eq_div_pow]
      omega
  unfold mux32Bit
  simp only [mux8Bit_eq, mux24Bit_eq]
  cases sl
  · exact hparts in0
  · exact hparts in1

end PanTilt.Alu
