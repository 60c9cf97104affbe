import Mathlib.Data.Nat.Prime.Basic
import Mathlib.Data.Nat.Prime.Pow
import PanTilt.Alu.Mul
import PanTilt.Alu.SumOrder

/-!
The order of the operands of a product.

For two words of one class the circuit is symmetric. In a mixed pair the implied bits are multiplied
in one order and missing in the other, which shows unless both products fall below the range or both
fractions are zero.
-/

namespace PanTilt.Alu

/-! ### Words of one class -/

lemma productOutcome_comm {a b : Fields} (hclass : a.expo = 0 ↔ b.expo = 0) :
    productOutcome b a = productOutcome a b := by
  have hproduct : product b a = product a b := by
    unfold product
    rw [implied_eq_of_class hclass, Nat.mul_comm]
  have htop : productTop b a = productTop a b := by
    unfold productTop
    rw [hproduct]
  unfold productOutcome
  rw [hproduct, htop, exceptional_comm, Nat.add_comm b.expo, Bool.xor_comm]

theorem product_commutes_same {a b : Fields} (hclass : a.expo = 0 ↔ b.expo = 0) :
    Commutes productOutcome a b := congrArg Outcome.fields (productOutcome_comm hclass)

/-! ### A normal word and a denormalised one -/

section Mixed

variable {a b : Fields} (ha : a.Valid) (hb : b.Valid) (ha₀ : a.expo ≠ 0) (hb₀ : b.expo = 0)

include ha₀ hb₀ in
lemma product_mixed : product b a = a.frac * b.frac ∧
    product a b = 2 ^ 46 + 2 ^ 23 * (a.frac + b.frac) + a.frac * b.frac := by
  unfold product Fields.implied
  rw [if_pos hb₀, if_neg ha₀]
  constructor
  · rw [Nat.zero_add, Nat.zero_add, Nat.mul_comm]
  · ring

include ha hb ha₀ hb₀ in
lemma productTop_mixed : productTop b a = 0 := by
  have hsmall : a.frac * b.frac < 2 ^ 23 * 2 ^ 23 := Nat.mul_lt_mul'' ha.frac hb.frac
  unfold productTop
  rw [(product_mixed ha₀ hb₀).1, if_neg (by omega)]

include ha hb ha₀ in
/-- Two normal significands have no product that is a power of two with an odd exponent. -/
lemma product_ne : product a b ≠ 2 ^ 47 := by
  intro h
  have h₁ := ha.frac
  have h₂ := hb.frac
  unfold product Fields.implied at h
  rw [if_neg ha₀] at h
  obtain ⟨k, -, hk⟩ := (Nat.dvd_prime_pow Nat.prime_two).1 (Dvd.intro _ h)
  have hk23 : k = 23 := by
    have hlo : 23 ≤ k := (Nat.pow_le_pow_iff_right Nat.one_lt_two).1 (by omega)
    have hhi : k < 24 := (Nat.pow_lt_pow_iff_right Nat.one_lt_two).1 (by omega)
    omega
  rw [hk, hk23] at h
  omega

include ha hb ha₀ in
lemma product_lt : product a b < (2 ^ 24 - 1) * 2 ^ 24 := by
  have h₁ := ha.frac
  have h₂ := hb.frac
  unfold product Fields.implied
  rw [if_neg ha₀]
  exact Nat.mul_lt_mul_of_le_of_lt (by omega) (by omega) (by omega)

lemma product_fields {a b : Fields} (h : a.expo + b.expo + productTop a b < 383) :
    (productOutcome a b).fields =
      if a.expo + b.expo + productTop a b < 127 then ⟨a.sign ^^ b.sign, 0, 0⟩
      else if exceptional a b then ⟨true, 255, 2 ^ 23 - 1⟩
      else ⟨a.sign ^^ b.sign, (a.expo + b.expo + productTop a b + 129) % 256,
        roundedUp (product a b) (23 + productTop a b)⟩ := by
  unfold productOutcome Outcome.fields
  simp only [decide_eq_true_eq]
  rw [if_neg (by omega)]

/-- For a normal word and a denormalised one. -/
def ProductMixed (a b : Fields) : Prop :=
  a.expo = 255 ∨ a.expo ≤ 125 ∨ a.expo = 126 ∧ (2 ^ 23 + a.frac) * (2 ^ 23 + b.frac) < 2 ^ 47 ∨
    a.frac = 0 ∧ b.frac = 0

include ha hb ha₀ hb₀ in
/-- The words of the two orders: only the normal order can carry. -/
lemma product_words : Commutes productOutcome a b ↔
    (if a.expo < 127 then ⟨a.sign ^^ b.sign, 0, 0⟩
      else if a.expo = 255 then ⟨true, 255, 2 ^ 23 - 1⟩
      else (⟨a.sign ^^ b.sign, (a.expo + 129) % 256, roundedUp (product b a) 23⟩ : Fields)) =
    (if a.expo + productTop a b < 127 then ⟨a.sign ^^ b.sign, 0, 0⟩
      else if a.expo = 255 then ⟨true, 255, 2 ^ 23 - 1⟩
      else ⟨a.sign ^^ b.sign, (a.expo + productTop a b + 129) % 256,
        roundedUp (product a b) (23 + productTop a b)⟩) := by
  have he := ha.expo
  have htop := productTop_mixed ha hb ha₀ hb₀
  have hexc : exceptional a b = decide (a.expo = 255) := by
    unfold exceptional
    rw [hb₀]
    by_cases h : a.expo = 255 <;> simp [h]
  have htop' := productTop_le a b
  unfold Commutes
  rw [product_fields (a := a) (by omega), product_fields (a := b) (by omega), htop, hb₀,
    exceptional_comm, hexc, Bool.xor_comm]
  simp only [Nat.zero_add, Nat.add_zero, decide_eq_true_eq]

include ha hb ha₀ hb₀ in
theorem product_commutes_mixed : Commutes productOutcome a b ↔ ProductMixed a b := by
  have he := ha.expo
  have h₁ := ha.frac
  have h₂ := hb.frac
  obtain ⟨hba, hab⟩ := product_mixed ha₀ hb₀
  have hne := product_ne ha hb ha₀
  have hlt := product_lt ha hb ha₀
  have hsmall : a.frac * b.frac < 2 ^ 23 * 2 ^ 23 := Nat.mul_lt_mul'' h₁ h₂
  have hproduct : (2 ^ 23 + a.frac) * (2 ^ 23 + b.frac) = product a b := by
    unfold product Fields.implied
    rw [if_neg ha₀]
  unfold ProductMixed
  rw [hproduct, product_words ha hb ha₀ hb₀]
  rcases Nat.lt_or_ge (product a b) (2 ^ 47) with hP | hP
  · -- no carry out of the product: the exponents agree
    have hno : productTop a b = 0 := if_neg (by omega)
    simp only [hno, Nat.add_zero]
    rcases (show a.expo < 127 ∨ a.expo = 255 ∨ 127 ≤ a.expo ∧ a.expo ≠ 255 by omega) with
      h | h | ⟨h, h'⟩
    · rw [if_pos h, if_pos h]
      exact iff_of_true rfl (by omega)
    · rw [if_neg (by omega), if_pos h, if_neg (by omega), if_pos h]
      exact iff_of_true rfl (.inl h)
    · rw [if_neg (by omega), if_neg h', if_neg (by omega), if_neg h', hba, hab, Fields.mk.injEq]
      simp only [true_and, roundedUp]
      generalize a.frac * b.frac = p at hab hsmall ⊢
      rw [show (2 ^ 46 + 2 ^ 23 * (a.frac + b.frac) + p) % 2 ^ 23 = p % 2 ^ 23 by omega,
        show (2 ^ 46 + 2 ^ 23 * (a.frac + b.frac) + p) / 2 ^ 23 =
          2 ^ 23 + (a.frac + b.frac) + p / 2 ^ 23 by omega]
      omega
  · -- a carry: the exponents differ unless both are out of the range
    have hcarry : productTop a b = 1 := if_pos hP
    simp only [hcarry]
    rcases (show a.expo ≤ 125 ∨ a.expo = 126 ∨ a.expo = 255 ∨ 127 ≤ a.expo ∧ a.expo ≠ 255 by omega)
      with h | h | h | ⟨h, h'⟩
    · rw [if_pos (by omega), if_pos (by omega)]
      exact iff_of_true rfl (.inr (.inl h))
    · rw [if_pos (by omega), if_neg (by omega), if_neg (by omega), Fields.mk.injEq]
      refine iff_of_false (fun hw => ?_) (by omega)
      have hfrac := hw.2.2
      unfold roundedUp at hfrac
      split at hfrac
      · omega
      · omega
    · rw [if_neg (by omega), if_pos h, if_neg (by omega), if_pos h]
      exact iff_of_true rfl (.inl h)
    · rw [if_neg (by omega), if_neg h', if_neg (by omega), if_neg h', Fields.mk.injEq]
      exact iff_of_false (fun hw => by omega) (by omega)

end Mixed

theorem product_commutes_iff {a b : Fields} (ha : a.Valid) (hb : b.Valid) :
    Commutes productOutcome a b ↔ byClass (fun _ _ => True) ProductMixed a b :=
  commutes_iff_byClass (fun _ _ _ _ h => iff_of_true (product_commutes_same h) trivial)
    (fun _ _ => product_commutes_mixed) ha hb

end PanTilt.Alu
