import Mathlib.Data.Nat.Log
import PanTilt.Alu.Utils

/-!
`normalizeMandfindShift` of `Utils.v`: the mantissa moved up to its leading one, and by how much.

The circuit is a `casex` with one item for each place of the leading one. The item for a shift by 19
has a one too many and stands behind an item that takes its numbers, so that a mantissa from 16 to
31 falls to the default, as zero does (`Defaulted`). Elsewhere the fraction and the shift are those
of the leading one (`normalize_eq`, `mul_two_pow_normShift`), so that these mantissas are the only
ones that are not normalised (`normalised_iff`).
-/

namespace PanTilt.Alu

open Lib.Adder

/-- An item of the `casex`: the low `free` bits are `x`, the ones above them are `bits`. -/
structure CaseItem where
  free : ℕ
  bits : ℕ
  shift : ℕ

def caseItems : List CaseItem :=
  [⟨23, 0b1, 0⟩, ⟨22, 0b01, 1⟩, ⟨21, 0b001, 2⟩, ⟨20, 0b0001, 3⟩, ⟨19, 0b00001, 4⟩,
    ⟨18, 0b000001, 5⟩, ⟨17, 0b0000001, 6⟩, ⟨16, 0b00000001, 7⟩, ⟨15, 0b000000001, 8⟩,
    ⟨14, 0b0000000001, 9⟩, ⟨13, 0b00000000001, 10⟩, ⟨12, 0b000000000001, 11⟩,
    ⟨11, 0b0000000000001, 12⟩, ⟨10, 0b00000000000001, 13⟩, ⟨9, 0b000000000000001, 14⟩,
    ⟨8, 0b0000000000000001, 15⟩, ⟨7, 0b00000000000000001, 16⟩, ⟨6, 0b000000000000000001, 17⟩,
    ⟨5, 0b0000000000000000001, 18⟩, ⟨4, 0b00000000000000010001, 19⟩,
    ⟨3, 0b000000000000000000001, 20⟩, ⟨2, 0b0000000000000000000001, 21⟩,
    ⟨1, 0b00000000000000000000001, 22⟩, ⟨0, 0b000000000000000000000001, 23⟩]

/-- `normalized_M` and `shift`. -/
def normalizeMandfindShift (MResult : BitVec 24) (MCarry realOper : Bool) : BitVec 23 × BitVec 5 :=
  if MCarry && !realOper then
    (MResult.extractLsb' 1 23 + (0#22 ++ MResult.extractLsb' 0 1), 0)
  else
    match caseItems.find? fun i => (MResult >>> i.free).toNat == i.bits with
    | some i => ((MResult <<< i.shift).extractLsb' 0 23, BitVec.ofNat 5 i.shift)
    | none => (0, 0)

/-! ### The place of the leading one -/

/-- The numbers that no item of the `casex` takes. -/
def Defaulted (r : ℕ) : Prop := r = 0 ∨ 16 ≤ r ∧ r < 32

instance (r : ℕ) : Decidable (Defaulted r) := by unfold Defaulted; infer_instance

/-- The shift of a mantissa. -/
def normShift (r : ℕ) : ℕ := if Defaulted r then 0 else 23 - Nat.log 2 r

/-- The fraction of a mantissa. -/
def normFrac (r : ℕ) : ℕ := if Defaulted r then 0 else r * 2 ^ normShift r - 2 ^ 23

section Norm

variable {r : ℕ}

lemma normShift_of_defaulted (h : Defaulted r) : normShift r = 0 := if_pos h

lemma normFrac_of_defaulted (h : Defaulted r) : normFrac r = 0 := if_pos h

lemma normShift_le (r : ℕ) : normShift r ≤ 23 := by
  unfold normShift
  split <;> omega

lemma normShift_eq (h : ¬ Defaulted r) {p : ℕ} (hlo : 2 ^ p ≤ r) (hhi : r < 2 ^ (p + 1)) :
    normShift r = 23 - p := by
  rw [normShift, if_neg h, Nat.log_eq_of_pow_le_of_lt_pow hlo hhi]

theorem mul_two_pow_normShift (h : ¬ Defaulted r) (hr : r < 2 ^ 24) :
    r * 2 ^ normShift r = 2 ^ 23 + normFrac r ∧ normFrac r < 2 ^ 23 := by
  have hne : r ≠ 0 := fun h₀ => h (.inl h₀)
  have hlog : Nat.log 2 r ≤ 23 := Nat.lt_succ_iff.1 (Nat.log_lt_of_lt_pow hne hr)
  have hlo : 2 ^ Nat.log 2 r ≤ r := Nat.pow_log_le_self 2 hne
  have hhi : r < 2 ^ (Nat.log 2 r + 1) := Nat.lt_pow_succ_log_self Nat.one_lt_two r
  have hs : normShift r = 23 - Nat.log 2 r := if_neg h
  have h₁ : 2 ^ 23 ≤ r * 2 ^ normShift r := by
    calc 2 ^ 23 = 2 ^ Nat.log 2 r * 2 ^ normShift r := by rw [← Nat.pow_add, hs]; congr 1; omega
      _ ≤ _ := Nat.mul_le_mul_right _ hlo
  have h₂ : r * 2 ^ normShift r < 2 ^ 24 := by
    calc _ < 2 ^ (Nat.log 2 r + 1) * 2 ^ normShift r :=
          Nat.mul_lt_mul_of_pos_right hhi (Nat.two_pow_pos _)
      _ = 2 ^ 24 := by rw [← Nat.pow_add, hs]; congr 1; omega
  rw [normFrac, if_neg h]
  omega

lemma normFrac_lt (hr : r < 2 ^ 24) : normFrac r < 2 ^ 23 := by
  by_cases h : Defaulted r
  · rw [normFrac_of_defaulted h]
    norm_num
  · exact (mul_two_pow_normShift h hr).2

theorem eq_of_norm_eq {r' : ℕ} (h : ¬ Defaulted r) (h' : ¬ Defaulted r') (hr : r < 2 ^ 24)
    (hr' : r' < 2 ^ 24) (hf : normFrac r = normFrac r') (hs : normShift r = normShift r') :
    r = r' := by
  have he := (mul_two_pow_normShift h hr).1
  rw [hf, hs, ← (mul_two_pow_normShift h' hr').1] at he
  exact Nat.eq_of_mul_eq_mul_right (Nat.two_pow_pos _) he

lemma normShift_le_of_le {p : ℕ} (h : 2 ^ p ≤ r) : normShift r ≤ 23 - p := by
  unfold normShift
  split
  · omega
  · have hlog : p ≤ Nat.log 2 r := Nat.le_log_of_pow_le Nat.one_lt_two h
    omega

lemma le_normShift_of_lt (hd : ¬ Defaulted r) {p : ℕ} (h : r < 2 ^ p) (hp : p ≤ 24) :
    24 - p ≤ normShift r := by
  have hlog : Nat.log 2 r < p := Nat.log_lt_of_lt_pow (fun h₀ => hd (.inl h₀)) h
  rw [normShift, if_neg hd]
  omega

lemma norm_of_le (h : 2 ^ 23 ≤ r) (hr : r < 2 ^ 24) :
    normShift r = 0 ∧ normFrac r = r - 2 ^ 23 := by
  have hd : ¬ Defaulted r := by unfold Defaulted; omega
  have hs : normShift r = 0 := normShift_eq hd h hr
  refine ⟨hs, ?_⟩
  rw [normFrac, if_neg hd, hs, Nat.pow_zero, Nat.mul_one]

lemma normFrac_even (hr : r < 2 ^ 23) : normFrac r % 2 = 0 := by
  by_cases hd : Defaulted r
  · rw [normFrac_of_defaulted hd]
  · have hs := le_normShift_of_lt hd hr (Nat.le_succ 23)
    obtain ⟨k, hk⟩ : ∃ k, normShift r = k + 1 := ⟨normShift r - 1, by omega⟩
    have he := (mul_two_pow_normShift hd (by omega)).1
    rw [hk, Nat.pow_succ, ← Nat.mul_assoc] at he
    omega

end Norm

/-! ### What the circuit computes -/

/-- The item for a leading one at bit `23 - s`. -/
def leadItem (s : ℕ) : CaseItem := ⟨23 - s, 1, s⟩

lemma caseItems_eq : caseItems =
    (List.range 19).map leadItem ++ ⟨4, 17, 19⟩ :: [20, 21, 22, 23].map leadItem := rfl

lemma match_leadItem (M : BitVec 24) (s : ℕ) :
    ((M >>> (leadItem s).free).toNat == (leadItem s).bits) = true ↔
      2 ^ (23 - s) ≤ M.toNat ∧ M.toNat < 2 ^ (23 - s + 1) := by
  rw [beq_iff_eq, BitVec.toNat_ushiftRight, Nat.shiftRight_eq_div_pow]
  show M.toNat / 2 ^ (23 - s) = 1 ↔ _
  rw [Nat.div_eq_iff (Nat.two_pow_pos _), Nat.pow_succ]
  have hpos := Nat.two_pow_pos (23 - s)
  omega

/-- Of the items for a leading one, the one with the shift of the mantissa takes it. -/
lemma match_iff {M : BitVec 24} (hd : ¬ Defaulted M.toNat) {s : ℕ} (hs : s ≤ 23) :
    ((M >>> (leadItem s).free).toNat == (leadItem s).bits) = true ↔ s = normShift M.toNat := by
  have hlt := M.isLt
  have hne : M.toNat ≠ 0 := fun h₀ => hd (.inl h₀)
  rw [match_leadItem]
  constructor
  · rintro ⟨hlo, hhi⟩
    have heq := normShift_eq hd hlo hhi
    omega
  · rintro rfl
    have hlog : Nat.log 2 M.toNat ≤ 23 := Nat.lt_succ_iff.1 (Nat.log_lt_of_lt_pow hne hlt)
    rw [show 23 - normShift M.toNat = Nat.log 2 M.toNat by rw [normShift, if_neg hd]; omega]
    exact ⟨Nat.pow_log_le_self 2 hne, Nat.lt_pow_succ_log_self Nat.one_lt_two _⟩

lemma find_leadItems {M : BitVec 24} (hd : ¬ Defaulted M.toNat) {L : List ℕ}
    (hL : ∀ s ∈ L, s ≤ 23) :
    ((L.map leadItem).find? fun i => (M >>> i.free).toNat == i.bits) =
      if normShift M.toNat ∈ L then some (leadItem (normShift M.toNat)) else none := by
  induction L with
  | nil => rfl
  | cons s L ih =>
    have hs := match_iff hd (hL s List.mem_cons_self)
    rw [List.map_cons, List.find?_cons, ih fun t ht => hL t (List.mem_cons_of_mem s ht)]
    by_cases h : s = normShift M.toNat
    · rw [hs.2 h, ← h, if_pos List.mem_cons_self]
    · rw [Bool.eq_false_of_not_eq_true fun hm => h (hs.1 hm)]
      simp [Ne.symm h]

theorem find_caseItems (M : BitVec 24) :
    (caseItems.find? fun i => (M >>> i.free).toNat == i.bits) =
      if Defaulted M.toNat then none else some (leadItem (normShift M.toNat)) := by
  have hodd : ((M >>> 4).toNat == 17) = decide (M.toNat / 16 = 17) := by
    rw [BitVec.toNat_ushiftRight, Nat.shiftRight_eq_div_pow]
    rfl
  by_cases hd : Defaulted M.toNat
  · rw [if_pos hd, List.find?_eq_none, caseItems_eq]
    have hlead : ∀ s, s ≠ 19 → ¬ ((M >>> (leadItem s).free).toNat == (leadItem s).bits) = true := by
      intro s hs hm
      obtain ⟨hlo, hhi⟩ := (match_leadItem M s).1 hm
      rcases hd with h₀ | ⟨h₁, h₂⟩
      · have hpos := Nat.two_pow_pos (23 - s)
        omega
      · have h₄ : Nat.log 2 M.toNat = 4 := Nat.log_eq_of_pow_le_of_lt_pow h₁ h₂
        rw [Nat.log_eq_of_pow_le_of_lt_pow hlo hhi] at h₄
        omega
    intro i hi
    rcases List.mem_append.1 hi with hi | hi
    · obtain ⟨s, hs, rfl⟩ := List.mem_map.1 hi
      have hlt := List.mem_range.1 hs
      exact hlead s (by omega)
    · rcases List.mem_cons.1 hi with rfl | hi
      · rw [hodd, decide_eq_true_eq]
        unfold Defaulted at hd
        omega
      · obtain ⟨s, hs, rfl⟩ := List.mem_map.1 hi
        exact hlead s (by rintro rfl; simp at hs)
  · rw [if_neg hd, caseItems_eq, List.find?_append, find_leadItems hd (by simp; omega)]
    have hle := normShift_le M.toNat
    have h19 : normShift M.toNat ≠ 19 := fun h => by
      have hmul := mul_two_pow_normShift hd M.isLt
      rw [h] at hmul
      unfold Defaulted at hd
      omega
    by_cases hfst : normShift M.toNat < 19
    · rw [if_pos (List.mem_range.2 hfst)]
      rfl
    · rw [if_neg (by simpa using hfst), Option.none_or, List.find?_cons, hodd]
      -- a mantissa below 16 is none for the item between
      have hsmall : M.toNat < 2 ^ 4 := by
        by_contra hge
        have := normShift_le_of_le (Nat.le_of_not_lt hge)
        omega
      have hmem : normShift M.toNat ∈ [20, 21, 22, 23] := by
        simp only [List.mem_cons, List.not_mem_nil, or_false]
        omega
      rw [decide_eq_false (by omega), find_leadItems hd (by simp), if_pos hmem]

/-- **The normalised mantissa and its shift**, where no rounding is asked for. -/
theorem normalize_eq (M : BitVec 24) {MCarry realOper : Bool} (h : (MCarry && !realOper) = false) :
    (normalizeMandfindShift M MCarry realOper).1.toNat = normFrac M.toNat ∧
      (normalizeMandfindShift M MCarry realOper).2.toNat = normShift M.toNat := by
  have hle := normShift_le M.toNat
  unfold normalizeMandfindShift
  rw [h, if_neg Bool.false_ne_true, find_caseItems]
  by_cases hd : Defaulted M.toNat
  · rw [if_pos hd, normFrac_of_defaulted hd, normShift_of_defaulted hd]
    exact ⟨rfl, rfl⟩
  · have hmul := mul_two_pow_normShift hd M.isLt
    rw [if_neg hd]
    refine ⟨?_, ?_⟩
    · show ((M <<< normShift M.toNat).extractLsb' 0 23).toNat = _
      rw [BitVec.extractLsb'_toNat, BitVec.toNat_shiftLeft, Nat.shiftLeft_eq, hmul.1]
      omega
    · show (BitVec.ofNat 5 (normShift M.toNat)).toNat = _
      rw [BitVec.toNat_ofNat]
      omega

/-! ### Which mantissas are normalised -/

/-- The shift is the number of leading zeros, and the fraction behind its hidden bit is the shifted
mantissa. -/
def Normalised (M : BitVec 24) (out : BitVec 23 × BitVec 5) : Prop :=
  out.2.toNat = M.clz.toNat ∧ (1#1 ++ out.1 : BitVec 24) = M <<< out.2.toNat

instance (M : BitVec 24) (out : BitVec 23 × BitVec 5) : Decidable (Normalised M out) := by
  unfold Normalised
  infer_instance

lemma clz_bounds {M : BitVec 24} (hM : M ≠ 0) :
    M.clz.toNat < 24 ∧ 2 ^ (23 - M.clz.toNat) ≤ M.toNat ∧
      M.toNat < 2 ^ (23 - M.clz.toNat + 1) := by
  have hlt : M.clz.toNat < 24 := by
    have h := BitVec.clz_lt_iff_ne_zero.2 hM
    rwa [BitVec.lt_def] at h
  refine ⟨hlt, BitVec.two_pow_sub_clz_le_toNat_of_ne_zero (by omega) hM, ?_⟩
  rw [show 23 - M.clz.toNat + 1 = 24 - M.clz.toNat by omega]
  exact BitVec.toNat_lt_two_pow_sub_clz

lemma normShift_eq_clz {M : BitVec 24} (hd : ¬ Defaulted M.toNat) :
    normShift M.toNat = M.clz.toNat := by
  have hM : M ≠ 0 := fun h => hd (.inl (by rw [h]; rfl))
  obtain ⟨hlt, hlo, hhi⟩ := clz_bounds hM
  rw [normShift_eq hd hlo hhi]
  omega

/-- **Every mantissa but those from 16 to 31 is normalised**, where no rounding is asked for. -/
theorem normalised_iff {M : BitVec 24} (hM : M ≠ 0) {MCarry realOper : Bool}
    (h : (MCarry && !realOper) = false) :
    Normalised M (normalizeMandfindShift M MCarry realOper) ↔
      ¬ (16 ≤ M.toNat ∧ M.toNat < 32) := by
  obtain ⟨hfrac, hshift⟩ := normalize_eq M h
  constructor
  · rintro ⟨hclz, -⟩ ⟨hlo, hhi⟩
    -- nineteen leading zeros, and a shift of zero
    have hzero : normShift M.toNat = 0 := normShift_of_defaulted (.inr ⟨hlo, hhi⟩)
    obtain ⟨-, hle, -⟩ := clz_bounds hM
    rw [← hclz, hshift, hzero] at hle
    omega
  · intro hout
    have hd : ¬ Defaulted M.toNat := by
      rintro (h₀ | hin)
      · exact hM (BitVec.eq_of_toNat_eq h₀)
      · exact hout hin
    have hmul := mul_two_pow_normShift hd M.isLt
    refine ⟨hshift.trans (normShift_eq_clz hd), BitVec.eq_of_toNat_eq ?_⟩
    rw [toNat_append_eq, hfrac, hshift, BitVec.toNat_shiftLeft, Nat.shiftLeft_eq, hmul.1,
      Nat.mod_eq_of_lt (by omega)]
    rfl

theorem normalised_iff_fifteen :
    Normalised 15 (normalizeMandfindShift 15 false true) :=
  (@normalised_iff 15 (by decide) false true rfl).2 (by decide)

/-- Sixteen comes out with a shift and a fraction of zero, in place of a shift by 19. -/
theorem not_normalised_sixteen :
    ¬ ∀ (M : BitVec 24) (MCarry realOper : Bool), M ≠ 0 → (MCarry && !realOper) = false →
      Normalised M (normalizeMandfindShift M MCarry realOper) := by
  intro h
  have h16 := (h 16 false true (by decide) rfl).1
  revert h16
  decide

end PanTilt.Alu
