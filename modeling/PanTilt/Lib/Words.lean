import Mathlib.Tactic.Common
import Mathlib.Data.List.GetD
import Mathlib.Data.List.Induction

/-!
Words as bits, most significant first: shifting a list of bits into a word, the bits of a word,
and the complete groups of `w` bits of a list.
-/

namespace PanTilt.Lib.Words

variable {w : ℕ}

/-! ### Shifting bits into a word -/

/-- The word after shifting in the bits of a list, one after the other, from the right. -/
def shiftAll (v : BitVec w) (bits : List Bool) : BitVec w := bits.foldl BitVec.shiftConcat v

@[simp] lemma shiftAll_nil (v : BitVec w) : shiftAll v [] = v := rfl

@[simp] lemma shiftAll_append (v : BitVec w) (bs cs : List Bool) :
    shiftAll v (bs ++ cs) = shiftAll (shiftAll v bs) cs := List.foldl_append

@[simp] lemma shiftAll_singleton (v : BitVec w) (b : Bool) : shiftAll v [b] = v.shiftConcat b := rfl

lemma getLsbD_shiftConcat (v : BitVec w) (b : Bool) (i : ℕ) :
    (v.shiftConcat b).getLsbD i = (decide (i < w) && if i = 0 then b else v.getLsbD (i - 1)) := by
  unfold BitVec.shiftConcat
  rw [BitVec.getLsbD_setWidth, BitVec.getLsbD_concat]

theorem getLsbD_shiftAll (v : BitVec w) (bits : List Bool) (i : ℕ) :
    (shiftAll v bits).getLsbD i = (decide (i < w) &&
      if i < bits.length then bits.getD (bits.length - 1 - i) false
      else v.getLsbD (i - bits.length)) := by
  induction bits using List.reverseRecOn generalizing i with
  | nil =>
    simp only [shiftAll_nil, List.length_nil, Nat.not_lt_zero, if_false, Nat.sub_zero]
    by_cases h : i < w
    · simp [h]
    · simp [h, BitVec.getLsbD_of_ge v i (by omega)]
  | append_singleton bits b ih =>
    rw [shiftAll_append, shiftAll_singleton, getLsbD_shiftConcat, List.length_append,
      List.length_singleton]
    by_cases hw : i < w
    · rcases Nat.eq_zero_or_pos i with rfl | hi
      · simp [hw]
      · rw [if_neg (by omega), ih]
        by_cases hl : i - 1 < bits.length
        · rw [if_pos hl, if_pos (by omega), List.getD_append _ _ _ _ (by omega),
            show bits.length + 1 - 1 - i = bits.length - 1 - (i - 1) by omega]
          simp [hw, show i - 1 < w by omega]
        · rw [if_neg hl, if_neg (by omega),
            show i - 1 - bits.length = i - (bits.length + 1) by omega]
          simp [hw, show i - 1 < w by omega]
    · simp [hw]

theorem getMsbD_shiftAll (v : BitVec w) {bits : List Bool} (h : bits.length < w) :
    (shiftAll v bits).getMsbD 0 = v.getMsbD bits.length := by
  rw [BitVec.getMsbD_eq_getLsbD, BitVec.getMsbD_eq_getLsbD, getLsbD_shiftAll, if_neg (by omega),
    show w - 1 - 0 - bits.length = w - 1 - bits.length by omega]
  simp [h, show 0 < w by omega, show w - 1 < w by omega]

theorem shiftAll_congr (u v : BitVec w) {bits : List Bool} (h : w ≤ bits.length) :
    shiftAll u bits = shiftAll v bits := by
  apply BitVec.eq_of_getLsbD_eq
  intro i hi
  rw [getLsbD_shiftAll, getLsbD_shiftAll, if_pos (by omega), if_pos (by omega)]

/-- The word of a group of bits, the first bit highest. -/
def wordOf (w : ℕ) (bits : List Bool) : BitVec w := shiftAll 0 bits

theorem shiftAll_eq_wordOf (v : BitVec w) (bs : List Bool) {cs : List Bool} (h : w ≤ cs.length) :
    shiftAll v (bs ++ cs) = wordOf w cs := by
  rw [shiftAll_append]
  exact shiftAll_congr _ _ h

/-! ### The bits of a word -/

/-- The bits of a word, the highest first. -/
def bitsOf (v : BitVec w) : List Bool := List.ofFn fun i : Fin w => v.getMsbD i

@[simp] lemma length_bitsOf (v : BitVec w) : (bitsOf v).length = w := by simp [bitsOf]

lemma getD_bitsOf (v : BitVec w) (i : ℕ) : (bitsOf v).getD i false = v.getMsbD i := by
  rcases Nat.lt_or_ge i w with h | h
  · rw [List.getD_eq_getElem _ _ (by simpa using h)]
    simp [bitsOf]
  · rw [List.getD_eq_default _ _ (by simpa using h), BitVec.getMsbD_of_ge v i h]

lemma map_range_eq_bitsOf {v : BitVec w} {f : ℕ → Bool} (h : ∀ i < w, f i = v.getMsbD i) :
    (List.range w).map f = bitsOf v := by
  apply List.ext_getElem (by simp)
  intro i h₁ h₂
  have hi : i < w := by simpa using h₁
  rw [← List.getD_eq_getElem _ false h₂, getD_bitsOf, ← h i hi]
  simp

@[simp] theorem shiftAll_bitsOf (u v : BitVec w) : shiftAll u (bitsOf v) = v := by
  apply BitVec.eq_of_getLsbD_eq
  intro i hi
  rw [getLsbD_shiftAll, length_bitsOf, if_pos hi, getD_bitsOf, BitVec.getMsbD_eq_getLsbD,
    show w - 1 - (w - 1 - i) = i by omega]
  simp [hi, show w - 1 - i < w by omega]

theorem wordOf_bitsOf (v : BitVec w) : wordOf w (bitsOf v) = v := shiftAll_bitsOf 0 v

theorem bitsOf_wordOf {bits : List Bool} (h : bits.length = w) : bitsOf (wordOf w bits) = bits := by
  apply List.ext_getElem (by rw [length_bitsOf, h])
  intro i h₁ h₂
  have hi : i < w := h ▸ h₂
  rw [← List.getD_eq_getElem _ false h₁, getD_bitsOf, BitVec.getMsbD_eq_getLsbD, wordOf,
    getLsbD_shiftAll, h, if_pos (by omega), show w - 1 - (w - 1 - i) = i by omega]
  simp [hi, h₂, show w - 1 - i < w by omega]

theorem bitsOf_append {v : ℕ} (x : BitVec w) (y : BitVec v) :
    bitsOf (x ++ y) = bitsOf x ++ bitsOf y := by
  apply List.ext_getElem (by simp)
  intro i h₁ h₂
  rw [← List.getD_eq_getElem _ false h₁, ← List.getD_eq_getElem _ false h₂, getD_bitsOf,
    BitVec.getMsbD_append]
  by_cases h : i < w
  · rw [if_neg (by omega), List.getD_append _ _ _ _ (by simpa using h), getD_bitsOf]
  · rw [if_pos (by omega), List.getD_append_right _ _ _ _ (by simpa using h), length_bitsOf,
      getD_bitsOf]

/-! ### Complete groups -/

/-- A list of bits cut into groups of `w` from its start, without the last incomplete one. -/
def groups (w : ℕ) (bits : List Bool) : List (List Bool) :=
  (List.range (bits.length / w)).map fun k => (bits.drop (k * w)).take w

@[simp] lemma groups_nil : groups w [] = [] := by simp [groups]

lemma group_end_le {n k : ℕ} (h : k < n / w) : k * w + w ≤ n := by
  rw [← Nat.add_one_mul]
  exact Nat.le_trans (Nat.mul_le_mul_right w h) (Nat.div_mul_le_self n w)

lemma succ_mod_eq_zero (hw : 0 < w) (n : ℕ) : (n + 1) % w = 0 ↔ n % w = w - 1 := by
  rw [← Nat.mod_add_mod]
  have hlt := Nat.mod_lt n hw
  rcases Nat.lt_or_ge (n % w + 1) w with h | h
  · rw [Nat.mod_eq_of_lt h]
    omega
  · rw [show n % w + 1 = w by omega, Nat.mod_self]
    omega

theorem groups_append_of_ne (bits : List Bool) (b : Bool) (h : (bits.length + 1) % w ≠ 0) :
    groups w (bits ++ [b]) = groups w bits := by
  have hd : (bits.length + 1) / w = bits.length / w := by
    rw [Nat.succ_div, if_neg (fun hdvd => h (Nat.mod_eq_zero_of_dvd hdvd))]
    rfl
  unfold groups
  rw [List.length_append, List.length_singleton, hd]
  apply List.map_congr_left
  intro k hk
  have hmul := group_end_le (List.mem_range.1 hk)
  rw [List.drop_append_of_le_length (by omega),
    List.take_append_of_le_length (by rw [List.length_drop]; omega)]

theorem groups_append_of_eq (hw : 0 < w) (bits : List Bool) (b : Bool)
    (h : (bits.length + 1) % w = 0) :
    groups w (bits ++ [b]) = groups w bits ++ [(bits ++ [b]).drop (bits.length + 1 - w)] := by
  have hdvd : w ∣ bits.length + 1 := Nat.dvd_of_mod_eq_zero h
  have hd : (bits.length + 1) / w = bits.length / w + 1 := by rw [Nat.succ_div, if_pos hdvd]
  have hlast : bits.length / w * w = bits.length + 1 - w := by
    have := Nat.div_mul_cancel hdvd
    rw [hd, Nat.add_one_mul] at this
    omega
  have hle : w ≤ bits.length + 1 := Nat.le_of_dvd (by omega) hdvd
  unfold groups
  rw [List.length_append, List.length_singleton, hd, List.range_succ, List.map_append]
  congr 1
  · apply List.map_congr_left
    intro k hk
    have hmul := group_end_le (List.mem_range.1 hk)
    rw [List.drop_append_of_le_length (by omega),
      List.take_append_of_le_length (by rw [List.length_drop]; omega)]
  · rw [List.map_singleton, hlast, List.take_of_length_le]
    rw [List.length_drop, List.length_append, List.length_singleton]
    omega

theorem groups_append (hw : 0 < w) {as : List Bool} (h : w ∣ as.length) (bs : List Bool) :
    groups w (as ++ bs) = groups w as ++ groups w bs := by
  induction bs using List.reverseRecOn with
  | nil => simp
  | append_singleton bs b ih =>
    have hmod : (as ++ bs).length % w = bs.length % w := by
      obtain ⟨q, hq⟩ := h
      rw [List.length_append, hq, Nat.mul_add_mod]
    have hfull : ((as ++ bs).length + 1) % w = 0 ↔ (bs.length + 1) % w = 0 := by
      rw [succ_mod_eq_zero hw, succ_mod_eq_zero hw, hmod]
    rw [← List.append_assoc]
    by_cases hb : (bs.length + 1) % w = 0
    · have hle : w ≤ bs.length + 1 := Nat.le_of_dvd (by omega) (Nat.dvd_of_mod_eq_zero hb)
      rw [groups_append_of_eq hw _ b (hfull.2 hb), groups_append_of_eq hw _ b hb, ih,
        List.append_assoc, List.append_assoc,
        show (as ++ bs).length + 1 - w = as.length + (bs.length + 1 - w) by
          rw [List.length_append]; omega, List.drop_append]
      simp
    · rw [groups_append_of_ne _ b (mt hfull.1 hb), groups_append_of_ne _ b hb, ih]

lemma groups_of_length (hw : 0 < w) {bits : List Bool} (h : bits.length = w) :
    groups w bits = [bits] := by
  rw [groups, h, Nat.div_self hw]
  simp [List.take_of_length_le (Nat.le_of_eq h)]

/-- **Groups of groups**: cutting into groups of `m * w` bits first, and each of them into groups of
`w`, loses nothing if the large groups are complete. -/
theorem groups_mul {m : ℕ} (hw : 0 < w) (hm : 0 < m) {bits : List Bool}
    (h : m * w ∣ bits.length) : groups w bits = (groups (m * w) bits).flatMap (groups w) := by
  obtain ⟨q, hq⟩ := h
  induction q generalizing bits with
  | zero =>
    obtain rfl : bits = [] := List.length_eq_zero_iff.1 hq
    simp
  | succ q ih =>
    have hpos := Nat.mul_pos hm hw
    have hlength : (bits.take (m * w)).length = m * w := by
      rw [List.length_take, hq]
      exact Nat.min_eq_left (Nat.le_mul_of_pos_right _ (Nat.succ_pos q))
    have hrest : (bits.drop (m * w)).length = m * w * q := by
      rw [List.length_drop, hq, Nat.mul_succ, Nat.add_sub_cancel]
    have hcut := List.take_append_drop (m * w) bits
    rw [← hcut, groups_append hw (by rw [hlength]; exact Nat.dvd_mul_left w m),
      groups_append hpos ⟨1, by rw [hlength, Nat.mul_one]⟩, groups_of_length hpos hlength,
      List.flatMap_append,
      List.flatMap_singleton, ih hrest]

lemma length_of_mem_groups {bits g : List Bool} (hg : g ∈ groups w bits) : g.length = w := by
  obtain ⟨k, hk, rfl⟩ := List.mem_map.1 hg
  have hend := group_end_le (List.mem_range.1 hk)
  rw [List.length_take, List.length_drop]
  omega

theorem wordOf_append {v : ℕ} {as bs : List Bool} (ha : as.length = w) (hb : bs.length = v) :
    wordOf (w + v) (as ++ bs) = wordOf w as ++ wordOf v bs := by
  apply BitVec.eq_of_getLsbD_eq
  intro i hi
  rw [BitVec.getLsbD_append]
  unfold wordOf
  rw [getLsbD_shiftAll, getLsbD_shiftAll, getLsbD_shiftAll, List.length_append, ha, hb,
    if_pos hi]
  by_cases hv : i < v
  · rw [if_pos hv, if_pos hv, List.getD_append_right _ _ _ _ (by omega),
      show w + v - 1 - i - as.length = v - 1 - i by omega]
    simp [hi, hv]
  · rw [if_neg hv, if_pos (by omega), List.getD_append _ _ _ _ (by omega),
      show w + v - 1 - i = w - 1 - (i - v) by omega]
    simp [hi, show i - v < w by omega]

end PanTilt.Lib.Words
