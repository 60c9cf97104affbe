import Mathlib.Algebra.Order.Field.Basic
import Mathlib.Order.Interval.Set.UnorderedInterval
import Mathlib.Tactic.FieldSimp
import Mathlib.Tactic.Linarith

/-!
Linear interpolation: the scale on which `b` is read as `lo` and `e` as `hi`, where `b` may be on
either side of `e`.
-/

namespace PanTilt.Lib.Interpolate

variable {K : Type*} [Field K] [LinearOrder K] [IsStrictOrderedRing K] {lo hi b e x y : K}

/-- The reading of `x`. -/
def interpolate (lo hi b e x : K) : K := lo + (x - b) / (e - b) * (hi - lo)

/-- The share of the way from `b` to `e` is within the way exactly when `x` is between them. -/
lemma share_mem_iff (hne : b ≠ e) :
    (x - b) / (e - b) ∈ Set.Icc 0 1 ↔ x ∈ Set.uIcc b e := by
  rcases lt_or_gt_of_ne hne with hlt | hgt
  · have hpos : 0 < e - b := sub_pos.2 hlt
    rw [Set.uIcc_of_le hlt.le, Set.mem_Icc, Set.mem_Icc, le_div_iff₀ hpos, div_le_iff₀ hpos,
      zero_mul, one_mul, sub_nonneg, sub_le_sub_iff_right]
  · have hneg : e - b < 0 := sub_neg.2 hgt
    rw [Set.uIcc_of_ge hgt.le, Set.mem_Icc, Set.mem_Icc, le_div_iff_of_neg hneg,
      div_le_iff_of_neg hneg, zero_mul, one_mul, sub_nonpos, sub_le_sub_iff_right, and_comm]

theorem interpolate_mem_iff (hlt : lo < hi) (hne : b ≠ e) :
    interpolate lo hi b e x ∈ Set.Icc lo hi ↔ x ∈ Set.uIcc b e := by
  have hpos : 0 < hi - lo := sub_pos.2 hlt
  rw [← share_mem_iff hne, interpolate]
  generalize (x - b) / (e - b) = r
  rw [Set.mem_Icc, Set.mem_Icc, le_add_iff_nonneg_right, mul_nonneg_iff_of_pos_right hpos]
  refine and_congr_right fun _ => ⟨fun h => ?_, fun h => ?_⟩
  · refine le_of_mul_le_mul_right ?_ hpos
    linarith
  · have := mul_le_mul_of_nonneg_right h hpos.le
    linarith

theorem interpolate_lt (hlt : lo < hi) (hbe : b < e) (hxy : x < y) :
    interpolate lo hi b e x < interpolate lo hi b e y := by
  have hpos : 0 < hi - lo := sub_pos.2 hlt
  have hshare : (x - b) / (e - b) < (y - b) / (e - b) :=
    div_lt_div_of_pos_right (sub_lt_sub_right hxy b) (sub_pos.2 hbe)
  exact (add_lt_add_iff_left lo).2 (mul_lt_mul_of_pos_right hshare hpos)

theorem interpolate_gt (hlt : lo < hi) (hbe : e < b) (hxy : x < y) :
    interpolate lo hi b e y < interpolate lo hi b e x := by
  have hpos : 0 < hi - lo := sub_pos.2 hlt
  have hshare : (y - b) / (e - b) < (x - b) / (e - b) :=
    (div_lt_div_right_of_neg (sub_neg.2 hbe)).2 (sub_lt_sub_right hxy b)
  exact (add_lt_add_iff_left lo).2 (mul_lt_mul_of_pos_right hshare hpos)

end PanTilt.Lib.Interpolate
