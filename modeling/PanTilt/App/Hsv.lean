import Mathlib.Algebra.Order.Ring.Rat
import PanTilt.App.Config
import PanTilt.Lib.Hexcone

/-!
`rgb_to_hsv` of `green_mask.c`, in exact arithmetic: the color of a pixel as hue, saturation and
value.

It is the hexcone conversion (`rgbToHsv_eq`), wraps and ties included, so that the green test of
`green_mask_thread` on the hue is a linear condition on the channels (`hexcone_correct`).
-/

namespace PanTilt.App

open Lib.Hexcone

/-! ### The conversion -/

/-- What `rgb_to_hsv` stores through its pointers. -/
structure Hsv where
  h : ℚ
  s : ℚ
  v : ℚ

/-- The hue before the last wrap, for the normalized channels and their chroma. -/
def branchHue (fr fg fb delta : ℚ) : ℚ :=
  if delta = 0 then 0
  else if max (max fr fg) fb = fr then
    let tempH := (fg - fb) / delta
    60 * (if tempH < 0 then tempH + 6 else tempH)
  else if max (max fr fg) fb = fg then 60 * ((fb - fr) / delta + 2)
  else 60 * ((fr - fg) / delta + 4)

/-- `rgb_to_hsv`. -/
def rgbToHsv (r g b : ℚ) : Hsv :=
  let fr := r / 255
  let fg := g / 255
  let fb := b / 255
  let most := max (max fr fg) fb
  let least := min (min fr fg) fb
  let delta := most - least
  let h := branchHue fr fg fb delta
  { h := if h < 0 then h + 360 else h
    s := if most = 0 then 0 else delta / most
    v := most }

/-- The values of a channel. -/
def channel : Set ℚ := Set.Icc 0 255

/-- `h >= GREEN_H_MIN && h <= GREEN_H_MAX`. -/
def GreenHue (p : Hsv) : Prop := p.h ≥ GREEN_H_MIN ∧ p.h ≤ GREEN_H_MAX

/-- The test of `green_mask_thread`. -/
def Green (p : Hsv) : Prop := GreenHue p ∧ p.s ≥ GREEN_S_MIN ∧ p.v ≥ GREEN_V_MIN

instance (p : Hsv) : Decidable (GreenHue p) := inferInstanceAs (Decidable (_ ∧ _))

instance (p : Hsv) : Decidable (Green p) := inferInstanceAs (Decidable (_ ∧ _))

/-! ### The hexcone -/

lemma branchHue_eq (fr fg fb : ℚ) : branchHue fr fg fb (chroma fr fg fb) = 60 * hue fr fg fb := by
  by_cases h : fr = fg ∧ fg = fb
  · rw [branchHue, if_pos (chroma_eq_zero.mpr h), hue_gray h, mul_zero]
  have hpos := chroma_pos h
  rw [branchHue, if_neg hpos.ne', ← top]
  by_cases hr : top fr fg fb = fr
  · have hneg : (fg - fb) / chroma fr fg fb < 0 ↔ fg < fb := by
      rw [div_lt_iff₀ hpos, zero_mul, sub_neg]
    rw [if_pos hr, hue_red h hr]
    simp only [hneg]
    split
    · rfl
    · rw [add_zero]
  · rw [if_neg hr]
    by_cases hg : top fr fg fb = fg
    · rw [if_pos hg, hue_green h hr hg]
    · rw [if_neg hg, hue_blue h hr hg]

theorem rgbToHsv_eq (r g b : ℚ) :
    rgbToHsv r g b =
      { h := 60 * hue r g b
        s := saturation r g b
        v := top r g b / 255 } := by
  have hdiv : ∀ x : ℚ, x / 255 = (1 / 255) * x := fun x => by ring
  have hk : (0 : ℚ) < 1 / 255 := by norm_num
  have hhue := branchHue_eq (r / 255) (g / 255) (b / 255)
  have hrange := (hue_range (r := r) (g := g) (b := b)).1
  have hscale : hue (r / 255) (g / 255) (b / 255) = hue r g b := by
    rw [hdiv r, hdiv g, hdiv b, hue_mul hk]
  have hsat : saturation (r / 255) (g / 255) (b / 255) = saturation r g b := by
    rw [hdiv r, hdiv g, hdiv b, saturation_mul hk]
  have htop : top (r / 255) (g / 255) (b / 255) = top r g b / 255 := by
    rw [hdiv r, hdiv g, hdiv b, top_mul hk.le, ← hdiv]
  have hfields : rgbToHsv r g b =
      let h := branchHue (r / 255) (g / 255) (b / 255) (chroma (r / 255) (g / 255) (b / 255))
      { h := if h < 0 then h + 360 else h
        s := saturation (r / 255) (g / 255) (b / 255)
        v := top (r / 255) (g / 255) (b / 255) } := rfl
  rw [hfields, hhue, hscale, hsat, htop]
  simp only
  rw [if_neg (by linarith)]

/-- **The conversion of a pixel.** The hue is in one turn, the saturation in the unit interval, and
the value is the largest channel; rotating the channels turns the hue by a third of a turn and
scaling them keeps it; and the green test on the hue is true exactly when the pixel is not gray,
green is a largest channel, and red is above blue by at most half the chroma. -/
theorem hexcone_correct {r g b : ℚ} (hr : r ∈ channel) (hg : g ∈ channel) (hb : b ∈ channel) :
    (0 ≤ (rgbToHsv r g b).h ∧ (rgbToHsv r g b).h < 360) ∧
      (0 ≤ (rgbToHsv r g b).s ∧ (rgbToHsv r g b).s ≤ 1) ∧
      (rgbToHsv r g b).v = max (max r g) b / 255 ∧
      (¬ (r = g ∧ g = b) → (rgbToHsv b r g).h = (rgbToHsv r g b).h + 120 ∨
        (rgbToHsv b r g).h = (rgbToHsv r g b).h + 120 - 360) ∧
      (rgbToHsv b r g).s = (rgbToHsv r g b).s ∧ (rgbToHsv b r g).v = (rgbToHsv r g b).v ∧
      (∀ k : ℚ, 0 < k → k * r ∈ channel → k * g ∈ channel → k * b ∈ channel →
        (rgbToHsv (k * r) (k * g) (k * b)).h = (rgbToHsv r g b).h ∧
          (rgbToHsv (k * r) (k * g) (k * b)).s = (rgbToHsv r g b).s) ∧
      (GreenHue (rgbToHsv r g b) ↔ ¬ (r = g ∧ g = b) ∧ (r ≤ g ∧ b ≤ g) ∧
        2 * (r - b) ≤ max (max r g) b - min (min r g) b) := by
  have hmin : GREEN_H_MIN = 90 := by norm_num [GREEN_H_MIN]
  have hmax : GREEN_H_MAX = 180 := by norm_num [GREEN_H_MAX]
  simp only [GreenHue, hmin, hmax, rgbToHsv_eq, top_rotate, saturation_rotate]
  obtain ⟨hlow, hhigh⟩ := hue_range (r := r) (g := g) (b := b)
  refine ⟨⟨by linarith, by linarith⟩, saturation_range hr.1 hg.1 hb.1, rfl, ?_, trivial, trivial,
    ?_, ?_⟩
  · intro h
    rcases hue_rotate h with h' | h' <;> rw [h']
    · exact .inl (by ring)
    · exact .inr (by ring)
  · intro k hk _ _ _
    exact ⟨by rw [hue_mul hk], saturation_mul hk⟩
  · have hgreen := hue_mem_iff (r := r) (g := g) (b := b) (show (1 : ℚ) < 3 / 2 by norm_num)
    have hlinear : r - b ≤ (2 - 3 / 2) * chroma r g b ↔ 2 * (r - b) ≤ chroma r g b := by
      constructor <;> intro e <;> linarith
    rw [hlinear] at hgreen
    refine Iff.trans ?_ hgreen
    constructor <;> rintro ⟨e, e'⟩ <;> exact ⟨by linarith, by linarith⟩

theorem hexcone_correct_edge : GreenHue (rgbToHsv 100 200 0) ∧
    (rgbToHsv (1 / 2 * 100) (1 / 2 * 200) (1 / 2 * 0)).h = (rgbToHsv 100 200 0).h := by
  have h := hexcone_correct (r := 100) (g := 200) (b := 0) ⟨by norm_num, by norm_num⟩
    ⟨by norm_num, by norm_num⟩ ⟨by norm_num, by norm_num⟩
  obtain ⟨-, -, -, -, -, -, hscale, hgreen⟩ := h
  refine ⟨hgreen.mpr ⟨by norm_num, ⟨by norm_num, by norm_num⟩, by norm_num⟩, ?_⟩
  exact (hscale (1 / 2) (by norm_num) ⟨by norm_num, by norm_num⟩ ⟨by norm_num, by norm_num⟩
    ⟨by norm_num, by norm_num⟩).1

end PanTilt.App
