import Mathlib.Algebra.Order.Field.Basic
import Mathlib.Tactic.Linarith
import Mathlib.Tactic.Ring

/-!
The hexcone: hue, chroma and value of a color with three channels.

The hue is counted in sixths of a turn from red. It is turned by a third when the channels are
rotated (`hue_rotate`), it is kept by a common factor (`hue_mul`), and a range of hues around green
is a linear condition on the channels (`hue_mem_iff`).
-/

namespace PanTilt.Lib.Hexcone

variable {K : Type*}

/-! ### Largest and smallest channel -/

section Order

variable [LinearOrder K] {r g b : K}

/-- The largest channel. -/
def top (r g b : K) : K := max (max r g) b

/-- The smallest channel. -/
def bottom (r g b : K) : K := min (min r g) b

lemma le_top : r ≤ top r g b ∧ g ≤ top r g b ∧ b ≤ top r g b :=
  ⟨(le_max_left r g).trans (le_max_left _ b), (le_max_right r g).trans (le_max_left _ b),
    le_max_right _ b⟩

lemma bottom_le : bottom r g b ≤ r ∧ bottom r g b ≤ g ∧ bottom r g b ≤ b :=
  ⟨(min_le_left _ b).trans (min_le_left r g), (min_le_left _ b).trans (min_le_right r g),
    min_le_right _ b⟩

lemma top_eq : top r g b = r ∨ top r g b = g ∨ top r g b = b := by
  rcases max_choice (max r g) b with h | h
  · rcases max_choice r g with h' | h'
    · exact .inl (h.trans h')
    · exact .inr (.inl (h.trans h'))
  · exact .inr (.inr h)

lemma bottom_eq : bottom r g b = r ∨ bottom r g b = g ∨ bottom r g b = b := by
  rcases min_choice (min r g) b with h | h
  · rcases min_choice r g with h' | h'
    · exact .inl (h.trans h')
    · exact .inr (.inl (h.trans h'))
  · exact .inr (.inr h)

lemma top_rotate : top b r g = top r g b := by
  unfold top
  rw [max_assoc, max_comm]

lemma bottom_rotate : bottom b r g = bottom r g b := by
  unfold bottom
  rw [min_assoc, min_comm]

end Order

/-! ### Chroma and hue -/

variable [Field K] [LinearOrder K]

/-- How far the channels are apart. -/
def chroma (r g b : K) : K := top r g b - bottom r g b

/-- The chroma as a part of the largest channel. -/
def saturation (r g b : K) : K := if top r g b = 0 then 0 else chroma r g b / top r g b

/-- The hue in sixths of a turn; that of a gray is zero. -/
def hue (r g b : K) : K :=
  if chroma r g b = 0 then 0
  else if top r g b = r then (g - b) / chroma r g b + if g < b then 6 else 0
  else if top r g b = g then (b - r) / chroma r g b + 2
  else (r - g) / chroma r g b + 4

variable {r g b k : K}

lemma chroma_rotate : chroma b r g = chroma r g b := by
  rw [chroma, top_rotate, bottom_rotate, chroma]

lemma saturation_rotate : saturation b r g = saturation r g b := by
  rw [saturation, top_rotate, chroma_rotate, saturation]

variable [IsStrictOrderedRing K]

lemma top_mul (hk : 0 ≤ k) : top (k * r) (k * g) (k * b) = k * top r g b := by
  rw [top, ← mul_max_of_nonneg r g hk, ← mul_max_of_nonneg (max r g) b hk, top]

lemma bottom_mul (hk : 0 ≤ k) : bottom (k * r) (k * g) (k * b) = k * bottom r g b := by
  rw [bottom, ← mul_min_of_nonneg r g hk, ← mul_min_of_nonneg (min r g) b hk, bottom]

lemma chroma_mul (hk : 0 ≤ k) : chroma (k * r) (k * g) (k * b) = k * chroma r g b := by
  rw [chroma, top_mul hk, bottom_mul hk, ← mul_sub, chroma]

lemma chroma_nonneg : 0 ≤ chroma r g b :=
  sub_nonneg.mpr ((bottom_le (r := r) (g := g)).1.trans le_top.1)

lemma chroma_eq_zero : chroma r g b = 0 ↔ r = g ∧ g = b := by
  obtain ⟨hr, hg, hb⟩ := le_top (r := r) (g := g) (b := b)
  obtain ⟨hr', hg', hb'⟩ := bottom_le (r := r) (g := g) (b := b)
  unfold chroma
  constructor
  · intro h
    refine ⟨?_, ?_⟩ <;> linarith
  · rintro ⟨rfl, rfl⟩
    simp [top, bottom]

lemma chroma_pos (h : ¬ (r = g ∧ g = b)) : 0 < chroma r g b :=
  lt_of_le_of_ne chroma_nonneg (fun h0 => h (chroma_eq_zero.mp h0.symm))

lemma abs_sub_le_chroma :
    |g - b| ≤ chroma r g b ∧ |b - r| ≤ chroma r g b ∧ |r - g| ≤ chroma r g b := by
  obtain ⟨hr, hg, hb⟩ := le_top (r := r) (g := g) (b := b)
  obtain ⟨hr', hg', hb'⟩ := bottom_le (r := r) (g := g) (b := b)
  unfold chroma
  refine ⟨abs_le.mpr ⟨?_, ?_⟩, abs_le.mpr ⟨?_, ?_⟩, abs_le.mpr ⟨?_, ?_⟩⟩ <;> linarith

/-- Where two channels are the largest, the third one is the smallest. -/
lemma chroma_of_tie (h : ¬ (r = g ∧ g = b)) (hr : top r g b = r) (hb : top r g b = b) :
    chroma r g b = r - g ∧ g < r := by
  have hpos := chroma_pos h
  unfold chroma at hpos ⊢
  rcases bottom_eq (r := r) (g := g) (b := b) with h' | h' | h' <;> rw [h'] at hpos ⊢
  · exact absurd hr (sub_pos.mp hpos).ne'
  · exact ⟨by rw [hr], by linarith⟩
  · exact absurd hb (sub_pos.mp hpos).ne'

lemma saturation_range (hr : 0 ≤ r) (hg : 0 ≤ g) (hb : 0 ≤ b) :
    0 ≤ saturation r g b ∧ saturation r g b ≤ 1 := by
  have htop : 0 ≤ top r g b := hr.trans le_top.1
  have hbot : 0 ≤ bottom r g b := by
    rcases bottom_eq (r := r) (g := g) (b := b) with h | h | h <;> rwa [h]
  unfold saturation
  split
  · exact ⟨le_rfl, zero_le_one⟩
  · refine ⟨div_nonneg chroma_nonneg htop, div_le_one_of_le₀ ?_ htop⟩
    unfold chroma
    linarith

lemma saturation_mul (hk : 0 < k) : saturation (k * r) (k * g) (k * b) = saturation r g b := by
  have hzero : k * top r g b = 0 ↔ top r g b = 0 := by simp [hk.ne']
  simp only [saturation, top_mul hk.le, chroma_mul hk.le, hzero, mul_div_mul_left _ _ hk.ne']

/-! ### The sextants -/

lemma hue_gray (h : r = g ∧ g = b) : hue r g b = 0 := by
  rw [hue, if_pos (chroma_eq_zero.mpr h)]

lemma hue_red (h : ¬ (r = g ∧ g = b)) (hr : top r g b = r) :
    hue r g b = (g - b) / chroma r g b + if g < b then 6 else 0 := by
  rw [hue, if_neg (chroma_pos h).ne', if_pos hr]

lemma hue_green (h : ¬ (r = g ∧ g = b)) (hr : top r g b ≠ r) (hg : top r g b = g) :
    hue r g b = (b - r) / chroma r g b + 2 := by
  rw [hue, if_neg (chroma_pos h).ne', if_neg hr, if_pos hg]

lemma hue_blue (h : ¬ (r = g ∧ g = b)) (hr : top r g b ≠ r) (hg : top r g b ≠ g) :
    hue r g b = (r - g) / chroma r g b + 4 := by
  rw [hue, if_neg (chroma_pos h).ne', if_neg hr, if_neg hg]

lemma abs_div_chroma_le {d : K} (h : ¬ (r = g ∧ g = b)) (hd : |d| ≤ chroma r g b) :
    -1 ≤ d / chroma r g b ∧ d / chroma r g b ≤ 1 := by
  have hpos := chroma_pos h
  obtain ⟨hlow, hhigh⟩ := abs_le.mp hd
  refine ⟨?_, ?_⟩
  · rw [le_div_iff₀ hpos]
    linarith
  · rw [div_le_iff₀ hpos]
    linarith

theorem hue_range : 0 ≤ hue r g b ∧ hue r g b < 6 := by
  obtain ⟨hgb, hbr, hrg⟩ := abs_sub_le_chroma (r := r) (g := g) (b := b)
  by_cases h : r = g ∧ g = b
  · rw [hue_gray h]
    exact ⟨le_rfl, by norm_num⟩
  have hpos := chroma_pos h
  by_cases hr : top r g b = r
  · obtain ⟨hlow, hhigh⟩ := abs_div_chroma_le h hgb
    rw [hue_red h hr]
    split
    · next hlt =>
      have hneg : (g - b) / chroma r g b < 0 := div_neg_of_neg_of_pos (sub_neg.mpr hlt) hpos
      exact ⟨by linarith, by linarith⟩
    · next hge =>
      have hnonneg : 0 ≤ (g - b) / chroma r g b :=
        div_nonneg (sub_nonneg.mpr (not_lt.mp hge)) hpos.le
      exact ⟨by linarith, by linarith⟩
  · by_cases hg : top r g b = g
    · obtain ⟨hlow, hhigh⟩ := abs_div_chroma_le h hbr
      rw [hue_green h hr hg]
      exact ⟨by linarith, by linarith⟩
    · obtain ⟨hlow, hhigh⟩ := abs_div_chroma_le h hrg
      rw [hue_blue h hr hg]
      exact ⟨by linarith, by linarith⟩

theorem hue_rotate (h : ¬ (r = g ∧ g = b)) :
    hue b r g = hue r g b + 2 ∨ hue b r g = hue r g b - 4 := by
  have h' : ¬ (b = r ∧ r = g) := fun e => h ⟨e.2, (e.1.trans e.2).symm⟩
  have hpos := chroma_pos h
  by_cases hb : top r g b = b
  · rw [hue_red h' (top_rotate.trans hb), chroma_rotate]
    by_cases hr : top r g b = r
    · -- blue and red are the largest: the hue turns from five to one
      obtain ⟨hchroma, hlt⟩ := chroma_of_tie h hr hb
      have hgb : g - b = -chroma r g b := by rw [hchroma, ← hb, hr]; ring
      rw [hue_red h hr, if_neg (not_lt.mpr hlt.le), if_pos (by rwa [← hb, hr]), hgb, ← hchroma,
        neg_div, div_self hpos.ne']
      exact .inr (by norm_num)
    · by_cases hg : top r g b = g
      · -- green and blue are the largest: the hue turns from three to five
        obtain ⟨hchroma, hlt⟩ := chroma_of_tie h' (top_rotate.trans hb) (top_rotate.trans hg)
        rw [chroma_rotate] at hchroma
        have hrg : r - g = -chroma r g b := by rw [hchroma, ← hb, hg]; ring
        rw [hue_green h hr hg, if_pos (by rwa [← hb, hg] at hlt), hrg, ← hchroma,
          neg_div, div_self hpos.ne']
        exact .inl (by norm_num)
      · rw [hue_blue h hr hg]
        split
        · exact .inl (by ring)
        · exact .inr (by ring)
  · by_cases hr : top r g b = r
    · rw [hue_red h hr, hue_green h' (top_rotate.trans_ne hb) (top_rotate.trans hr), chroma_rotate]
      split
      · exact .inr (by ring)
      · exact .inl (by ring)
    · have hg : top r g b = g := by
        rcases top_eq (r := r) (g := g) (b := b) with e | e | e
        · exact absurd e hr
        · exact e
        · exact absurd e hb
      rw [hue_green h hr hg, hue_blue h' (top_rotate.trans_ne hb) (top_rotate.trans_ne hr),
        chroma_rotate]
      exact .inl (by ring)

theorem hue_mul (hk : 0 < k) : hue (k * r) (k * g) (k * b) = hue r g b := by
  have hzero : k * chroma r g b = 0 ↔ chroma r g b = 0 := by simp [hk.ne']
  simp only [hue, top_mul hk.le, chroma_mul hk.le, hzero, mul_right_inj' hk.ne',
    mul_lt_mul_iff_right₀ hk, ← mul_sub, mul_div_mul_left _ _ hk.ne']

/-- **The hues around green**: from some hue above one to three, green is the largest channel and
red is not too far above blue. -/
theorem hue_mem_iff {low : K} (hlow : 1 < low) : (low ≤ hue r g b ∧ hue r g b ≤ 3) ↔
    ¬ (r = g ∧ g = b) ∧ (r ≤ g ∧ b ≤ g) ∧ r - b ≤ (2 - low) * chroma r g b := by
  obtain ⟨hgb, hbr, hrg⟩ := abs_sub_le_chroma (r := r) (g := g) (b := b)
  obtain ⟨hr', hg', hb'⟩ := le_top (r := r) (g := g) (b := b)
  by_cases h : r = g ∧ g = b
  · rw [hue_gray h]
    refine iff_of_false ?_ (fun e => e.1 h)
    intro e
    linarith [e.1]
  have hpos := chroma_pos h
  by_cases hr : top r g b = r
  · -- the hue is at most one or at least five, and red is not too close to blue
    obtain ⟨hlow', hhigh'⟩ := abs_div_chroma_le h hgb
    refine iff_of_false ?_ ?_
    · intro e
      rw [hue_red h hr] at e
      split at e
      · linarith [e.2]
      · linarith [e.1]
    · rintro ⟨-, ⟨hrg', hbg⟩, hrb⟩
      have htie : r = g := le_antisymm hrg' (hr ▸ hg')
      obtain ⟨hchroma, -⟩ := chroma_of_tie (r := g) (g := b) (b := r)
        (fun e => h ⟨htie, e.1⟩) (by rw [← top_rotate, hr, htie]) (by rw [← top_rotate, hr])
      rw [← chroma_rotate] at hchroma
      nlinarith
  · by_cases hg : top r g b = g
    · obtain ⟨hlow', hhigh'⟩ := abs_div_chroma_le h hbr
      have hoff : low ≤ (b - r) / chroma r g b + 2 ↔ r - b ≤ (2 - low) * chroma r g b := by
        rw [← sub_le_iff_le_add, le_div_iff₀ hpos]
        constructor <;> intro e <;> linarith
      rw [hue_green h hr hg, hoff]
      refine ⟨fun e => ⟨h, ⟨hg ▸ hr', hg ▸ hb'⟩, e.1⟩, fun e => ⟨e.2.2, by linarith⟩⟩
    · -- blue is above green: the hue is above three
      have hb : top r g b = b := by
        rcases top_eq (r := r) (g := g) (b := b) with e | e | e
        · exact absurd e hr
        · exact absurd e hg
        · exact e
      have hlt : g < b := lt_of_le_of_ne (hb ▸ hg') (fun e => hg (hb.trans e.symm))
      have hoff : -1 < (r - g) / chroma r g b := by
        rw [lt_div_iff₀ hpos]
        linarith [(abs_le.mp hbr).2]
      rw [hue_blue h hr hg]
      refine iff_of_false (fun e => by linarith [e.2]) (fun e => ?_)
      exact absurd e.2.1.2 (not_le.mpr hlt)

end PanTilt.Lib.Hexcone
