import PanTilt.Lib.Grid
import PanTilt.Lib.Morphology

/-!
`green_mask.c`, the two passes that clean the green mask: `erode_mask` from the mask into the
temporary buffer and `dilate_mask` back.

`opening_correct` says what the mask is then: the white pixels are those of the white 3x3 blocks
of the input, less the border of the frame.
-/

namespace PanTilt.App

open Lib.Grid Lib.Morphology

variable {H W : ℕ}

/-- A buffer `uint8_t mask[HEIGHT][WIDTH]`; zero is black. -/
abbrev Mask (H W : ℕ) := Pixel H W → BitVec 8

/-! ### The passes -/

/-- `1 <= y < HEIGHT-1` and `1 <= x < WIDTH-1`: no neighbour is outside the frame. -/
def Inner (p : Pixel H W) : Prop :=
  (1 ≤ p.1.val ∧ p.1.val + 1 < H) ∧ 1 ≤ p.2.val ∧ p.2.val + 1 < W

instance (p : Pixel H W) : Decidable (Inner p) := inferInstanceAs (Decidable (_ ∧ _))

/-- The pixels of the loops over `y` and `x`. -/
def innerPixels (H W : ℕ) : List (Pixel H W) := (scan H W).filter (fun p => Inner p)

/-- The pixels of the loops over `dy` and `dx`. -/
def window (p : Pixel H W) : List (Pixel H W) :=
  [(-1, -1), (-1, 0), (-1, 1), (0, -1), (0, 0), (0, 1), (1, -1), (1, 0), (1, 1)].filterMap
    fun d : ℤ × ℤ => pixel H W (p.1 + d.1) (p.2 + d.2)

/-- The pixels of the loops that set the edges. -/
def edgePixels (H W : ℕ) : List (Pixel H W) :=
  (List.range W).flatMap (fun x : ℕ =>
    (pixel H W 0 x).toList ++ (pixel H W ((H : ℤ) - 1) x).toList) ++
  (List.range H).flatMap (fun y : ℕ =>
    (pixel H W y 0).toList ++ (pixel H W y ((W : ℤ) - 1)).toList)

/-- `keep` at `done_check`. -/
def keepPixel (mask : Mask H W) : List (Pixel H W) → BitVec 8
  | [] => 1
  | q :: qs => if mask q = 0 then 0 else keepPixel mask qs

/-- `set` at `done_check`. -/
def setPixel (mask : Mask H W) : List (Pixel H W) → BitVec 8
  | [] => 0
  | q :: qs => if mask q ≠ 0 then 1 else setPixel mask qs

/-- What `temp` is after `erode_mask`. -/
def erodeMask (mask temp : Mask H W) : Mask H W :=
  store (edgePixels H W) (fun _ => 0)
    (store (innerPixels H W) (fun p => keepPixel mask (window p)) temp)

/-- What `temp` is after `dilate_mask`. -/
def dilateMask (mask temp : Mask H W) : Mask H W :=
  store (edgePixels H W) (fun _ => 0)
    (store (innerPixels H W) (fun p => setPixel mask (window p)) temp)

/-- The two buffers of `green_mask_thread`. -/
structure MaskBuffers (H W : ℕ) where
  greenMask : Mask H W
  tempMask : Mask H W

/-- `erode_mask(green_mask, temp_mask)` and `dilate_mask(temp_mask, green_mask)`. -/
def openMask (b : MaskBuffers H W) : MaskBuffers H W :=
  let temp := erodeMask b.greenMask b.tempMask
  { greenMask := dilateMask temp b.greenMask
    tempMask := temp }

/-! ### What a pass stores -/

/-- Within one row and one column. -/
def Near (c p : Pixel H W) : Prop :=
  (c.1.val ≤ p.1.val + 1 ∧ p.1.val ≤ c.1.val + 1) ∧
    c.2.val ≤ p.2.val + 1 ∧ p.2.val ≤ c.2.val + 1

lemma Near.refl (c : Pixel H W) : Near c c := by
  refine ⟨⟨?_, ?_⟩, ?_, ?_⟩ <;> omega

lemma Near.symm {c p : Pixel H W} (h : Near c p) : Near p c := by
  obtain ⟨⟨h₁, h₂⟩, h₃, h₄⟩ := h
  exact ⟨⟨h₂, h₁⟩, h₄, h₃⟩

lemma mem_window {c p : Pixel H W} : p ∈ window c ↔ Near c p := by
  simp only [window, List.mem_filterMap, List.mem_cons, List.not_mem_nil, or_false, Prod.exists,
    Prod.mk.injEq, pixel_eq_some]
  refine ⟨?_, ?_⟩
  · rintro ⟨dy, dx, hd, hy, hx⟩
    refine ⟨⟨?_, ?_⟩, ?_, ?_⟩ <;> omega
  · rintro ⟨⟨h₁, h₂⟩, h₃, h₄⟩
    refine ⟨p.1 - c.1, p.2 - c.2, ?_, ?_, ?_⟩ <;> omega

@[simp] lemma mem_innerPixels {p : Pixel H W} : p ∈ innerPixels H W ↔ Inner p := by
  simp [innerPixels]

@[simp] lemma mem_edgePixels {p : Pixel H W} : p ∈ edgePixels H W ↔ ¬ Inner p := by
  obtain ⟨⟨y, hy⟩, ⟨x, hx⟩⟩ := p
  simp only [edgePixels, List.mem_append, List.mem_flatMap, List.mem_range, Option.mem_toList,
    pixel_eq_some, Inner]
  refine ⟨?_, ?_⟩
  · rintro (⟨a, ha, h⟩ | ⟨a, ha, h⟩) <;> omega
  · intro h
    by_cases hy' : 1 ≤ y ∧ y + 1 < H
    · exact .inr ⟨y, hy, by omega⟩
    · exact .inl ⟨x, hx, by omega⟩

lemma keepPixel_eq (mask : Mask H W) (qs : List (Pixel H W)) :
    keepPixel mask qs = if ∀ q ∈ qs, mask q ≠ 0 then 1 else 0 := by
  induction qs with
  | nil => simp only [keepPixel, List.not_mem_nil, false_implies, implies_true, if_true]
  | cons q qs ih =>
    simp only [keepPixel, ih, List.forall_mem_cons]
    by_cases hq : mask q = 0
    · rw [if_pos hq, if_neg (fun h => h.1 hq)]
    · simp only [hq, if_false, ne_eq, not_false_eq_true, true_and]

lemma setPixel_eq (mask : Mask H W) (qs : List (Pixel H W)) :
    setPixel mask qs = if ∃ q ∈ qs, mask q ≠ 0 then 1 else 0 := by
  induction qs with
  | nil => simp only [setPixel, List.not_mem_nil, false_and, exists_false, if_false]
  | cons q qs ih =>
    simp only [setPixel, ih, List.exists_mem_cons_iff]
    by_cases hq : mask q = 0
    · simp only [hq, ne_eq, not_true_eq_false, if_false, false_or]
    · rw [if_pos hq, if_pos (.inl hq)]

/-- A pass over the inner pixels and the edges leaves nothing of the buffer. -/
lemma store_edge_inner (value : Pixel H W → BitVec 8) (temp : Mask H W) (p : Pixel H W) :
    store (edgePixels H W) (fun _ => 0) (store (innerPixels H W) value temp) p =
      if Inner p then value p else 0 := by
  simp only [store_apply, mem_edgePixels, mem_innerPixels]
  by_cases hp : Inner p
  · simp only [hp, not_true_eq_false, if_true, if_false]
  · simp only [hp, not_false_eq_true, if_true, if_false]

open Classical in
theorem erodeMask_apply (mask temp : Mask H W) (p : Pixel H W) :
    erodeMask mask temp p = if Inner p ∧ ∀ q, Near p q → mask q ≠ 0 then 1 else 0 := by
  rw [erodeMask, store_edge_inner, keepPixel_eq]
  by_cases hp : Inner p
  · simp only [hp, mem_window, if_true, true_and]
  · simp only [hp, if_false, false_and]

open Classical in
theorem dilateMask_apply (mask temp : Mask H W) (p : Pixel H W) :
    dilateMask mask temp p = if Inner p ∧ ∃ q, Near p q ∧ mask q ≠ 0 then 1 else 0 := by
  rw [dilateMask, store_edge_inner, setPixel_eq]
  by_cases hp : Inner p
  · simp only [hp, mem_window, if_true, true_and]
  · simp only [hp, if_false, false_and]

/-! ### The opening -/

/-- The pixels that are not black. -/
def white (mask : Mask H W) : Set (Pixel H W) := {p | mask p ≠ 0}

lemma white_erodeMask (mask temp : Mask H W) :
    white (erodeMask mask temp) = erode Near (white mask) ∩ {p | Inner p} := by
  ext p
  have hmem : erodeMask mask temp p ≠ 0 ↔ Inner p ∧ ∀ q, Near p q → mask q ≠ 0 := by
    rw [erodeMask_apply]
    split
    next h => exact iff_of_true (by decide) h
    next h => exact iff_of_false (fun hne => hne rfl) h
  exact hmem.trans and_comm

lemma white_dilateMask (mask temp : Mask H W) :
    white (dilateMask mask temp) = dilate Near (white mask) ∩ {p | Inner p} := by
  ext p
  have hmem : dilateMask mask temp p ≠ 0 ↔ Inner p ∧ ∃ q, Near p q ∧ mask q ≠ 0 := by
    rw [dilateMask_apply]
    split
    next h => exact iff_of_true (by decide) h
    next h => exact iff_of_false (fun hne => hne rfl) h
  have hnear : (∃ q, Near p q ∧ mask q ≠ 0) ↔ ∃ c, mask c ≠ 0 ∧ Near c p :=
    ⟨fun ⟨q, hq, h⟩ => ⟨q, h, hq.symm⟩, fun ⟨c, h, hc⟩ => ⟨c, hc.symm, h⟩⟩
  rw [hnear] at hmem
  exact hmem.trans and_comm

lemma white_openMask (b : MaskBuffers H W) :
    white (openMask b).greenMask = openingIn Near {p | Inner p} (white b.greenMask) := by
  rw [openingIn, ← white_erodeMask _ b.tempMask, ← white_dilateMask _ b.greenMask]
  rfl

open Classical in
lemma openMask_apply (b : MaskBuffers H W) (p : Pixel H W) :
    (openMask b).greenMask p =
      if p ∈ openingIn Near {p | Inner p} (white b.greenMask) then 1 else 0 := by
  rw [← white_openMask]
  have hbit : (openMask b).greenMask p = 0 ∨ (openMask b).greenMask p = 1 := by
    rw [show (openMask b).greenMask p =
      dilateMask (openMask b).tempMask b.greenMask p from rfl, dilateMask_apply]
    split
    · exact .inr rfl
    · exact .inl rfl
  rcases hbit with h | h
  · have hp : p ∉ white (openMask b).greenMask := fun hne => hne h
    rw [h, if_neg hp]
  · have hp : p ∈ white (openMask b).greenMask := by
      intro h0
      rw [h] at h0
      exact absurd h0 (by decide)
    rw [h, if_pos hp]

/-- The 3x3 block from row `y` and column `x` lies in the frame and is white. -/
def WhiteBlock (mask : Mask H W) (y x : ℕ) : Prop :=
  (y + 2 < H ∧ x + 2 < W) ∧
    ∀ q : Pixel H W, y ≤ q.1 ∧ q.1 ≤ y + 2 → x ≤ q.2 ∧ q.2 ≤ x + 2 → mask q ≠ 0

lemma mem_openingIn {mask : Mask H W} {p : Pixel H W} :
    p ∈ openingIn Near {p | Inner p} (white mask) ↔ Inner p ∧ ∃ y x : ℕ,
      (y ≤ p.1 ∧ p.1 ≤ y + 2) ∧ (x ≤ p.2 ∧ p.2 ≤ x + 2) ∧ WhiteBlock mask y x := by
  refine ⟨?_, ?_⟩
  · rintro ⟨⟨c, ⟨hc, ⟨⟨h₁, h₂⟩, h₃, h₄⟩⟩, ⟨h₅, h₆⟩, h₇, h₈⟩, hp⟩
    refine ⟨hp, c.1 - 1, c.2 - 1, by omega, by omega, by omega, ?_⟩
    intro q hy hx
    apply hc
    refine ⟨⟨?_, ?_⟩, ?_, ?_⟩ <;> omega
  · rintro ⟨hp, y, x, hy, hx, ⟨hH, hW⟩, hblock⟩
    refine ⟨⟨(⟨y + 1, by omega⟩, ⟨x + 1, by omega⟩), ⟨?_, ?_⟩, ?_⟩, hp⟩
    · rintro q ⟨⟨h₁, h₂⟩, h₃, h₄⟩
      simp only at h₁ h₂ h₃ h₄
      exact hblock q (by omega) (by omega)
    · refine ⟨⟨?_, ?_⟩, ?_, ?_⟩ <;> simp only <;> omega
    · refine ⟨⟨?_, ?_⟩, ?_, ?_⟩ <;> simp only <;> omega

open Classical in
/-- **The opening computes the union of the white 3x3 blocks**, less the border of the frame and
whatever the two buffers held before: black pixels stay black, and with a black border a second
opening changes nothing. -/
theorem opening_correct (b : MaskBuffers H W) :
    (∀ p, (openMask b).greenMask p = if Inner p ∧ ∃ y x : ℕ, (y ≤ p.1 ∧ p.1 ≤ y + 2) ∧
        (x ≤ p.2 ∧ p.2 ≤ x + 2) ∧ WhiteBlock b.greenMask y x then 1 else 0) ∧
      (∀ p, b.greenMask p = 0 → (openMask b).greenMask p = 0) ∧
      ((∀ p, ¬ Inner p → b.greenMask p = 0) → ∀ b' : MaskBuffers H W,
        b'.greenMask = (openMask b).greenMask → (openMask b').greenMask = b'.greenMask) := by
  refine ⟨?_, ?_, ?_⟩
  · intro p
    simp only [openMask_apply, mem_openingIn]
  · intro p hp
    rw [openMask_apply, if_neg]
    intro hmem
    exact openingIn_subset Near _ _ hmem hp
  · intro hborder b' hb'
    have hin : white b.greenMask ⊆ {p | Inner p} := by
      intro p hp
      by_contra h
      exact hp (hborder p h)
    funext p
    rw [openMask_apply, hb', white_openMask, openingIn_openingIn Near.refl hin, ← openMask_apply]

/-- A white block in a black frame. -/
def spot : Mask 5 5 := fun p => if Inner p then 1 else 0

theorem opening_correct_spot :
    (openMask ⟨(openMask ⟨spot, fun _ => 0⟩).greenMask, fun _ => 1⟩).greenMask =
      (openMask ⟨spot, fun _ => 0⟩).greenMask :=
  (opening_correct ⟨spot, fun _ => 0⟩).2.2 (fun _ hp => if_neg hp) _ rfl

end PanTilt.App
