import PanTilt.App.GreenMask
import PanTilt.Lib.FloodFill

/-!
`filter_small_blobs` of `green_mask.c`: a scan of the mask that labels its blobs and counts their
pixels, and a pass that clears the small ones.

A blob is a component of the white pixels with their four neighbours. As long as the labels last,
the filter keeps exactly the large blobs (`filter_correct`); when they run out it leaves the mask
as it is (`filter_at_limit`).
-/

namespace PanTilt.App

open Lib.Grid Lib.Components Lib.FloodFill

variable {H W : ℕ}

def MAX_LABELS : ℕ := 10000

/-! ### The filter -/

/-- The neighbours of a pixel in the frame, in the order of the array `neighbors`. -/
def neighbors (p : Pixel H W) : List (Pixel H W) :=
  [((p.1 : ℤ), (p.2 : ℤ) - 1), ((p.1 : ℤ), (p.2 : ℤ) + 1), ((p.1 : ℤ) - 1, (p.2 : ℤ)),
    ((p.1 : ℤ) + 1, (p.2 : ℤ))].filterMap fun n => pixel H W n.1 n.2

/-- The labels given so far. -/
structure Labels (H W : ℕ) where
  labelMap : Pixel H W → ℕ
  labelSizes : ℕ → ℕ
  currentLabel : ℕ

def labelsInit : Labels H W where
  labelMap _ := 0
  labelSizes _ := 0
  currentLabel := 1

/-- The body of the scan for a white pixel without a label: fill its blob, with as many turns as
the queue has places. -/
def labelBlob (mask : Mask H W) (s : Labels H W) (p : Pixel H W) : Labels H W :=
  let f := flood neighbors (fun q => mask q ≠ 0) s.currentLabel (H * W)
    (seed s.currentLabel s.labelMap p)
  { labelMap := f.label
    labelSizes := Function.update s.labelSizes s.currentLabel f.size
    currentLabel := s.currentLabel + 1 }

/-- The scan of some pixels, and whether it returned at the limit of the labels. -/
def labelScan (mask : Mask H W) : List (Pixel H W) → Labels H W → Labels H W × Bool
  | [], s => (s, false)
  | p :: ps, s =>
    if mask p = 0 ∨ s.labelMap p ≠ 0 then labelScan mask ps s
    else
      let s' := labelBlob mask s p
      if MAX_LABELS ≤ s'.currentLabel then (s', true) else labelScan mask ps s'

/-- The scan of the frame. -/
def labelPass (mask : Mask H W) : Labels H W × Bool := labelScan mask (scan H W) labelsInit

/-- What `mask` is after `filter_small_blobs`. -/
def filterSmallBlobs (mask : Mask H W) (minSize : ℤ) : Mask H W :=
  match labelPass mask with
  | (_, true) => mask
  | (s, false) =>
    store ((scan H W).filter fun p =>
        s.labelMap p ≠ 0 ∧ (s.labelSizes (s.labelMap p) : ℤ) < minSize)
      (fun _ => 0) mask

/-! ### Blobs -/

lemma mem_neighbors {p q : Pixel H W} : q ∈ neighbors p ↔
    (p.1 = q.1 ∧ (p.2.val + 1 = q.2 ∨ q.2.val + 1 = p.2)) ∨
      (p.2 = q.2 ∧ (p.1.val + 1 = q.1 ∨ q.1.val + 1 = p.1)) := by
  simp only [neighbors, List.mem_filterMap, List.mem_cons, List.not_mem_nil, or_false,
    exists_eq_or_imp, exists_eq_left, pixel_eq_some, Fin.ext_iff]
  omega

/-- The frame, with the four neighbours of each pixel. -/
def frame (H W : ℕ) : Space (Pixel H W) where
  nbrs := neighbors
  symm h := by
    rw [mem_neighbors] at h ⊢
    rcases h with ⟨h₁, h₂⟩ | ⟨h₁, h₂⟩
    · exact .inl ⟨h₁.symm, h₂.symm⟩
    · exact .inr ⟨h₁.symm, h₂.symm⟩

lemma frame_nbrs : (frame H W).nbrs = neighbors := rfl

/-- The four-connected component of a pixel. -/
def blob (mask : Mask H W) (p : Pixel H W) : Set (Pixel H W) :=
  (frame H W).component (fun q => mask q ≠ 0) p

/-- The blobs of a mask. -/
def blobs (mask : Mask H W) : Set (Set (Pixel H W)) :=
  (frame H W).components (fun q => mask q ≠ 0)

/-- The blobs with a pixel before every pixel of the blob of `p`, in the order of the scan. -/
def blobsBefore (mask : Mask H W) (p : Pixel H W) : Set (Set (Pixel H W)) :=
  (frame H W).preceding (fun q => mask q ≠ 0) scanIndex p

/-- The blobs that a scan of some pixels meets. -/
def blobsMet (mask : Mask H W) (seen : List (Pixel H W)) : Set (Set (Pixel H W)) :=
  (frame H W).met (fun q => mask q ≠ 0) seen

/-! ### The scan -/

/-- What holds of the labels when some pixels have been scanned. -/
structure Labelled (mask : Mask H W) (seen : List (Pixel H W)) (s : Labels H W) : Prop where
  /-- The pixels with a label are those of the blobs met. -/
  labelled : ∀ p, s.labelMap p ≠ 0 ↔ mask p ≠ 0 ∧ blob mask p ∈ blobsMet mask seen
  /-- Two pixels have one label if they are in one blob. -/
  same : ∀ p q, s.labelMap p ≠ 0 → s.labelMap q ≠ 0 →
    (s.labelMap p = s.labelMap q ↔ blob mask p = blob mask q)
  size : ∀ p, s.labelMap p ≠ 0 → s.labelSizes (s.labelMap p) = (blob mask p).ncard
  lt : ∀ p, s.labelMap p < s.currentLabel
  count : s.currentLabel = (blobsMet mask seen).ncard + 1

lemma labelled_init (mask : Mask H W) : Labelled mask [] labelsInit where
  labelled p := by simp [labelsInit, blobsMet]
  same p q hp := absurd rfl hp
  size p hp := absurd rfl hp
  lt p := Nat.zero_lt_one
  count := by simp [labelsInit, blobsMet]

variable {mask : Mask H W} {seen : List (Pixel H W)} {s : Labels H W} {p : Pixel H W}

lemma Labelled.skip (h : Labelled mask seen s) (hp : mask p = 0 ∨ s.labelMap p ≠ 0) :
    Labelled mask (p :: seen) s := by
  have hmet : blobsMet mask (p :: seen) = blobsMet mask seen := by
    refine Space.met_cons_of_old ?_
    intro hw
    rcases hp with hp | hp
    · exact absurd hp hw
    · exact ((h.labelled p).mp hp).2
  obtain ⟨h₁, h₂, h₃, h₄, h₅⟩ := h
  rw [← hmet] at h₁ h₅
  exact ⟨h₁, h₂, h₃, h₄, h₅⟩

lemma Labelled.closed (h : Labelled mask seen s) (u v : Pixel H W) (hu : s.labelMap u ≠ 0)
    (hv : v ∈ (frame H W).nbrs u) (hwhite : mask v ≠ 0) : s.labelMap v ≠ 0 := by
  obtain ⟨hu₁, hu₂⟩ := (h.labelled u).mp hu
  have hblob : blob mask u = blob mask v :=
    Space.component_eq_iff.mpr (Space.joined_of_nbr (S := frame H W) hu₁ hwhite hv)
  rw [hblob] at hu₂
  exact (h.labelled v).mpr ⟨hwhite, hu₂⟩

lemma mem_blob_iff {q : Pixel H W} : q ∈ blob mask p ↔ blob mask p = blob mask q :=
  Space.component_eq_iff.symm

lemma white_of_mem_blob {q : Pixel H W} (hp : mask p ≠ 0) (hq : q ∈ blob mask p) : mask q ≠ 0 :=
  @Space.white_of_joined _ (frame H W) (fun q => mask q ≠ 0) _ _ hq hp

lemma Labelled.labelBlob_apply (h : Labelled mask seen s) (hp : mask p ≠ 0)
    (hnew : s.labelMap p = 0) :
    (∀ q ∈ blob mask p, (labelBlob mask s p).labelMap q = s.currentLabel) ∧
      (∀ q, q ∉ blob mask p → (labelBlob mask s p).labelMap q = s.labelMap q) ∧
      (labelBlob mask s p).labelSizes s.currentLabel = (blob mask p).ncard := by
  have hcur : s.currentLabel ≠ 0 := by
    rw [h.count]
    omega
  obtain ⟨hfill, hkeep, hsize⟩ := flood_spec (S := frame H W) (n := H * W) hcur hp hnew h.closed
    (by simp)
  exact ⟨hfill, hkeep, (Function.update_self ..).trans hsize⟩

theorem Labelled.labelBlob (h : Labelled mask seen s) (hp : mask p ≠ 0)
    (hnew : s.labelMap p = 0) : Labelled mask (p :: seen) (labelBlob mask s p) := by
  obtain ⟨hin, hout, hsize⟩ := h.labelBlob_apply hp hnew
  have hcount := h.count
  have hnext : (App.labelBlob mask s p).currentLabel = s.currentLabel + 1 := rfl
  have hfresh : blob mask p ∉ blobsMet mask seen :=
    fun hmem => (h.labelled p).mpr ⟨hp, hmem⟩ hnew
  have hmet : blobsMet mask (p :: seen) = insert (blob mask p) (blobsMet mask seen) :=
    Space.met_cons_of_new hp
  refine ⟨?_, ?_, ?_, ?_, ?_⟩
  · intro q
    rw [hmet]
    by_cases hq : q ∈ blob mask p
    · rw [hin q hq, ← mem_blob_iff.mp hq]
      exact iff_of_true (by omega) ⟨white_of_mem_blob hp hq, .inl rfl⟩
    · have hne : blob mask q ≠ blob mask p := fun e => hq (mem_blob_iff.mpr e.symm)
      rw [hout q hq, h.labelled, Set.mem_insert_iff, or_iff_right hne]
  · intro q r hq hr
    by_cases hqp : q ∈ blob mask p <;> by_cases hrp : r ∈ blob mask p
    · rw [hin q hqp, hin r hrp, ← mem_blob_iff.mp hqp, ← mem_blob_iff.mp hrp]
      exact iff_of_true rfl rfl
    · rw [hin q hqp, hout r hrp, ← mem_blob_iff.mp hqp]
      have hlt := h.lt r
      exact iff_of_false (by omega) (fun e => hrp (mem_blob_iff.mpr e))
    · rw [hout q hqp, hin r hrp, ← mem_blob_iff.mp hrp]
      have hlt := h.lt q
      exact iff_of_false (by omega) (fun e => hqp (mem_blob_iff.mpr e.symm))
    · rw [hout q hqp] at hq ⊢
      rw [hout r hrp] at hr ⊢
      exact h.same q r hq hr
  · intro q hq
    by_cases hqp : q ∈ blob mask p
    · rw [hin q hqp, ← mem_blob_iff.mp hqp]
      exact hsize
    · rw [hout q hqp] at hq ⊢
      have hne : s.labelMap q ≠ s.currentLabel := Nat.ne_of_lt (h.lt q)
      exact (Function.update_of_ne hne _ _).trans (h.size q hq)
  · intro q
    rw [hnext]
    by_cases hqp : q ∈ blob mask p
    · rw [hin q hqp]
      omega
    · rw [hout q hqp]
      exact Nat.lt_succ_of_lt (h.lt q)
  · rw [hnext, hmet, Set.ncard_insert_of_notMem hfresh, h.count]

/-- **A scan of some pixels** has labelled the blobs it met, and returned with a last label left
or at the limit. -/
theorem Labelled.labelScan : ∀ (ps : List (Pixel H W)) {s : Labels H W} {seen : List (Pixel H W)},
    Labelled mask seen s → s.currentLabel < MAX_LABELS →
    ∃ qs rs, ps = qs ++ rs ∧ Labelled mask (qs.reverse ++ seen) (labelScan mask ps s).1 ∧
      ((labelScan mask ps s).2 = false → rs = [] ∧
        (labelScan mask ps s).1.currentLabel < MAX_LABELS) ∧
      ((labelScan mask ps s).2 = true → (labelScan mask ps s).1.currentLabel = MAX_LABELS)
  | [], s, seen, h, hlt => ⟨[], [], rfl, h, fun _ => ⟨rfl, hlt⟩, fun h => Bool.noConfusion h⟩
  | p :: ps, s, seen, h, hlt => by
    by_cases hskip : mask p = 0 ∨ s.labelMap p ≠ 0
    · obtain ⟨qs, rs, rfl, h'⟩ := Labelled.labelScan ps (h.skip hskip) hlt
      refine ⟨p :: qs, rs, rfl, ?_⟩
      rw [App.labelScan, if_pos hskip, List.reverse_cons, List.append_assoc]
      exact h'
    · obtain ⟨hp, hnew⟩ := not_or.mp hskip
      have h₁ := h.labelBlob hp (not_not.mp hnew)
      by_cases hmax : MAX_LABELS ≤ (App.labelBlob mask s p).currentLabel
      · refine ⟨[p], ps, rfl, ?_⟩
        rw [App.labelScan, if_neg hskip, if_pos hmax]
        refine ⟨h₁, fun h => Bool.noConfusion h, fun _ => ?_⟩
        refine Nat.le_antisymm ?_ hmax
        exact hlt
      · obtain ⟨qs, rs, rfl, h'⟩ := Labelled.labelScan ps h₁ (Nat.lt_of_not_le hmax)
        refine ⟨p :: qs, rs, rfl, ?_⟩
        rw [App.labelScan, if_neg hskip, if_neg hmax, List.reverse_cons, List.append_assoc]
        exact h'

lemma labelPass_labelled (mask : Mask H W) : ∃ seen, Labelled mask seen (labelPass mask).1 ∧
    (∀ p ∈ seen, ∀ q, q ∉ seen → scanIndex p < scanIndex q) ∧
    ((labelPass mask).2 = false → (∀ p, p ∈ seen) ∧
      (labelPass mask).1.currentLabel < MAX_LABELS) ∧
    ((labelPass mask).2 = true → (labelPass mask).1.currentLabel = MAX_LABELS) := by
  obtain ⟨qs, rs, hscan, h, hfalse, htrue⟩ :=
    Labelled.labelScan (scan H W) (labelled_init mask) (show 1 < 10000 by decide)
  have hmem : ∀ p : Pixel H W, p ∈ qs ∨ p ∈ rs := by
    intro p
    rw [← List.mem_append, ← hscan]
    exact mem_scan p
  refine ⟨qs.reverse ++ [], h, ?_, ?_, htrue⟩
  · intro p hp q hq
    have hsorted := scan_sorted (H := H) (W := W)
    rw [hscan, List.pairwise_append] at hsorted
    simp only [List.append_nil, List.mem_reverse] at hp hq
    exact hsorted.2.2 p hp q ((hmem q).resolve_left hq)
  · intro hstop
    obtain ⟨rfl, hlt⟩ := hfalse hstop
    refine ⟨?_, hlt⟩
    intro p
    simpa using hmem p

theorem labelPass_stopped_iff (mask : Mask H W) :
    (labelPass mask).2 = true ↔ MAX_LABELS - 1 ≤ (blobs mask).ncard := by
  obtain ⟨seen, h, _, hfalse, htrue⟩ := labelPass_labelled mask
  have hcount := h.count
  refine ⟨?_, ?_⟩
  · intro hstop
    have hle : (blobsMet mask seen).ncard ≤ (blobs mask).ncard := Space.ncard_met_le
    rw [htrue hstop] at hcount
    omega
  · intro hle
    by_contra hstop
    obtain ⟨hall, hlt⟩ := hfalse (Bool.eq_false_iff.mpr hstop)
    have hmet : blobsMet mask seen = blobs mask := Space.met_eq_components hall
    rw [hmet] at hcount
    omega

/-- The sizes and the queue of the fills are never read or written out of bounds: no label is as
large as the limit. -/
lemma labelPass_lt (mask : Mask H W) (p : Pixel H W) :
    (labelPass mask).1.labelMap p < MAX_LABELS := by
  obtain ⟨seen, h, _, hfalse, htrue⟩ := labelPass_labelled mask
  have hlt := h.lt p
  cases hstop : (labelPass mask).2 with
  | false =>
    have := (hfalse hstop).2
    omega
  | true =>
    have := htrue hstop
    omega

/-! ### What the filter keeps -/

lemma filterSmallBlobs_of_stopped (h : (labelPass mask).2 = true) (minSize : ℤ) :
    filterSmallBlobs mask minSize = mask := by
  rcases hpass : labelPass mask with ⟨s, stopped⟩
  rw [hpass] at h
  obtain rfl : stopped = true := h
  rw [filterSmallBlobs, hpass]

/-- The filter only clears pixels, also when it returns early. -/
lemma filterSmallBlobs_eq_or (mask : Mask H W) (minSize : ℤ) (p : Pixel H W) :
    filterSmallBlobs mask minSize p = mask p ∨ filterSmallBlobs mask minSize p = 0 := by
  rcases hpass : labelPass mask with ⟨s, stopped⟩
  rw [filterSmallBlobs, hpass]
  cases stopped with
  | true => exact .inl rfl
  | false =>
    simp only [store_apply]
    split
    · exact .inr rfl
    · exact .inl rfl

/-- The labels of a whole scan tell the blobs apart and count them. -/
lemma labelPass_complete (h : (labelPass mask).2 = false) :
    (∀ p, (labelPass mask).1.labelMap p ≠ 0 ↔ mask p ≠ 0) ∧
      (∀ p q, mask p ≠ 0 → mask q ≠ 0 →
        ((labelPass mask).1.labelMap p = (labelPass mask).1.labelMap q ↔
          blob mask p = blob mask q)) ∧
      ∀ p, mask p ≠ 0 →
        (labelPass mask).1.labelSizes ((labelPass mask).1.labelMap p) =
          (blob mask p).ncard := by
  obtain ⟨seen, hlab, _, hfalse, _⟩ := labelPass_labelled mask
  have hall := (hfalse h).1
  have hiff : ∀ p, (labelPass mask).1.labelMap p ≠ 0 ↔ mask p ≠ 0 := by
    intro p
    rw [hlab.labelled p]
    refine and_iff_left_of_imp ?_
    intro hp
    exact ⟨p, hall p, hp, rfl⟩
  exact ⟨hiff, fun p q hp hq => hlab.same p q ((hiff p).mpr hp) ((hiff q).mpr hq),
    fun p hp => hlab.size p ((hiff p).mpr hp)⟩

theorem filterSmallBlobs_apply (h : (labelPass mask).2 = false) (minSize : ℤ)
    (p : Pixel H W) : filterSmallBlobs mask minSize p =
      if mask p ≠ 0 ∧ minSize ≤ (blob mask p).ncard then mask p else 0 := by
  obtain ⟨hiff, _, hsize⟩ := labelPass_complete h
  rcases hpass : labelPass mask with ⟨s, stopped⟩
  rw [hpass] at h hiff hsize
  obtain rfl : stopped = false := h
  simp only at hiff hsize
  rw [filterSmallBlobs, hpass]
  simp only [store_apply, List.mem_filter, mem_scan, true_and, decide_eq_true_eq]
  by_cases hp : mask p = 0
  · rw [if_neg (fun hand => (hiff p).mp hand.1 hp), if_neg (fun hand => hand.1 hp), hp]
  · rw [hsize p hp]
    by_cases hlt : ((blob mask p).ncard : ℤ) < minSize
    · rw [if_pos ⟨(hiff p).mpr hp, hlt⟩, if_neg (fun hand => absurd hand.2 (by omega))]
    · rw [if_neg (fun hand => hlt hand.2), if_pos ⟨hp, by omega⟩]

lemma blob_filterSmallBlobs (h : (labelPass mask).2 = false) (minSize : ℤ)
    (hp : filterSmallBlobs mask minSize p ≠ 0) :
    blob (filterSmallBlobs mask minSize) p = blob mask p := by
  have hwhite : ∀ q, filterSmallBlobs mask minSize q ≠ 0 ↔
      mask q ≠ 0 ∧ minSize ≤ (blob mask q).ncard := by
    intro q
    rw [filterSmallBlobs_apply h]
    split
    next hq => exact iff_of_true hq.1 hq
    next hq => exact iff_of_false (fun hne => hne rfl) hq
  refine Space.component_of_union (fun q => filterSmallBlobs mask minSize q ≠ 0)
    (fun q hq => ((hwhite q).mp hq).1) ?_ hp
  intro q r hq hjoined
  obtain ⟨hq₁, hq₂⟩ := (hwhite q).mp hq
  refine (hwhite r).mpr ⟨white_of_mem_blob hq₁ hjoined, ?_⟩
  rwa [← mem_blob_iff.mp hjoined]

lemma ncard_blobs_filterSmallBlobs (h : (labelPass mask).2 = false) (minSize : ℤ) :
    (blobs (filterSmallBlobs mask minSize)).ncard ≤ (blobs mask).ncard := by
  refine Set.ncard_le_ncard ?_
  rintro B ⟨p, hp, rfl⟩
  refine ⟨p, ?_, (blob_filterSmallBlobs h minSize hp).symm⟩
  intro h0
  rcases filterSmallBlobs_eq_or mask minSize p with h | h
  · exact hp (h.trans h0)
  · exact hp h

/-- **The filter keeps exactly the large blobs** of a mask that has labels for all its blobs: the
labels tell the blobs apart and count them, a pixel is unchanged if its blob is large enough and
black otherwise, and a second call changes nothing. -/
theorem filter_correct (mask : Mask H W) (minSize : ℤ)
    (h : (blobs mask).ncard ≤ MAX_LABELS - 2) :
    (∀ p, filterSmallBlobs mask minSize p =
        if mask p ≠ 0 ∧ minSize ≤ (blob mask p).ncard then mask p else 0) ∧
      ((∀ p q, mask p ≠ 0 → mask q ≠ 0 →
          ((labelPass mask).1.labelMap p = (labelPass mask).1.labelMap q ↔
            blob mask p = blob mask q)) ∧
        ∀ p, mask p ≠ 0 →
          (labelPass mask).1.labelSizes ((labelPass mask).1.labelMap p) =
            (blob mask p).ncard) ∧
      filterSmallBlobs (filterSmallBlobs mask minSize) minSize =
        filterSmallBlobs mask minSize := by
  have hmax : 2 ≤ MAX_LABELS := by decide
  have hrun : ∀ m : Mask H W, (blobs m).ncard ≤ MAX_LABELS - 2 → (labelPass m).2 = false := by
    intro m hm
    refine Bool.eq_false_iff.mpr ?_
    intro hstop
    have := (labelPass_stopped_iff m).mp hstop
    omega
  have hpass := hrun mask h
  have hpass' := hrun _ ((ncard_blobs_filterSmallBlobs hpass minSize).trans h)
  refine ⟨filterSmallBlobs_apply hpass minSize, (labelPass_complete hpass).2, ?_⟩
  funext p
  rw [filterSmallBlobs_apply hpass']
  by_cases hp : filterSmallBlobs mask minSize p = 0
  · rw [if_neg (fun hand => hand.1 hp), hp]
  · rw [blob_filterSmallBlobs hpass minSize hp, if_pos]
    refine ⟨hp, ?_⟩
    rw [filterSmallBlobs_apply hpass] at hp
    by_contra hlt
    exact hp (if_neg fun hand => hlt hand.2)

lemma ncard_blobs_le (mask : Mask H W) : (blobs mask).ncard ≤ H * W := by
  have himage : blobs mask = blob mask '' {p | mask p ≠ 0} := by
    ext B
    exact Iff.rfl
  calc (blobs mask).ncard ≤ {p : Pixel H W | mask p ≠ 0}.ncard := by
        rw [himage]
        exact Set.ncard_image_le
    _ ≤ Nat.card (Pixel H W) := Set.ncard_le_card _
    _ = H * W := by simp

theorem filter_correct_two :
    filterSmallBlobs (filterSmallBlobs (fun _ : Pixel 2 2 => 1) 3) 3 =
      filterSmallBlobs (fun _ : Pixel 2 2 => 1) 3 :=
  (filter_correct (fun _ : Pixel 2 2 => 1) 3
    ((ncard_blobs_le _).trans (show 4 ≤ 9998 by decide))).2.2

example : filterSmallBlobs (fun p : Pixel 1 5 => if p.2.val = 1 then 0 else 1) 2 =
    fun p => if p.2.val ≤ 1 then 0 else 1 := by decide

/-! ### At the limit of the labels -/

/-- **The pixels labelled at the limit** are those of the first blobs in the order of the scan. -/
theorem labelPass_early (h : (labelPass mask).2 = true) (p : Pixel H W) :
    (labelPass mask).1.labelMap p ≠ 0 ↔
      mask p ≠ 0 ∧ (blobsBefore mask p).ncard < MAX_LABELS - 1 := by
  obtain ⟨seen, hlab, hbefore, _, htrue⟩ := labelPass_labelled mask
  have hcount : (blobsMet mask seen).ncard = MAX_LABELS - 1 := by
    have := hlab.count
    rw [htrue h] at this
    omega
  rw [hlab.labelled p, ← hcount]
  refine and_congr_right ?_
  intro hp
  exact Space.early_iff hp hbefore

/-- **At the limit of the labels the small blobs stay**: the blobs labelled by then are filtered
only if none of them is small. -/
theorem filter_at_limit (mask : Mask H W) (minSize : ℤ)
    (h : MAX_LABELS - 1 ≤ (blobs mask).ncard) :
    (∀ p, (labelPass mask).1.labelMap p ≠ 0 → ((blob mask p).ncard : ℤ) < minSize →
        filterSmallBlobs mask minSize p = 0) ↔
      ∀ p, mask p ≠ 0 → (blobsBefore mask p).ncard < MAX_LABELS - 1 →
        minSize ≤ (blob mask p).ncard := by
  have hstop := (labelPass_stopped_iff mask).mpr h
  rw [filterSmallBlobs_of_stopped hstop]
  refine ⟨?_, ?_⟩
  · intro hclear p hp hearly
    by_contra hlt
    exact hp (hclear p ((labelPass_early hstop p).mpr ⟨hp, hearly⟩) (by omega))
  · intro hlarge p hp hlt
    obtain ⟨hwhite, hearly⟩ := (labelPass_early hstop p).mp hp
    have := hlarge p hwhite hearly
    omega

/-- White blocks of 3x3 pixels, one pixel apart, inside a black border. -/
def speckle : Mask 480 640 := fun p =>
  if (p.1.val % 4 ≠ 0 ∧ p.1.val < 476) ∧ p.2.val % 4 ≠ 0 ∧ p.2.val < 636 then 1 else 0

lemma speckle_white {p : Pixel 480 640} : speckle p ≠ 0 ↔
    (p.1.val % 4 ≠ 0 ∧ p.1.val < 476) ∧ p.2.val % 4 ≠ 0 ∧ p.2.val < 636 := by
  rw [speckle]
  split
  next h => exact iff_of_true (by decide) h
  next h => exact iff_of_false (fun hne => hne rfl) h

lemma speckle_joined {p q : Pixel 480 640} (h : q ∈ blob speckle p) :
    q.1.val / 4 = p.1.val / 4 ∧ q.2.val / 4 = p.2.val / 4 := by
  have hjoined : (frame 480 640).Joined (fun q => speckle q ≠ 0) p q := h
  refine hjoined.induction (P := fun q => q.1.val / 4 = p.1.val / 4 ∧ q.2.val / 4 = p.2.val / 4)
    ⟨rfl, rfl⟩ ?_
  intro a b hab ha hb hnbr
  rw [speckle_white] at ha hb
  rw [frame_nbrs] at hnbr
  rcases mem_neighbors.mp hnbr with ⟨h₁, h₂⟩ | ⟨h₁, h₂⟩
  · rw [← h₁]
    refine ⟨hab.1, ?_⟩
    omega
  · rw [← h₁]
    refine ⟨?_, hab.2⟩
    omega

lemma ncard_blob_speckle (p : Pixel 480 640) : (blob speckle p).ncard ≤ 16 := by
  have hle : (blob speckle p).ncard ≤ ((Finset.range 4 ×ˢ Finset.range 4 : Finset (ℕ × ℕ)) :
      Set (ℕ × ℕ)).ncard := by
    refine Set.ncard_le_ncard_of_injOn (fun q => (q.1.val % 4, q.2.val % 4)) ?_ ?_
    · intro q _
      simp only [Finset.coe_product, Finset.coe_range, Set.mem_prod, Set.mem_Iio]
      omega
    · rintro ⟨⟨qy, hqy⟩, ⟨qx, hqx⟩⟩ hq ⟨⟨ry, hry⟩, ⟨rx, hrx⟩⟩ hr hqr
      have hq' := speckle_joined hq
      have hr' := speckle_joined hr
      simp only [Prod.mk.injEq, Fin.mk.injEq] at hqr hq' hr' ⊢
      omega
  rwa [Set.ncard_coe_finset, Finset.card_product, Finset.card_range] at hle

lemma ncard_blobs_speckle : MAX_LABELS - 1 ≤ (blobs speckle).ncard := by
  have hle : (Set.univ : Set (Fin 119 × Fin 159)).ncard ≤ (blobs speckle).ncard := by
    refine Set.ncard_le_ncard_of_injOn
      (fun c => blob speckle (⟨4 * c.1 + 2, by omega⟩, ⟨4 * c.2 + 2, by omega⟩)) ?_ ?_
    · rintro c -
      refine ⟨_, speckle_white.mpr ?_, rfl⟩
      simp only
      omega
    · rintro ⟨c₁, c₂⟩ - ⟨d₁, d₂⟩ - hcd
      have hjoined := speckle_joined (mem_blob_iff.mpr hcd)
      simp only [Prod.mk.injEq, Fin.ext_iff] at hjoined ⊢
      omega
  rw [Set.ncard_univ, Nat.card_prod, Nat.card_eq_fintype_card, Nat.card_eq_fintype_card,
    Fintype.card_fin, Fintype.card_fin] at hle
  exact Nat.le_trans (show 9999 ≤ 119 * 159 by omega) hle

lemma two_le_ncard_blob_speckle {p : Pixel 480 640} (hp : speckle p ≠ 0) :
    2 ≤ (blob speckle p).ncard := by
  have hself : p ∈ blob speckle p := SimpleGraph.Reachable.refl p
  have hwhite := speckle_white.1 hp
  -- the neighbour on the side on which the block goes on
  obtain ⟨x, hx, hblock, hside⟩ : ∃ x, x < 640 ∧ (x % 4 ≠ 0 ∧ x < 636) ∧
      (p.2.val + 1 = x ∨ x + 1 = p.2.val) := by
    by_cases hlast : p.2.val % 4 = 3
    · exact ⟨p.2.val - 1, by omega, by omega, by omega⟩
    · exact ⟨p.2.val + 1, by omega, by omega, by omega⟩
  have hq : speckle (p.1, ⟨x, hx⟩) ≠ 0 := speckle_white.2 ⟨hwhite.1, hblock⟩
  have hnbr : (p.1, ⟨x, hx⟩) ∈ (frame 480 640).nbrs p := by
    rw [frame_nbrs]
    exact mem_neighbors.2 (.inl ⟨rfl, hside⟩)
  have hne : p ≠ (p.1, ⟨x, hx⟩) := fun h => by
    have hcolumn := congrArg (fun q => q.2.val) h
    simp only at hcolumn
    omega
  exact (Set.one_lt_ncard (Set.toFinite _)).2
    ⟨p, hself, _, Space.joined_of_nbr hp hq hnbr, hne⟩

/-- The first block of the speckle. -/
def firstBlock : Pixel 480 640 := (⟨1, by decide⟩, ⟨1, by decide⟩)

lemma blobsBefore_firstBlock : blobsBefore speckle firstBlock = ∅ := by
  refine Set.eq_empty_of_forall_notMem ?_
  rintro B ⟨⟨w, hw, rfl⟩, u, hu, hbefore⟩
  have hjoined : (frame 480 640).Joined (fun q => speckle q ≠ 0) w u := hu
  have hu' := Space.white_of_joined hjoined hw
  have hwhite := speckle_white.1 hu'
  have hlt := hbefore firstBlock (SimpleGraph.Reachable.refl firstBlock)
  simp only [scanIndex, firstBlock] at hlt
  omega

theorem filter_at_limit_speckle :
    (∀ p, (labelPass speckle).1.labelMap p ≠ 0 → ((blob speckle p).ncard : ℤ) < 2 →
        filterSmallBlobs speckle 2 p = 0) ∧
      ¬ ∀ p, (labelPass speckle).1.labelMap p ≠ 0 → ((blob speckle p).ncard : ℤ) < 600 →
        filterSmallBlobs speckle 600 p = 0 := by
  constructor
  · refine (filter_at_limit speckle 2 ncard_blobs_speckle).2 fun q hq _ => ?_
    exact_mod_cast two_le_ncard_blob_speckle hq
  · intro hclear
    have hlarge := (filter_at_limit speckle 600 ncard_blobs_speckle).1 hclear firstBlock
      (speckle_white.2 (by decide)) (by rw [blobsBefore_firstBlock, Set.ncard_empty]; decide)
    have hsmall := ncard_blob_speckle firstBlock
    omega

/-- The speckle is not filtered. -/
theorem speckle_stays : ¬ (MAX_LABELS - 1 ≤ (blobs speckle).ncard →
    ∀ p, (labelPass speckle).1.labelMap p ≠ 0 → ((blob speckle p).ncard : ℤ) < 600 →
      filterSmallBlobs speckle 600 p = 0) := by
  intro hclear
  have hstop := (labelPass_stopped_iff speckle).mpr ncard_blobs_speckle
  obtain ⟨seen, hlab, _, _, htrue⟩ := labelPass_labelled speckle
  have hne : (blobsMet speckle seen).ncard ≠ 0 := by
    have hcount := hlab.count
    rw [htrue hstop, MAX_LABELS] at hcount
    omega
  obtain ⟨B, p, hp, hwhite, rfl⟩ := Set.nonempty_of_ncard_ne_zero hne
  have hlabel := (hlab.labelled p).mpr ⟨hwhite, p, hp, hwhite, rfl⟩
  have hsmall := ncard_blob_speckle p
  have hcleared := hclear ncard_blobs_speckle p hlabel (by omega)
  rw [filterSmallBlobs_of_stopped hstop] at hcleared
  exact hwhite hcleared

end PanTilt.App
