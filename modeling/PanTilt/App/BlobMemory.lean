import PanTilt.App.BlobFilter
import PanTilt.Lib.Faults

/-!
`filter_small_blobs` of `green_mask.c` access by access: what it reads and writes in its arrays, by
the indices it computes.

Every access goes through a check that faults where the index is out of bounds, and the flood fill
faults when it is not done after a number of turns. `filter_in_bounds` says that there is no fault,
whatever the arrays hold at the start, and that the mask is the one of `filterSmallBlobs`.
The queue has room because its points are labelled as they are enqueued: the fill of each blob keeps
step with that of `Lib.FloodFill` (`Agrees`), whose queue never holds a pixel twice.
-/

namespace PanTilt.App.BlobMemory

open Lib.Grid Lib.Components Lib.FloodFill Lib.Faults

variable {H W : ℕ}

/-! ### The function -/

/-- A `Point`. -/
structure Point where
  x : ℤ
  y : ℤ
  deriving DecidableEq

/-- An index out of the bounds of an array, or a flood fill without an end. -/
inductive Fault
  | mask (y x : ℤ)
  | labelMap (y x : ℤ)
  | queue (i : ℕ)
  | labelSizes (i : ℕ)
  | endless
  deriving DecidableEq

/-- The mask and the variables of the function. The last two are not in the source: all the points
enqueued so far, and the largest value `queueEnd` has had. -/
structure Vars (H W : ℕ) where
  mask : Mask H W
  labelMap : Pixel H W → ℕ
  labelSizes : ℕ → ℕ
  currentLabel : ℕ
  queue : ℕ → Point
  queueStart : ℕ
  queueEnd : ℕ
  size : ℕ
  enqueued : List Point
  peak : ℕ

/-- The place `[y][x]` of an array of `HEIGHT` rows and `WIDTH` columns. -/
def cell (fault : ℤ → ℤ → Fault) (y x : ℤ) : Except Fault (Pixel H W) :=
  match pixel H W y x with
  | some p => .ok p
  | none => .error (fault y x)

namespace Vars

/-! #### Accesses -/

def readMask (s : Vars H W) (y x : ℤ) : Except Fault (BitVec 8) := do
  let p ← cell .mask y x
  pure (s.mask p)

def writeMask (s : Vars H W) (y x : ℤ) (value : BitVec 8) : Except Fault (Vars H W) := do
  let p ← cell .mask y x
  pure { s with mask := Function.update s.mask p value }

def readLabel (s : Vars H W) (y x : ℤ) : Except Fault ℕ := do
  let p ← cell .labelMap y x
  pure (s.labelMap p)

def writeLabel (s : Vars H W) (y x : ℤ) (label : ℕ) : Except Fault (Vars H W) := do
  let p ← cell .labelMap y x
  pure { s with labelMap := Function.update s.labelMap p label }

def readSize (s : Vars H W) (label : ℕ) : Except Fault ℕ :=
  if label < MAX_LABELS then .ok (s.labelSizes label) else .error (.labelSizes label)

def writeSize (s : Vars H W) (label size : ℕ) : Except Fault (Vars H W) :=
  if label < MAX_LABELS then
    .ok { s with labelSizes := Function.update s.labelSizes label size }
  else .error (.labelSizes label)

/-- `queue[queue_end++] = p`. -/
def enqueue (s : Vars H W) (p : Point) : Except Fault (Vars H W) :=
  if s.queueEnd < H * W then
    .ok { s with
      queue := Function.update s.queue s.queueEnd p
      queueEnd := s.queueEnd + 1
      enqueued := s.enqueued ++ [p]
      peak := max s.peak (s.queueEnd + 1) }
  else .error (.queue s.queueEnd)

/-- `queue[queue_start++]`. -/
def dequeue (s : Vars H W) : Except Fault (Point × Vars H W) :=
  if s.queueStart < H * W then
    .ok (s.queue s.queueStart, { s with queueStart := s.queueStart + 1 })
  else .error (.queue s.queueStart)

/-! #### Loops -/

/-- The body of the loop over the neighbours. -/
def visit (s : Vars H W) (n : Point) : Except Fault (Vars H W) :=
  if n.x ≥ 0 ∧ n.x < W ∧ n.y ≥ 0 ∧ n.y < H then do
    let m ← s.readMask n.y n.x
    if m ≠ 0 then
      let l ← s.readLabel n.y n.x
      if l = 0 then
        let s ← s.writeLabel n.y n.x s.currentLabel
        let s ← s.enqueue n
        pure { s with size := s.size + 1 }
      else pure s
    else pure s
  else .ok s

/-- The array `neighbors`. -/
def neighborPoints (p : Point) : List Point :=
  [{ x := p.x - 1, y := p.y }, { x := p.x + 1, y := p.y }, { x := p.x, y := p.y - 1 },
    { x := p.x, y := p.y + 1 }]

/-- The body of the `while` loop. -/
def turn (s : Vars H W) : Except Fault (Vars H W) := do
  let r ← s.dequeue
  (neighborPoints r.1).foldlM visit r.2

/-- The `while` loop, which faults if it is not done after `fuel` turns. -/
def drain : ℕ → Vars H W → Except Fault (Vars H W)
  | 0, s => if s.queueStart < s.queueEnd then .error .endless else .ok s
  | fuel + 1, s => if s.queueStart < s.queueEnd then turn s >>= drain fuel else .ok s

/-- The blob of a white pixel without a label. -/
def fillBlob (fuel : ℕ) (s : Vars H W) (y x : ℤ) : Except Fault (Vars H W) := do
  let s ← enqueue { s with queueStart := 0, queueEnd := 0 } { x := x, y := y }
  let s ← s.writeLabel y x s.currentLabel
  let s ← drain fuel { s with size := 1 }
  let s ← s.writeSize s.currentLabel s.size
  pure { s with currentLabel := s.currentLabel + 1 }

/-- The points of two nested loops over the rows and the columns. -/
def loops (H W : ℕ) : List Point :=
  (List.range H).flatMap fun y : ℕ => (List.range W).map fun x : ℕ => { x := x, y := y }

/-- The scan of some points, and whether it returned at the limit of the labels. -/
def labelLoop (fuel : ℕ) : List Point → Vars H W → Except Fault (Vars H W × Bool)
  | [], s => .ok (s, false)
  | p :: ps, s => do
    let m ← s.readMask p.y p.x
    if m = 0 then labelLoop fuel ps s
    else
      let l ← s.readLabel p.y p.x
      if l ≠ 0 then labelLoop fuel ps s
      else
        let s ← fillBlob fuel s p.y p.x
        if MAX_LABELS ≤ s.currentLabel then pure (s, true) else labelLoop fuel ps s

/-- The body of the last loop. -/
def clearSmall (minSize : ℤ) (s : Vars H W) (p : Point) : Except Fault (Vars H W) := do
  let lbl ← s.readLabel p.y p.x
  if lbl ≠ 0 then
    let size ← s.readSize lbl
    if (size : ℤ) < minSize then s.writeMask p.y p.x 0 else pure s
  else pure s

/-- `filter_small_blobs`, from any contents of its variables. -/
def filterSmallBlobs (fuel : ℕ) (minSize : ℤ) (s : Vars H W) : Except Fault (Vars H W) := do
  let s := { s with labelSizes := fun _ => 0, currentLabel := 1, enqueued := [], peak := 0 }
  let s ← (loops H W).foldlM (fun s p => writeLabel s p.y p.x 0) s
  let r ← labelLoop fuel (loops H W) s
  if r.2 then pure r.1 else (loops H W).foldlM (clearSmall minSize) r.1

end Vars

/-! ### Pixels and points -/

/-- The column and the row of a pixel. -/
def place (p : Pixel H W) : Point where
  x := p.2.val
  y := p.1.val

lemma pixel_place (p : Pixel H W) : pixel H W (place p).y (place p).x = some p :=
  pixel_eq_some.2 ⟨rfl, rfl⟩

lemma eq_place {n : Point} {p : Pixel H W} (h : pixel H W n.y n.x = some p) : n = place p := by
  obtain ⟨hy, hx⟩ := pixel_eq_some.1 h
  obtain ⟨x, y⟩ := n
  simp only [place, hy, hx]

lemma place_injective : Function.Injective (place : Pixel H W → Point) := by
  intro p q h
  have hpq := pixel_place p
  rw [h, pixel_place] at hpq
  exact (Option.some.inj hpq).symm

lemma isSome_pixel_iff {n : Point} :
    (pixel H W n.y n.x).isSome = true ↔ n.x ≥ 0 ∧ n.x < W ∧ n.y ≥ 0 ∧ n.y < H := by
  unfold pixel
  split
  · simp; omega
  · simp; omega

lemma neighbors_eq (p : Pixel H W) :
    neighbors p = (Vars.neighborPoints (place p)).filterMap fun n => pixel H W n.y n.x := rfl

/-- The nested loops are a scan of the frame. -/
lemma loops_eq : Vars.loops H W = (scan H W).map place := by
  have hrange : ∀ n, List.range n = (List.finRange n).map Fin.val := fun n => by simp
  unfold Vars.loops scan
  rw [hrange H, hrange W, List.flatMap_map]
  simp only [List.product, SProd.sprod, List.map_flatMap, List.map_map, Function.comp_def, place]

section Access

variable (s : Vars H W) (p : Pixel H W)

lemma cell_place (fault : ℤ → ℤ → Fault) : cell fault (place p).y (place p).x = .ok p := by
  rw [cell, pixel_place]

@[simp] lemma readMask_place : s.readMask (place p).y (place p).x = .ok (s.mask p) := by
  simp [Vars.readMask, cell_place]

@[simp] lemma writeMask_place (value : BitVec 8) : s.writeMask (place p).y (place p).x value =
    .ok { s with mask := Function.update s.mask p value } := by
  simp [Vars.writeMask, cell_place]

@[simp] lemma readLabel_place : s.readLabel (place p).y (place p).x = .ok (s.labelMap p) := by
  simp [Vars.readLabel, cell_place]

@[simp] lemma writeLabel_place (label : ℕ) : s.writeLabel (place p).y (place p).x label =
    .ok { s with labelMap := Function.update s.labelMap p label } := by
  simp [Vars.writeLabel, cell_place]

end Access

/-! ### One fill -/

/-- The variables keep step with a fill, from those at its start. -/
structure Agrees (s₀ : Vars H W) (f : Fill (Pixel H W)) (s : Vars H W) : Prop where
  mask : s.mask = s₀.mask
  labelMap : s.labelMap = f.label
  labelSizes : s.labelSizes = s₀.labelSizes
  currentLabel : s.currentLabel = s₀.currentLabel
  queue : ∀ i q, f.queue[i]? = some q → s.queue i = place q
  queueStart : s.queueStart = f.start
  queueEnd : s.queueEnd = f.queue.length
  size : s.size = f.size
  enqueued : s.enqueued = s₀.enqueued ++ f.queue.map place
  peak : s.peak ≤ H * W

section Fill

variable {s₀ s : Vars H W} {f : Fill (Pixel H W)} {p : Pixel H W} {old : Pixel H W → ℕ}

/-- The fill from `p`, among the pixels that are white in `s₀`, with its current label. -/
abbrev FillingFrom (s₀ : Vars H W) (old : Pixel H W → ℕ) (p : Pixel H W)
    (f : Fill (Pixel H W)) : Prop :=
  Filling (frame H W) (fun q => s₀.mask q ≠ 0) s₀.currentLabel old p f

/-- The body of the loop over the neighbours, in the terms of a fill. -/
def lookAt (s₀ : Vars H W) (f : Fill (Pixel H W)) (n : Point) : Fill (Pixel H W) :=
  match pixel H W n.y n.x with
  | some q => look (fun q => s₀.mask q ≠ 0) s₀.currentLabel f q
  | none => f

lemma expand_eq (u : Pixel H W) :
    expand neighbors (fun q => s₀.mask q ≠ 0) s₀.currentLabel f u =
      (Vars.neighborPoints (place u)).foldl (lookAt s₀) { f with start := f.start + 1 } := by
  rw [expand, neighbors_eq, List.foldl_filterMap]
  refine congrArg (fun g => List.foldl g _ _) (funext₂ fun f n => ?_)
  unfold lookAt
  cases pixel H W n.y n.x <;> rfl

lemma Agrees.add (h : Agrees s₀ f s) (q : Pixel H W) (hroom : s.queueEnd < H * W) :
    Agrees s₀
      { f with
        label := Function.update f.label q s₀.currentLabel
        queue := f.queue ++ [q]
        size := f.size + 1 }
      { s with
        labelMap := Function.update s.labelMap q s.currentLabel
        queue := Function.update s.queue s.queueEnd (place q)
        queueEnd := s.queueEnd + 1
        size := s.size + 1
        enqueued := s.enqueued ++ [place q]
        peak := max s.peak (s.queueEnd + 1) } where
  mask := h.mask
  labelMap := by rw [h.labelMap, h.currentLabel]
  labelSizes := h.labelSizes
  currentLabel := h.currentLabel
  queue i r hi := by
    show Function.update s.queue s.queueEnd (place q) i = place r
    rw [h.queueEnd]
    rcases Nat.lt_trichotomy i f.queue.length with hlt | rfl | hgt
    · rw [List.getElem?_append_left hlt] at hi
      rw [Function.update_of_ne hlt.ne]
      exact h.queue i r hi
    · rw [List.getElem?_concat_length] at hi
      rw [Function.update_self, Option.some.inj hi]
    · rw [List.getElem?_eq_none (by simpa using hgt)] at hi
      exact absurd hi (by simp)
  queueStart := h.queueStart
  queueEnd := by rw [h.queueEnd, List.length_append, List.length_singleton]
  size := by rw [h.size]
  enqueued := by rw [h.enqueued, List.map_append, List.append_assoc]; rfl
  peak := Nat.max_le.2 ⟨h.peak, hroom⟩

theorem Agrees.visit (h : Agrees s₀ f s) (hfill : FillingFrom s₀ old p f)
    (hcur : s₀.currentLabel ≠ 0) (n : Point) : Ends (s.visit n) (Agrees s₀ (lookAt s₀ f n)) := by
  unfold Vars.visit lookAt
  cases hn : pixel H W n.y n.x with
  | none =>
    rw [if_neg fun hin => by
      rw [← isSome_pixel_iff, hn] at hin
      exact Bool.false_ne_true hin]
    exact .ok h
  | some q =>
    rw [if_pos (isSome_pixel_iff.1 (by rw [hn]; rfl)), eq_place hn]
    simp only [readMask_place, readLabel_place, writeLabel_place, ok_bind]
    by_cases hwhite : s.mask q ≠ 0
    · by_cases hlabel : s.labelMap q = 0
      · have hroom : s.queueEnd < H * W := by
          rw [h.queueEnd, ← card_pixel]
          exact hfill.length_lt hcur (h.labelMap ▸ hlabel)
        rw [if_pos hwhite, if_pos hlabel, look, if_pos ⟨h.mask ▸ hwhite, h.labelMap ▸ hlabel⟩]
        simp only [Vars.enqueue, if_pos hroom, ok_bind]
        exact .ok (h.add q hroom)
      · rw [if_pos hwhite, if_neg hlabel, look,
          if_neg (fun hand => hlabel (h.labelMap.symm ▸ hand.2))]
        exact .ok h
    · rw [if_neg hwhite, look, if_neg (fun hand => hwhite (h.mask.symm ▸ hand.1))]
      exact .ok h

theorem Agrees.turn (h : Agrees s₀ f s) (hfill : FillingFrom s₀ old p f)
    (hcur : s₀.currentLabel ≠ 0) (hp : s₀.mask p ≠ 0) {u : Pixel H W}
    (hu : f.queue[f.start]? = some u) :
    Ends s.turn fun s' =>
      FillingFrom s₀ old p (expand neighbors (fun q => s₀.mask q ≠ 0) s₀.currentLabel f u) ∧
        Agrees s₀ (expand neighbors (fun q => s₀.mask q ≠ 0) s₀.currentLabel f u) s' := by
  obtain ⟨hlt, -⟩ := List.getElem?_eq_some_iff.1 hu
  have hju := hfill.joined u (List.mem_of_getElem? hu)
  have hwhite : s₀.mask u ≠ 0 := white_of_mem_blob hp hju
  have hroom : s.queueStart < H * W := by
    have hle : f.queue.length ≤ H * W := hfill.length_le.trans_eq card_pixel
    rw [h.queueStart]
    omega
  simp only [Vars.turn, Vars.dequeue, if_pos hroom, ok_bind]
  rw [h.queueStart, h.queue _ _ hu, expand_eq]
  refine Ends.foldlM (R := fun f s => FillingFrom s₀ old p f ∧ Agrees s₀ f s) ?_ ⟨?_, ?_⟩
  · rintro n hn f s ⟨hfill, h⟩
    refine (h.visit hfill hcur n).mono fun s' h' => ⟨?_, h'⟩
    unfold lookAt
    cases hv : pixel H W n.y n.x with
    | none => exact hfill
    | some v =>
      have hmem : v ∈ (frame H W).nbrs u := by
        rw [frame_nbrs, neighbors_eq]
        exact List.mem_filterMap.2 ⟨n, hn, hv⟩
      exact (hfill.look hcur fun hv => hju.trans (Space.joined_of_nbr hwhite hv hmem)).1
  · exact ⟨hfill.label, hfill.fresh, hfill.joined, hfill.nodup, hfill.size, hfill.seed, hlt⟩
  · exact ⟨h.mask, h.labelMap, h.labelSizes, h.currentLabel, h.queue, rfl, h.queueEnd, h.size,
      h.enqueued, h.peak⟩

lemma drain_of_done (h : ¬ s.queueStart < s.queueEnd) (fuel : ℕ) : s.drain fuel = .ok s := by
  cases fuel with
  | zero => exact if_neg h
  | succ fuel => exact if_neg h

/-- **The `while` loop ends**, after no more turns than the frame has pixels. -/
theorem Agrees.drain (hcur : s₀.currentLabel ≠ 0) (hp : s₀.mask p ≠ 0) :
    ∀ (n : ℕ) {fuel : ℕ} {f : Fill (Pixel H W)} {s : Vars H W}, n ≤ fuel → H * W ≤ n + f.start →
      FillingFrom s₀ old p f → Agrees s₀ f s →
      Ends (s.drain fuel) fun s' =>
        FillingFrom s₀ old p (flood neighbors (fun q => s₀.mask q ≠ 0) s₀.currentLabel n f) ∧
          Agrees s₀ (flood neighbors (fun q => s₀.mask q ≠ 0) s₀.currentLabel n f) s' := by
  intro n
  induction n with
  | zero =>
    intro fuel f s _ hn hfill h
    have hle : f.queue.length ≤ H * W := hfill.length_le.trans_eq card_pixel
    have hdone : ¬ s.queueStart < s.queueEnd := by
      rw [h.queueStart, h.queueEnd]
      omega
    rw [drain_of_done hdone]
    exact .ok ⟨hfill, h⟩
  | succ n ih =>
    intro fuel f s hfuel hn hfill h
    obtain ⟨fuel, rfl⟩ := Nat.exists_eq_add_of_le' (Nat.one_le_of_lt hfuel)
    cases hu : f.queue[f.start]? with
    | none =>
      have hdone : ¬ s.queueStart < s.queueEnd := by
        rw [h.queueStart, h.queueEnd]
        exact Nat.not_lt.2 (List.getElem?_eq_none_iff.1 hu)
      rw [drain_of_done hdone, flood, hu]
      exact .ok ⟨hfill, h⟩
    | some u =>
      have hmore : s.queueStart < s.queueEnd := by
        rw [h.queueStart, h.queueEnd]
        exact (List.getElem?_eq_some_iff.1 hu).1
      rw [Vars.drain, if_pos hmore, flood, hu]
      refine (h.turn hfill hcur hp hu).bind ?_
      rintro s' ⟨hfill', h'⟩
      exact ih (by omega) (by rw [expand_start]; omega) hfill' h'

end Fill

/-! ### The whole function -/

/-- The labels given so far. -/
def Vars.labels (s : Vars H W) : Labels H W where
  labelMap := s.labelMap
  labelSizes := s.labelSizes
  currentLabel := s.currentLabel

/-- What holds between two blobs: the mask is as it was, and no pixel was enqueued twice, nor one
that has no label. -/
structure Kept (mask : Mask H W) (s : Vars H W) : Prop where
  mask : s.mask = mask
  enqueued : ∃ E : List (Pixel H W), s.enqueued = E.map place ∧ E.Nodup ∧
    ∀ q ∈ E, s.labelMap q ≠ 0
  peak : s.peak ≤ H * W

section Function

variable {mask : Mask H W} {s : Vars H W} {p : Pixel H W} {fuel : ℕ}

lemma agrees_seed (hpeak : s.peak ≤ H * W) (hroom : 0 < H * W) :
    Agrees s (seed s.currentLabel s.labelMap p)
      { s with
        labelMap := Function.update s.labelMap p s.currentLabel
        queue := Function.update s.queue 0 (place p)
        queueStart := 0
        queueEnd := 1
        size := 1
        enqueued := s.enqueued ++ [place p]
        peak := max s.peak 1 } where
  mask := rfl
  labelMap := rfl
  labelSizes := rfl
  currentLabel := rfl
  queue i q hi := by
    obtain ⟨hlt, hq⟩ := List.getElem?_eq_some_iff.1 hi
    obtain rfl : i = 0 := Nat.lt_one_iff.1 hlt
    rw [← hq]
    show Function.update s.queue 0 (place p) 0 = place p
    rw [Function.update_self]
  queueStart := rfl
  queueEnd := rfl
  size := rfl
  enqueued := rfl
  peak := Nat.max_le.2 ⟨hpeak, hroom⟩

/-- **One blob.** Its pixels had no label, so that none of them was enqueued before. -/
theorem Kept.fillBlob (h : Kept mask s) (hfuel : H * W ≤ fuel) (hcur : s.currentLabel ≠ 0)
    (hlt : s.currentLabel < MAX_LABELS) (hp : mask p ≠ 0) (hnew : s.labelMap p = 0) :
    Ends (s.fillBlob fuel (place p).y (place p).x) fun s' =>
      Kept mask s' ∧ s'.labels = labelBlob mask s.labels p := by
  obtain ⟨rfl, ⟨E, hE, hnodup, hlabelled⟩, hpeak⟩ := h
  have hseed : FillingFrom s s.labelMap p (seed s.currentLabel s.labelMap p) := filling_seed hnew
  have hroom : 0 < H * W := hseed.length_le.trans_eq card_pixel
  unfold Vars.fillBlob
  rw [Vars.enqueue, if_pos hroom]
  simp only [ok_bind, writeLabel_place]
  refine ((agrees_seed hpeak hroom).drain hcur hp (H * W) hfuel (by simp [seed]) hseed).bind ?_
  rintro s' ⟨hfill, h'⟩
  have hsize : s'.currentLabel < MAX_LABELS := h'.currentLabel.symm ▸ hlt
  rw [Vars.writeSize, if_pos hsize]
  refine .ok ⟨⟨h'.mask, ?_, h'.peak⟩, ?_⟩
  · refine ⟨_, by rw [h'.enqueued, hE, ← List.map_append], ?_, ?_⟩
    · refine hnodup.append hfill.nodup ?_
      intro q hq hq'
      exact hlabelled q hq (hfill.fresh q hq')
    · intro q hq
      dsimp only
      rw [h'.labelMap, hfill.label]
      rcases List.mem_append.1 hq with hq | hq
      · split
        · exact hcur
        · exact hlabelled q hq
      · rw [if_pos hq]
        exact hcur
  · simp only [Vars.labels, labelBlob, h'.labelMap, h'.labelSizes, h'.currentLabel, h'.size]

theorem Kept.labelLoop (hfuel : H * W ≤ fuel) :
    ∀ (ps : List (Pixel H W)) {seen : List (Pixel H W)} {s : Vars H W}, Kept mask s →
      Labelled mask seen s.labels → s.currentLabel < MAX_LABELS →
      Ends (Vars.labelLoop fuel (ps.map place) s) fun r =>
        Kept mask r.1 ∧ (r.1.labels, r.2) = labelScan mask ps s.labels := by
  intro ps
  induction ps with
  | nil => exact fun h _ _ => .ok ⟨h, rfl⟩
  | cons p ps ih =>
    intro seen s h hlab hlt
    have hcur : s.currentLabel ≠ 0 := by
      have hcount := hlab.count
      simp only [Vars.labels] at hcount
      omega
    simp only [List.map_cons, Vars.labelLoop, readMask_place, readLabel_place, ok_bind, h.mask]
    by_cases hp : mask p = 0
    · rw [if_pos hp, labelScan, if_pos (.inl hp)]
      exact ih h (hlab.skip (.inl hp)) hlt
    · by_cases hnew : s.labelMap p = 0
      · have hscan : ¬ (mask p = 0 ∨ s.labels.labelMap p ≠ 0) := not_or.2 ⟨hp, not_not.2 hnew⟩
        rw [if_neg hp, if_neg (not_not.2 hnew), labelScan, if_neg hscan]
        refine (h.fillBlob hfuel hcur hlt hp hnew).bind ?_
        rintro s' ⟨h', heq⟩
        have hlab' := hlab.labelBlob hp hnew
        rw [← heq] at hlab' ⊢
        by_cases hmax : MAX_LABELS ≤ s'.currentLabel
        · rw [if_pos hmax]
          exact .ok ⟨h', (if_pos hmax).symm⟩
        · rw [if_neg hmax]
          refine (ih h' hlab' (Nat.lt_of_not_le hmax)).mono ?_
          rintro r ⟨hr, hreq⟩
          exact ⟨hr, hreq.trans (if_neg hmax).symm⟩
      · have hscan : mask p = 0 ∨ s.labels.labelMap p ≠ 0 := .inr hnew
        rw [if_neg hp, if_pos hnew, labelScan, if_pos hscan]
        exact ih h (hlab.skip (.inr hnew)) hlt

lemma clearLabels (s : Vars H W) :
    Ends ((Vars.loops H W).foldlM (fun s p => Vars.writeLabel s p.y p.x 0) s) fun s' =>
      s' = { s with labelMap := fun _ => 0 } := by
  rw [loops_eq, List.foldlM_map]
  refine (Ends.foldlM (g := fun labels q => Function.update labels q 0)
    (R := fun labels s' => s' = { s with labelMap := labels }) ?_ rfl).mono ?_
  · rintro q - labels _ rfl
    rw [writeLabel_place]
    exact .ok rfl
  · rintro _ rfl
    have hstore : store (scan H W) (fun _ => 0) s.labelMap = fun _ => 0 := by
      funext q
      rw [store_apply, if_pos (mem_scan q)]
    rw [← hstore, store]

lemma clearSmall_spec (hlt : ∀ q, s.labelMap q < MAX_LABELS) (minSize : ℤ) :
    Ends ((Vars.loops H W).foldlM (Vars.clearSmall minSize) s) fun s' =>
      s' = { s with
        mask := store ((scan H W).filter fun q =>
            s.labelMap q ≠ 0 ∧ (s.labelSizes (s.labelMap q) : ℤ) < minSize)
          (fun _ => 0) s.mask } := by
  rw [loops_eq, List.foldlM_map, store, List.foldl_filter]
  refine Ends.foldlM (R := fun mask s' => s' = { s with mask := mask }) ?_ rfl
  rintro q - mask _ rfl
  simp only [Vars.clearSmall, readLabel_place, writeMask_place, ok_bind, Vars.readSize,
    if_pos (hlt q), decide_eq_true_eq]
  by_cases hlabel : s.labelMap q ≠ 0
  · rw [if_pos hlabel]
    by_cases hsmall : (s.labelSizes (s.labelMap q) : ℤ) < minSize
    · rw [if_pos hsmall, if_pos ⟨hlabel, hsmall⟩]
      exact .ok rfl
    · rw [if_neg hsmall, if_neg (fun hand => hsmall hand.2)]
      exact .ok rfl
  · rw [if_neg hlabel, if_neg (fun hand => hlabel hand.1)]
    exact .ok rfl

/-- **`filter_small_blobs` stays inside its arrays and ends**, whatever they hold at the start and
also where the labels run out: no access faults, no fill takes more turns than the frame has pixels,
no point is enqueued twice in the whole call, and `queue_end` never exceeds the pixels of the frame.
The mask is that of `filterSmallBlobs`. -/
theorem filter_in_bounds (hfuel : H * W ≤ fuel) (minSize : ℤ) (s : Vars H W) :
    Ends (s.filterSmallBlobs fuel minSize) fun s' =>
      s'.mask = filterSmallBlobs s.mask minSize ∧ s'.enqueued.Nodup ∧ s'.peak ≤ H * W := by
  unfold Vars.filterSmallBlobs
  refine (clearLabels _).bind ?_
  rintro _ rfl
  rw [loops_eq]
  refine (Kept.labelLoop hfuel (scan H W) ⟨rfl, ⟨[], rfl, List.nodup_nil, by simp⟩, Nat.zero_le _⟩
    (labelled_init s.mask) (show 1 < 10000 by decide)).bind ?_
  rintro ⟨s', stopped⟩ ⟨⟨hmask, ⟨E, hE, hnodup, -⟩, hpeak⟩, hpass⟩
  have hpass' : labelPass s.mask = (s'.labels, stopped) := hpass.symm
  have hqueue : s'.enqueued.Nodup := hE ▸ hnodup.map place_injective
  cases stopped with
  | true =>
    refine .ok ⟨?_, hqueue, hpeak⟩
    rw [filterSmallBlobs, hpass']
    exact hmask
  | false =>
    have hlt : ∀ q, s'.labelMap q < MAX_LABELS := fun q => by
      have h := labelPass_lt s.mask q
      rwa [hpass'] at h
    rw [if_neg Bool.false_ne_true, ← loops_eq]
    refine (clearSmall_spec hlt minSize).mono ?_
    rintro _ rfl
    refine ⟨?_, hqueue, hpeak⟩
    rw [filterSmallBlobs, hpass', hmask]
    rfl

theorem filter_in_bounds_four :
    Ends (@Vars.filterSmallBlobs 2 2 4 3
      { mask := fun _ => 1, labelMap := fun _ => 7, labelSizes := fun _ => 7, currentLabel := 7
        queue := fun _ => { x := 7, y := 7 }, queueStart := 7, queueEnd := 7, size := 7
        enqueued := [], peak := 7 }) fun s' =>
      s'.mask = filterSmallBlobs (fun _ => 1) 3 ∧ s'.enqueued.Nodup ∧ s'.peak ≤ 4 :=
  filter_in_bounds (by decide) 3 _

end Function

end PanTilt.App.BlobMemory
