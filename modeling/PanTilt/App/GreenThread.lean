import PanTilt.App.Detection
import PanTilt.App.Hsv

/-!
The loop of `green_mask_thread`: pull a sample, threshold and clean its pixels, and copy the mask
into the queue.

The copy stands outside the branch that fills the mask. A sample whose buffer cannot be mapped
therefore queues the mask of the sample before it once more, and before the first mapped sample
whatever the stack held (`queued_run`); `fresh_iff` says in which runs this does not happen.
-/

namespace PanTilt.App

open Lib.Grid

variable {H W : ℕ}

/-! ### The loop -/

/-- How a turn of the loop gets its pixels. -/
inductive Pull
  /-- `gst_app_sink_try_pull_sample` gives no sample. -/
  | noSample
  /-- `gst_buffer_map` fails. -/
  | unmapped
  /-- The bytes at `data`. -/
  | mapped (data : ℕ → BitVec 8)

/-- The color of the pixel at `data[idx]`. -/
def pixelHsv (data : ℕ → BitVec 8) (p : Pixel H W) : Hsv :=
  let idx := (p.1 * W + p.2) * 3
  rgbToHsv (data idx).toNat (data (idx + 1)).toNat (data (idx + 2)).toNat

/-- The loops of the thresholding. -/
def threshold (data : ℕ → BitVec 8) (mask : Mask H W) : Mask H W :=
  store (scan H W) (fun p => if Green (pixelHsv data p) then 1 else 0) mask

/-- The branch for a mapped buffer. -/
def fillMask (data : ℕ → BitVec 8) (b : MaskBuffers H W) : MaskBuffers H W :=
  let opened := openMask { b with greenMask := threshold data b.greenMask }
  { opened with greenMask := filterSmallBlobs opened.greenMask 600 }

/-- The thread: its two buffers, and the masks it has copied into `green_mask_queue`. -/
structure GreenThread (H W : ℕ) where
  buffers : MaskBuffers H W
  queued : List (Mask H W)

namespace GreenThread

/-- `memcpy(green_mask_queue[green_mask_queue_rear], green_mask, sizeof(green_mask))`. -/
def copyMask (t : GreenThread H W) : GreenThread H W :=
  { t with queued := t.queued ++ [t.buffers.greenMask] }

/-- One turn of the loop. -/
def turn (t : GreenThread H W) : Pull → GreenThread H W
  | .noSample => t
  | .unmapped => t.copyMask
  | .mapped data => copyMask { t with buffers := fillMask data t.buffers }

def run (t : GreenThread H W) (pulls : List Pull) : GreenThread H W := pulls.foldl turn t

end GreenThread

/-! ### Fresh masks -/

/-- The mask of a frame, made in black buffers. -/
def processed (H W : ℕ) (data : ℕ → BitVec 8) : Mask H W :=
  cleanMask { greenMask := threshold data fun _ => 0, tempMask := fun _ => 0 }

/-- The masks of the samples that are mapped. -/
def freshMasks (H W : ℕ) : List Pull → List (Mask H W)
  | [] => []
  | .mapped data :: pulls => processed H W data :: freshMasks H W pulls
  | _ :: pulls => freshMasks H W pulls

/-- The masks that are queued: where a map fails, the last one again. -/
def queuedMasks (last : Mask H W) : List Pull → List (Mask H W)
  | [] => []
  | .noSample :: pulls => queuedMasks last pulls
  | .unmapped :: pulls => last :: queuedMasks last pulls
  | .mapped data :: pulls => processed H W data :: queuedMasks (processed H W data) pulls

/-- What a run adds to the queue comes from fresh frames, and nothing comes from a failed map. -/
structure Fresh (t : GreenThread H W) (pulls : List Pull) : Prop where
  masks : (t.run pulls).queued = t.queued ++ freshMasks H W pulls
  failed : ∀ before after, pulls = before ++ .unmapped :: after →
    (t.run (before ++ [.unmapped])).queued = (t.run before).queued

lemma threshold_congr (data : ℕ → BitVec 8) (mask mask' : Mask H W) :
    threshold data mask = threshold data mask' := by
  funext p
  simp only [threshold, store_apply, mem_scan, if_true]

lemma openMask_congr {b b' : MaskBuffers H W} (h : b.greenMask = b'.greenMask) :
    (openMask b).greenMask = (openMask b').greenMask := by
  funext p
  rw [openMask_apply, openMask_apply, h]

/-- **The mask of a frame does not depend on what the buffers held.** -/
theorem fillMask_greenMask (data : ℕ → BitVec 8) (b : MaskBuffers H W) :
    (fillMask data b).greenMask = processed H W data := by
  have hopen : (openMask { b with greenMask := threshold data b.greenMask }).greenMask =
      (openMask ⟨threshold data fun _ => 0, fun _ => 0⟩).greenMask :=
    openMask_congr (threshold_congr data b.greenMask fun _ => 0)
  unfold fillMask processed cleanMask
  simp only
  rw [hopen]

theorem queued_run (t : GreenThread H W) (pulls : List Pull) :
    (t.run pulls).queued = t.queued ++ queuedMasks t.buffers.greenMask pulls := by
  induction pulls generalizing t with
  | nil => exact (List.append_nil _).symm
  | cons pull pulls ih =>
    have hrun : t.run (pull :: pulls) = (t.turn pull).run pulls := rfl
    rw [hrun, ih]
    cases pull with
    | noSample => rfl
    | unmapped => exact List.append_assoc ..
    | mapped data =>
      have hmask : (t.turn (.mapped data)).buffers.greenMask = processed H W data :=
        fillMask_greenMask data t.buffers
      have hqueued : (t.turn (.mapped data)).queued = t.queued ++ [processed H W data] := by
        rw [← fillMask_greenMask data t.buffers]
        rfl
      rw [hmask, hqueued, List.append_assoc]
      rfl

/-- Every failed map makes one mask too many. -/
lemma length_queuedMasks (last : Mask H W) (pulls : List Pull) :
    (queuedMasks last pulls).length =
      (freshMasks H W pulls).length + pulls.countP fun pull => pull matches .unmapped := by
  induction pulls generalizing last with
  | nil => rfl
  | cons pull pulls ih =>
    cases pull with
    | noSample => simp [queuedMasks, freshMasks, ih]
    | unmapped => simp [queuedMasks, freshMasks, ih]; omega
    | mapped data => simp [queuedMasks, freshMasks, ih]; omega

lemma queuedMasks_of_mapped (last : Mask H W) {pulls : List Pull}
    (h : ∀ pull ∈ pulls, pull ≠ .unmapped) : queuedMasks last pulls = freshMasks H W pulls := by
  induction pulls generalizing last with
  | nil => rfl
  | cons pull pulls ih =>
    obtain ⟨hpull, hpulls⟩ := List.forall_mem_cons.mp h
    cases pull with
    | noSample => exact ih last hpulls
    | unmapped => exact absurd rfl hpull
    | mapped data => exact congrArg _ (ih _ hpulls)

/-- **The queued masks are fresh exactly in the runs in which no map fails.** -/
theorem fresh_iff (t : GreenThread H W) (pulls : List Pull) :
    Fresh t pulls ↔ ∀ pull ∈ pulls, pull ≠ .unmapped := by
  constructor
  · intro h pull hmem hpull
    have hlen := length_queuedMasks t.buffers.greenMask pulls
    have hcount : 0 < pulls.countP fun pull => pull matches .unmapped :=
      List.countP_pos_iff.mpr ⟨pull, hmem, by rw [hpull]⟩
    have hmasks := h.masks
    rw [queued_run, List.append_cancel_left_eq] at hmasks
    rw [hmasks] at hlen
    omega
  · intro h
    refine ⟨?_, ?_⟩
    · rw [queued_run, queuedMasks_of_mapped _ h]
    · intro before after hpulls
      exact absurd rfl (h .unmapped (by simp [hpulls]))

/-- The first sample cannot be mapped, and the queue gets what the buffer happens to hold. -/
theorem unwritten_mask_queued : ¬ Fresh (H := HEIGHT) (W := WIDTH)
    { buffers := { greenMask := fun _ => 255, tempMask := fun _ => 0 }, queued := [] }
    [.unmapped] := by
  intro h
  exact absurd h.masks (List.cons_ne_nil _ _)

end PanTilt.App
