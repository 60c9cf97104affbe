import PanTilt.App.GreenThread
import PanTilt.App.HandOver
import PanTilt.App.MaskQueue

/-!
The way of a target through the program: `green_mask_thread` makes a mask of each sample,
`com_calculator_thread` takes the masks out of their queue and publishes a center of mass for each,
and `start_thread_func` takes these out of theirs.

The threads step as in `MaskQueue` and `HandOver`, one access to a shared variable at a time. The
values of `HandOver` are the numbers of the centers: number `v` is the center that was computed as
the `v`-th. `targets_in_order` is what comes out of the composition.
-/

namespace PanTilt.App

open Lib.Interleave

variable {H W : ℕ}

/-! ### The threads -/

/-- Where `com_calculator_thread` is between its critical section and its test of the stop flag. -/
inductive ComPhase
  | calculate
  | publish
  | test
  deriving DecidableEq

/-- The three threads with their queues. `pulls` are the samples the camera has given so far and
`computed` the centers of mass that `calculate_com` has returned. -/
structure Pipeline (H W : ℕ) where
  masks : MaskQueue (Mask H W)
  buffers : MaskBuffers H W
  pulls : List Pull
  phase : ComPhase
  computed : List COM
  coms : HandOver

namespace Pipeline

/-- When the threads have been started. The buffers of `green_mask_thread` are not initialised. -/
def start (slots : ℕ → Mask H W) (buffers : MaskBuffers H W) (buffer : ℕ → ℕ) : Pipeline H W where
  masks := .start slots buffers.greenMask
  buffers := buffers
  pulls := []
  phase := .calculate
  computed := []
  coms := .start buffer

/-- The buffers after a pull that leads to the critical section. -/
def fill (b : MaskBuffers H W) : Pull → Option (MaskBuffers H W)
  | .noSample => none
  | .unmapped => some b
  | .mapped data => some (fillMask data b)

variable (size : ℕ)

/-- One step of `green_mask_thread`, with the sample it pulls outside its critical section. -/
def camera (s : Pipeline H W) (pull : Pull) : Option (Pipeline H W) :=
  match s.masks.pc .producer with
  | .outside =>
    match fill s.buffers pull with
    | none => some { s with pulls := s.pulls ++ [pull] }
    | some buffers =>
      (s.masks.step size (.producer buffers.greenMask)).map fun masks =>
        { s with masks, buffers, pulls := s.pulls ++ [pull] }
  | _ =>
    (s.masks.step size (.producer s.buffers.greenMask)).map fun masks => { s with masks }

/-- One step of `com_calculator_thread`: the mask it has copied last is its local one. -/
def com (s : Pipeline H W) : Option (Pipeline H W) :=
  match s.masks.pc .consumer, s.phase with
  | .outside, .calculate =>
    s.masks.consumed.getLast?.map fun mask =>
      { s with phase := .publish, computed := s.computed ++ [calculateCom mask] }
  | .outside, .publish =>
    let coms := s.coms.publish
    some { s with phase := if coms.value = s.coms.value then .publish else .test, coms }
  | .outside, .test =>
    (s.masks.step size .consumer).map fun masks => { s with phase := .calculate, masks }
  | _, _ => (s.masks.step size .consumer).map fun masks => { s with masks }

/-- Which step is taken. -/
inductive Choice
  | camera (pull : Pull)
  | com
  | control
  | stopper
  | spurious (t : MaskThread)

/-- One step of the program. -/
def step (s : Pipeline H W) : Choice → Option (Pipeline H W)
  | .camera pull => s.camera size pull
  | .com => s.com size
  | .control => some { s with coms := s.coms.consume }
  | .stopper => (s.masks.step size .stopper).map fun masks => { s with masks }
  | .spurious t => (s.masks.step size (.spurious t)).map fun masks => { s with masks }

/-- The step is not a stale store of a tail. -/
def Fresh (s : Pipeline H W) : Choice → Prop
  | .com => s.masks.pc .consumer = .outside → s.phase = .publish → s.coms.Fresh .publisher
  | .control => s.coms.Fresh .consumer
  | _ => True

/-- The centers of mass that `start_thread_func` has obtained. -/
def received (s : Pipeline H W) : List COM := s.coms.obtained.filterMap fun v => s.computed[v - 1]?

/-- The centers of mass of the masks that some pulls lead to. -/
def centers (buffers : MaskBuffers H W) (pulls : List Pull) : List COM :=
  (queuedMasks buffers.greenMask pulls).map calculateCom

end Pipeline

/-! ### The masks -/

/-- Where a thread is with its mask: outside, before the copy, or after it. The last is the way of
the consumer to its next mask or to its end. -/
inductive MaskStage
  | outside
  | before
  | after
  | leaving
  deriving DecidableEq

def MaskPc.stage : MaskPc → MaskStage
  | .outside => .outside
  | .lock | .test | .wait | .parked | .woken | .copy => .before
  | .advance | .change | .signal | .unlock => .after
  | .testStop | .unlockStop | .done => .leaving

namespace MaskQueue

variable {α : Type*} {size : ℕ} {s s' : MaskQueue α} {t : MaskThread}

lemma stage_wake (s : MaskQueue α) (t u : MaskThread) :
    ((s.wake t).pc u).stage = (s.pc u).stage := by
  rw [wake]
  split
  next hpc =>
    rw [pc_goto]
    split
    next e => rw [e, hpc]; rfl
    next => rfl
  next => rfl

lemma lists_wake (s : MaskQueue α) (t : MaskThread) :
    (s.wake t).produced = s.produced ∧ (s.wake t).consumed = s.consumed ∧
      (s.wake t).greenMask = s.greenMask := by
  rw [wake]
  split <;> exact ⟨rfl, rfl, rfl⟩

/-- What a step of a critical section does to the masks: its thread copies one, or nothing. -/
structure Passes (size : ℕ) (s : MaskQueue α) (t : MaskThread) (s' : MaskQueue α) : Prop where
  other : (s'.pc t.other).stage = (s.pc t.other).stage
  greenMask : s'.greenMask = s.greenMask
  copies : (s.pc t).stage = .before ∧ (s'.pc t).stage = .after ∧
      s'.produced = ((body size t).copy s).produced ∧
      s'.consumed = ((body size t).copy s).consumed ∨
    (s'.produced = s.produced ∧ s'.consumed = s.consumed) ∧
      ((s.pc t).stage = .before ∧ (s'.pc t).stage = .before ∨
        (s.pc t).stage = .after ∧ (s'.pc t).stage = .after ∨
        (s.pc t).stage = .after ∧ (s'.pc t).stage = .outside)

lemma Passes.goto {u : MaskQueue α} (pc : MaskPc) (hpc : u.pc = (s.goto t pc).pc)
    (hlists : u.produced = s.produced ∧ u.consumed = s.consumed) (hmask : u.greenMask = s.greenMask)
    (hstage : (s.pc t).stage = .before ∧ pc.stage = .before ∨
      (s.pc t).stage = .after ∧ pc.stage = .after ∨
      (s.pc t).stage = .after ∧ pc.stage = .outside) : Passes size s t u := by
  have hself : u.pc t = pc := by rw [hpc, pc_goto, if_pos rfl]
  refine ⟨?_, hmask, .inr ⟨hlists, by rwa [hself]⟩⟩
  rw [hpc, pc_goto, if_neg (other_ne t)]

theorem passes_of_criticalSection (h : criticalSection (body size t) s t = some s') :
    Passes size s t s' := by
  unfold criticalSection at h
  split at h
  next hpc =>
    split at h
    next =>
      obtain rfl := Option.some.inj h
      exact .goto _ rfl ⟨rfl, rfl⟩ rfl (.inl ⟨by rw [hpc]; rfl, rfl⟩)
    next => exact absurd h (by simp)
  next hpc =>
    split at h
    next =>
      obtain rfl := Option.some.inj h
      exact .goto _ rfl ⟨rfl, rfl⟩ rfl (.inl ⟨by rw [hpc]; rfl, rfl⟩)
    next => exact absurd h (by simp)
  next hpc =>
    obtain rfl := Option.some.inj h
    refine .goto _ rfl ⟨rfl, rfl⟩ rfl (.inl ⟨by rw [hpc]; rfl, ?_⟩)
    split <;> rfl
  next hpc =>
    obtain rfl := Option.some.inj h
    exact .goto _ rfl ⟨rfl, rfl⟩ rfl (.inl ⟨by rw [hpc]; rfl, rfl⟩)
  next hpc =>
    obtain rfl := Option.some.inj h
    refine ⟨?_, ?_, .inl ⟨by rw [hpc]; rfl, ?_, rfl, rfl⟩⟩
    · rw [pc_goto, if_neg (other_ne t)]
      cases t <;> rfl
    · cases t <;> rfl
    · rw [pc_goto, if_pos rfl]
      rfl
  next hpc =>
    obtain rfl := Option.some.inj h
    refine .goto .change ?_ ?_ ?_ (.inr (.inl ⟨by rw [hpc]; rfl, rfl⟩)) <;>
      cases t <;> first | rfl | exact ⟨rfl, rfl⟩
  next hpc =>
    obtain rfl := Option.some.inj h
    refine .goto .signal ?_ ?_ ?_ (.inr (.inl ⟨by rw [hpc]; rfl, rfl⟩)) <;>
      cases t <;> first | rfl | exact ⟨rfl, rfl⟩
  next hpc =>
    obtain rfl := Option.some.inj h
    obtain ⟨hproduced, hconsumed, hmask⟩ := lists_wake s t.other
    refine ⟨?_, hmask, .inr ⟨⟨hproduced, hconsumed⟩, .inr (.inl ⟨by rw [hpc]; rfl, ?_⟩)⟩⟩
    · rw [pc_goto, if_neg (other_ne t), stage_wake]
    · rw [pc_goto, if_pos rfl]
      rfl
  next hpc =>
    obtain rfl := Option.some.inj h
    exact .goto _ rfl ⟨rfl, rfl⟩ rfl (.inr (.inr ⟨by rw [hpc]; rfl, rfl⟩))
  next => exact absurd h (by simp)

lemma Inv.step (h : Inv size s) {c : Choice α} (hstep : step size s c = some s') : Inv size s' := by
  have hmoves := step_cases hstep
  exact ⟨h.lock.moves hmoves, h.wake.moves h.lock hmoves, h.data.moves h.lock h.wake hmoves⟩

/-- A step that has no part in the masks. -/
structure Idle (s s' : MaskQueue α) : Prop where
  stage : ∀ t, (s'.pc t).stage = (s.pc t).stage
  produced : s'.produced = s.produced
  consumed : s'.consumed = s.consumed
  greenMask : s'.greenMask = s.greenMask

lemma idle_stopper (h : step size s .stopper = some s') : Idle s s' := by
  simp only [step, stopImageProcessor] at h
  split at h
  next =>
    obtain rfl := Option.some.inj h
    exact ⟨fun _ => rfl, rfl, rfl, rfl⟩
  next =>
    obtain rfl := Option.some.inj h
    obtain ⟨hproduced, hconsumed, hmask⟩ := lists_wake s .consumer
    exact ⟨fun _ => stage_wake .., hproduced, hconsumed, hmask⟩
  next =>
    obtain rfl := Option.some.inj h
    obtain ⟨hproduced, hconsumed, hmask⟩ := lists_wake s .producer
    exact ⟨fun _ => stage_wake .., hproduced, hconsumed, hmask⟩
  next => exact absurd h (by simp)

lemma idle_spurious (h : step size s (.spurious t) = some s') : Idle s s' := by
  have hs' : s' = s.wake t := by
    simp only [step] at h
    split at h
    next hpc => rw [wake, if_pos hpc, Option.some.inj h]
    next => exact absurd h (by simp)
  obtain ⟨hproduced, hconsumed, hmask⟩ := lists_wake s t
  rw [hs']
  exact ⟨fun _ => stage_wake .., hproduced, hconsumed, hmask⟩

lemma step_producer (hpc : s.pc .producer ≠ .outside) (mask : α) :
    step size s (.producer mask) = criticalSection (body size .producer) s .producer := by
  simp only [step, greenMaskThread]
  rfl

lemma step_producer_outside (hpc : s.pc .producer = .outside) (mask : α) :
    step size s (.producer mask) = some ({ s with greenMask := mask }.goto .producer .lock) := by
  simp only [step, greenMaskThread, hpc]

lemma step_consumer_cases (h : step size s .consumer = some s') :
    Passes size s .consumer s' ∨
      (s'.produced = s.produced ∧ s'.consumed = s.consumed ∧ s'.greenMask = s.greenMask) ∧
        s'.pc .producer = s.pc .producer ∧
        (s.pc .consumer = .outside ∨ (s.pc .consumer).stage = .leaving) ∧
        ((s'.pc .consumer).stage = .leaving ∨ (s'.pc .consumer).stage = .before) := by
  have hother : ∀ pc, (s.goto .consumer pc).pc .producer = s.pc .producer := fun pc => by
    rw [pc_goto, if_neg (by decide)]
  have hself : ∀ pc, (s.goto .consumer pc).pc .consumer = pc := fun pc => by
    rw [pc_goto, if_pos rfl]
  simp only [step, comCalculatorThread] at h
  split at h
  next hpc =>
    obtain rfl := Option.some.inj h
    exact .inr ⟨⟨rfl, rfl, rfl⟩, hother _, .inl hpc, .inl (by rw [hself]; rfl)⟩
  next hpc =>
    obtain rfl := Option.some.inj h
    refine .inr ⟨⟨rfl, rfl, rfl⟩, hother _, .inr (by rw [hpc]; rfl), ?_⟩
    rw [hself]
    cases s.stop
    · exact .inr rfl
    · exact .inl rfl
  next hpc =>
    obtain rfl := Option.some.inj h
    refine .inr ⟨⟨rfl, rfl, rfl⟩, hother .done, .inr (by rw [hpc]; rfl), .inl ?_⟩
    exact congrArg MaskPc.stage (hself .done)
  next => exact .inl (passes_of_criticalSection h)

end MaskQueue

/-! ### The numbers -/

namespace HandOver

/-- A step of the publisher ends the publication of its value or goes on with it, and it puts no
other value in the queue. -/
lemma publish_value {s : HandOver} {g : Ghost} (hs : Inv s g) :
    (s.publish.value = s.value ∨ s.publish.value = s.value + 1) ∧
      (s.publish.accepted = s.accepted ∨ s.publish.accepted = s.accepted ++ [s.value]) := by
  unfold HandOver.publish
  split
  next pc hp =>
    have hvalue := (hs.enqueue pc (by rw [hp]; rfl)).1
    split
    next => exact ⟨.inl rfl, .inl rfl⟩
    next => exact ⟨.inr rfl, .inr (by rw [← hvalue]; rfl)⟩
    next => exact ⟨.inl rfl, .inl rfl⟩
  next pc hp =>
    split
    next => exact ⟨.inl rfl, .inl rfl⟩
    next => exact ⟨.inl rfl, .inl rfl⟩
  next pc hp =>
    have hvalue := (hs.enqueue pc (by rw [hp]; rfl)).1
    split
    next => exact ⟨.inl rfl, .inl rfl⟩
    next => exact ⟨.inr rfl, .inr (by rw [← hvalue]; rfl)⟩
    next => exact ⟨.inr rfl, .inl rfl⟩

lemma consume_value (s : HandOver) :
    s.consume.value = s.value ∧ s.consume.accepted = s.accepted := by
  unfold HandOver.consume
  split <;> exact ⟨rfl, rfl⟩

end HandOver

/-! ### The invariant -/

namespace Pipeline

variable {size : ℕ} {buffers : MaskBuffers H W} {s s' : Pipeline H W}

/-- The mask that `green_mask_thread` has made and not yet copied. -/
def pending (s : Pipeline H W) : List (Mask H W) :=
  if (s.masks.pc .producer).stage = .before then [s.buffers.greenMask] else []

/-- The masks that `com_calculator_thread` has copied and not yet made a center of, at most one. -/
def owed (s : Pipeline H W) : ℕ :=
  if s.phase = .calculate ∧
    ((s.masks.pc .consumer).stage = .after ∨ (s.masks.pc .consumer).stage = .outside) then 1 else 0

/-- The masks that were copied in are those of the pulls so far. -/
structure CameraInv (buffers : MaskBuffers H W) (s : Pipeline H W) : Prop where
  run : (GreenThread.mk buffers []).run s.pulls =
    { buffers := s.buffers, queued := s.masks.produced ++ s.pending }
  greenMask : (s.masks.pc .producer).stage = .before → s.masks.greenMask = s.buffers.greenMask

/-- The centers that were computed are those of the masks that were copied out, and the value that
is published is the number of the last of them, or the next number. -/
structure ComInv (s : Pipeline H W) : Prop where
  computed : ∃ rest, s.masks.consumed.map calculateCom = s.computed ++ rest ∧
    rest.length = s.owed
  phase : s.phase ≠ .calculate → s.masks.pc .consumer = .outside
  value : s.coms.value = s.computed.length + if s.phase = .publish then 0 else 1
  positive : 0 < s.coms.value ∧ ∀ v ∈ s.coms.accepted, 0 < v

/-- What holds in every state of a run without stale stores. -/
structure Inv (size : ℕ) (buffers : MaskBuffers H W) (s : Pipeline H W) : Prop where
  masks : s.masks.Inv size
  coms : ∃ g, s.coms.Inv g
  camera : CameraInv buffers s
  com : ComInv s

lemma stage_outside_iff {pc : MaskPc} : pc.stage = .outside ↔ pc = .outside := by
  cases pc <;> decide

lemma CameraInv.congr (h : CameraInv buffers s)
    (hthread : s'.buffers = s.buffers ∧ s'.pulls = s.pulls)
    (hstage : (s'.masks.pc .producer).stage = (s.masks.pc .producer).stage)
    (hmasks : s'.masks.produced = s.masks.produced ∧ s'.masks.greenMask = s.masks.greenMask) :
    CameraInv buffers s' := by
  obtain ⟨hrun, hmask⟩ := h
  have hpending : s'.pending = s.pending := by
    unfold pending
    rw [hstage, hthread.1]
  refine ⟨?_, ?_⟩
  · rw [hthread.1, hthread.2, hmasks.1, hpending, hrun]
  · rw [hstage, hthread.1, hmasks.2]
    exact hmask

lemma ComInv.congr (h : ComInv s)
    (hthread : s'.phase = s.phase ∧ s'.computed = s.computed)
    (hstage : (s'.masks.pc .consumer).stage = (s.masks.pc .consumer).stage)
    (hconsumed : s'.masks.consumed = s.masks.consumed)
    (hcoms : s'.coms.value = s.coms.value ∧ s'.coms.accepted = s.coms.accepted) : ComInv s' := by
  obtain ⟨hcomputed, hphase, hvalue, hpositive⟩ := h
  have howed : s'.owed = s.owed := by
    unfold owed
    rw [hthread.1, hstage]
  refine ⟨?_, ?_, ?_, ?_⟩
  · rw [hconsumed, hthread.2, howed]
    exact hcomputed
  · rw [hthread.1, ← stage_outside_iff, hstage, stage_outside_iff]
    exact hphase
  · rw [hcoms.1, hthread.1, hthread.2]
    exact hvalue
  · rw [hcoms.1, hcoms.2]
    exact hpositive

/-! ### Steps -/

lemma run_concat (t : GreenThread H W) (pulls : List Pull) (pull : Pull) :
    t.run (pulls ++ [pull]) = (t.run pulls).turn pull :=
  List.foldl_append ..

/-- A pull that fills the buffers is a turn that copies them. -/
lemma turn_of_fill {b filled : MaskBuffers H W} {pull : Pull} (h : fill b pull = some filled)
    (queued : List (Mask H W)) : (GreenThread.mk b queued).turn pull =
      { buffers := filled, queued := queued ++ [filled.greenMask] } := by
  cases pull <;> cases h <;> rfl

/-- What a step of `green_mask_thread` leaves as it is. -/
structure CameraKeeps (size : ℕ) (s s' : Pipeline H W) : Prop where
  thread : s'.phase = s.phase ∧ s'.computed = s.computed
  coms : s'.coms = s.coms
  stage : (s'.masks.pc .consumer).stage = (s.masks.pc .consumer).stage
  consumed : s'.masks.consumed = s.masks.consumed
  masks : s.masks.Inv size → s'.masks.Inv size

theorem CameraInv.camera (h : CameraInv buffers s) {pull : Pull}
    (hstep : s.camera size pull = some s') : CameraInv buffers s' ∧ CameraKeeps size s s' := by
  unfold Pipeline.camera at hstep
  split at hstep
  next hpc =>
    have hpending : s.pending = [] := by rw [pending, if_neg (by rw [hpc]; decide)]
    have hrun := h.run
    rw [hpending, List.append_nil] at hrun
    have hsnoc : (GreenThread.mk buffers []).run (s.pulls ++ [pull]) =
        (GreenThread.mk s.buffers s.masks.produced).turn pull := by rw [run_concat, hrun]
    split at hstep
    next hfill =>
      obtain rfl := Option.some.inj hstep
      obtain rfl : pull = .noSample := by cases pull <;> first | rfl | cases hfill
      refine ⟨⟨?_, h.greenMask⟩, ⟨⟨rfl, rfl⟩, rfl, rfl, rfl, fun h => h⟩⟩
      show (GreenThread.mk buffers []).run (s.pulls ++ [.noSample]) =
        GreenThread.mk s.buffers (s.masks.produced ++ s.pending)
      rw [hsnoc, hpending, List.append_nil]
      rfl
    next filled hfill =>
      obtain ⟨masks, hmasks, rfl⟩ := Option.map_eq_some_iff.1 hstep
      have hinv : s.masks.Inv size → masks.Inv size := fun h => h.step hmasks
      obtain rfl : _ = masks :=
        Option.some.inj ((MaskQueue.step_producer_outside hpc filled.greenMask).symm.trans hmasks)
      refine ⟨⟨?_, fun _ => rfl⟩, ⟨⟨rfl, rfl⟩, rfl, ?_, rfl, hinv⟩⟩
      · rw [hsnoc, turn_of_fill hfill]
        rfl
      · show ((MaskQueue.goto _ _ _).pc .consumer).stage = _
        rw [MaskQueue.pc_goto, if_neg (by decide)]
  next hpc =>
    have hne : s.masks.pc .producer ≠ .outside := fun e => hpc e
    obtain ⟨masks, hmasks, rfl⟩ := Option.map_eq_some_iff.1 hstep
    have hinv : s.masks.Inv size → masks.Inv size := fun h => h.step hmasks
    rw [MaskQueue.step_producer hne] at hmasks
    obtain ⟨hother, hmask, hcopies⟩ := MaskQueue.passes_of_criticalSection hmasks
    rcases hcopies with ⟨hbefore, hafter, hproduced, hconsumed⟩ | ⟨⟨hproduced, hconsumed⟩, hstage⟩
    · -- the mask that was pending has been copied
      refine ⟨⟨?_, fun h' => ?_⟩, ⟨⟨rfl, rfl⟩, rfl, hother, hconsumed, hinv⟩⟩
      · rw [h.run, pending, pending, if_pos hbefore, if_neg (by rw [hafter]; decide),
          ← h.greenMask hbefore, hproduced, List.append_nil]
        rfl
      · rw [hafter] at h'
        cases h'
    · have hiff : (masks.pc .producer).stage = .before ↔
          (s.masks.pc .producer).stage = .before := by
        rcases hstage with ⟨h₁, h₂⟩ | ⟨h₁, h₂⟩ | ⟨h₁, h₂⟩
        · rw [h₁, h₂]
        · rw [h₁, h₂]
        · rw [h₁, h₂]
          decide
      refine ⟨⟨?_, fun h' => ?_⟩, ⟨⟨rfl, rfl⟩, rfl, hother, hconsumed, hinv⟩⟩
      · rw [h.run, pending, pending, hproduced]
        simp only [hiff]
      · rw [hmask]
        exact h.greenMask (hiff.1 h')

lemma CameraInv.consumer (h : CameraInv buffers s) {masks : MaskQueue (Mask H W)}
    (hmasks : s.masks.step size .consumer = some masks)
    (hthread : s'.buffers = s.buffers ∧ s'.pulls = s.pulls) (hs' : s'.masks = masks) :
    CameraInv buffers s' := by
  subst hs'
  rcases MaskQueue.step_consumer_cases hmasks with hpasses | ⟨⟨hproduced, -, hmask⟩, hpc, -⟩
  · refine h.congr hthread hpasses.other ⟨?_, hpasses.greenMask⟩
    rcases hpasses.copies with ⟨-, -, hproduced, -⟩ | ⟨⟨hproduced, -⟩, -⟩
    · exact hproduced
    · exact hproduced
  · exact h.congr hthread (congrArg MaskPc.stage hpc) ⟨hproduced, hmask⟩

/-- **`com_calculator_thread` computes** the center of the mask it has copied last. -/
lemma ComInv.calculate (h : ComInv s) (hpc : s.masks.pc .consumer = .outside)
    (hphase : s.phase = .calculate) {mask : Mask H W}
    (hmask : s.masks.consumed.getLast? = some mask) :
    ComInv { s with phase := .publish, computed := s.computed ++ [calculateCom mask] } := by
  obtain ⟨rest, hcomputed, hlength⟩ := h.computed
  have howed : s.owed = 1 := if_pos ⟨hphase, .inr (by rw [hpc]; rfl)⟩
  obtain ⟨com, rfl⟩ := List.length_eq_one_iff.1 (hlength.trans howed)
  obtain ⟨init, hinit⟩ := List.getLast?_eq_some_iff.1 hmask
  rw [hinit, List.map_append, List.map_singleton] at hcomputed
  obtain ⟨hinit', hcom⟩ := List.append_inj' hcomputed rfl
  have hvalue := h.value
  rw [if_neg (by rw [hphase]; decide)] at hvalue
  refine ⟨⟨[], ?_, ?_⟩, fun _ => hpc, ?_, h.positive⟩
  · rw [List.append_nil, hinit, List.map_append, List.map_singleton, hinit']
  · exact (if_neg fun hc => nomatch hc.1).symm
  · simpa using hvalue

/-- **`com_calculator_thread` publishes** the number of that center. -/
lemma ComInv.publish (h : ComInv s) {g : HandOver.Ghost} (hs : s.coms.Inv g)
    (hpc : s.masks.pc .consumer = .outside) (hphase : s.phase = .publish) :
    ComInv { s with
      phase := if s.coms.publish.value = s.coms.value then .publish else .test
      coms := s.coms.publish } := by
  obtain ⟨rest, hcomputed, hlength⟩ := h.computed
  have howed : s.owed = 0 := if_neg fun hc => by rw [hphase] at hc; exact nomatch hc.1
  obtain ⟨hvalue', haccepted⟩ := HandOver.publish_value hs
  have hvalue := h.value
  rw [if_pos hphase, Nat.add_zero] at hvalue
  refine ⟨⟨rest, hcomputed, ?_⟩, fun _ => hpc, ?_, ?_, ?_⟩
  · rw [hlength, howed]
    refine (if_neg fun hc => ?_).symm
    have hphase' := hc.1
    dsimp only at hphase'
    split at hphase' <;> cases hphase'
  · dsimp only
    rcases hvalue' with heq | heq
    · rw [if_pos heq, if_pos rfl, heq, hvalue]
      rfl
    · have hne : s.coms.publish.value ≠ s.coms.value := by omega
      rw [if_neg hne, if_neg (by decide), heq, hvalue]
  · rcases hvalue' with heq | heq
    · exact heq ▸ h.positive.1
    · exact heq ▸ Nat.succ_pos _
  · intro v hv
    rcases haccepted with heq | heq
    · exact h.positive.2 v (heq ▸ hv)
    · rcases List.mem_append.1 (heq ▸ hv) with hv | hv
      · exact h.positive.2 v hv
      · exact List.mem_singleton.1 hv ▸ h.positive.1

/-- **`com_calculator_thread` goes to its next mask**, or to its end. -/
lemma ComInv.leave (h : ComInv s) {masks : MaskQueue (Mask H W)}
    (hmasks : s.masks.step size .consumer = some masks)
    (hpc : s.masks.pc .consumer = .outside) (hphase : s.phase = .test) :
    ComInv { s with phase := .calculate, masks } := by
  obtain ⟨rest, hcomputed, hlength⟩ := h.computed
  have howed : s.owed = 0 := if_neg fun hc => by rw [hphase] at hc; exact nomatch hc.1
  have hvalue := h.value
  rw [if_neg (by rw [hphase]; decide)] at hvalue
  rcases MaskQueue.step_consumer_cases hmasks with hpasses | ⟨⟨-, hconsumed, -⟩, -, -, hstage⟩
  · have hstage : (s.masks.pc .consumer).stage = .outside := by rw [hpc]; rfl
    rcases hpasses.copies with ⟨hc, -⟩ | ⟨-, ⟨hc, -⟩ | ⟨hc, -⟩ | ⟨hc, -⟩⟩ <;>
      rw [hstage] at hc <;> cases hc
  · refine ⟨⟨rest, ?_, ?_⟩, fun hc => absurd rfl hc, hvalue, h.positive⟩
    · show masks.consumed.map calculateCom = _
      rw [hconsumed, hcomputed]
    · rw [hlength, howed]
      refine (if_neg ?_).symm
      rintro ⟨-, hc | hc⟩ <;> dsimp only at hc <;> rcases hstage with hs | hs <;> rw [hs] at hc <;>
        cases hc

/-- **`com_calculator_thread` takes a mask**, or goes on to the queue. -/
lemma ComInv.take (h : ComInv s) {masks : MaskQueue (Mask H W)}
    (hmasks : s.masks.step size .consumer = some masks)
    (hpc : s.masks.pc .consumer ≠ .outside) : ComInv { s with masks } := by
  obtain ⟨rest, hcomputed, hlength⟩ := h.computed
  have hphase : s.phase = .calculate := by
    by_contra hne
    exact hpc (h.phase hne)
  have howed : ∀ masks : MaskQueue (Mask H W), ({ s with masks } : Pipeline H W).owed =
      if (masks.pc .consumer).stage = .after ∨ (masks.pc .consumer).stage = .outside then 1
      else 0 := by
    intro masks
    unfold owed
    simp only [hphase, true_and]
  rw [show s.owed = _ from howed s.masks] at hlength
  refine ⟨?_, fun hc => absurd hphase hc, h.value, h.positive⟩
  rw [howed]
  show ∃ rest, masks.consumed.map calculateCom = s.computed ++ rest ∧ _
  rcases MaskQueue.step_consumer_cases hmasks with
    hpasses | ⟨⟨-, hconsumed, -⟩, -, hleaving, hstage⟩
  · rcases hpasses.copies with ⟨hbefore, hafter, -, hconsumed⟩ | ⟨⟨-, hconsumed⟩, hstage⟩
    · -- one more mask is owed its center
      rw [hbefore, if_neg (by decide), List.length_eq_zero_iff] at hlength
      rw [hlength, List.append_nil] at hcomputed
      refine ⟨[calculateCom (s.masks.buffer s.masks.front)], ?_, by rw [hafter]; rfl⟩
      rw [hconsumed, ← hcomputed]
      exact List.map_append ..
    · refine ⟨rest, by rw [hconsumed, hcomputed], hlength.trans ?_⟩
      rcases hstage with ⟨h₁, h₂⟩ | ⟨h₁, h₂⟩ | ⟨h₁, h₂⟩
      · rw [h₁, h₂]
      · rw [h₁, h₂]
      · rw [h₁, h₂]
        rfl
  · refine ⟨rest, by rw [hconsumed, hcomputed], hlength.trans ?_⟩
    rcases hleaving with hc | hleaving
    · exact absurd hc hpc
    · rw [hleaving]
      rcases hstage with hs | hs
      · rw [hs]
      · rw [hs]
        rfl

theorem Inv.step (h : Inv size buffers s) {c : Choice} (hfresh : s.Fresh c)
    (hstep : s.step size c = some s') : Inv size buffers s' := by
  obtain ⟨hmasks, ⟨g, hcoms⟩, hcamera, hcom⟩ := h
  cases c with
  | camera pull =>
    obtain ⟨hcamera', hkeeps⟩ := hcamera.camera hstep
    refine ⟨hkeeps.masks hmasks, ⟨g, hkeeps.coms ▸ hcoms⟩, hcamera', ?_⟩
    refine hcom.congr hkeeps.thread hkeeps.stage hkeeps.consumed ?_
    rw [hkeeps.coms]
    exact ⟨rfl, rfl⟩
  | com =>
    simp only [Pipeline.step, Pipeline.com] at hstep
    split at hstep
    next hpc hphase =>
      obtain ⟨mask, hmask, rfl⟩ := Option.map_eq_some_iff.1 hstep
      exact ⟨hmasks, ⟨g, hcoms⟩, hcamera.congr ⟨rfl, rfl⟩ rfl ⟨rfl, rfl⟩,
        hcom.calculate hpc hphase hmask⟩
    next hpc hphase =>
      obtain rfl := Option.some.inj hstep
      exact ⟨hmasks, hcoms.publish (hfresh hpc hphase), hcamera.congr ⟨rfl, rfl⟩ rfl ⟨rfl, rfl⟩,
        hcom.publish hcoms hpc hphase⟩
    next hpc hphase =>
      obtain ⟨masks, hnext, rfl⟩ := Option.map_eq_some_iff.1 hstep
      exact ⟨hmasks.step hnext, ⟨g, hcoms⟩, hcamera.consumer hnext ⟨rfl, rfl⟩ rfl,
        hcom.leave hnext hpc hphase⟩
    next hcalculate hpublish htest =>
      obtain ⟨masks, hnext, rfl⟩ := Option.map_eq_some_iff.1 hstep
      have hpc : s.masks.pc .consumer ≠ .outside := by
        intro hpc
        cases hphase : s.phase
        · exact hcalculate hpc hphase
        · exact hpublish hpc hphase
        · exact htest hpc hphase
      exact ⟨hmasks.step hnext, ⟨g, hcoms⟩, hcamera.consumer hnext ⟨rfl, rfl⟩ rfl,
        hcom.take hnext hpc⟩
  | control =>
    obtain rfl := Option.some.inj hstep
    exact ⟨hmasks, hcoms.consume hfresh, hcamera.congr ⟨rfl, rfl⟩ rfl ⟨rfl, rfl⟩,
      hcom.congr ⟨rfl, rfl⟩ rfl rfl (HandOver.consume_value s.coms)⟩
  | stopper =>
    obtain ⟨masks, hnext, rfl⟩ := Option.map_eq_some_iff.1 hstep
    have hidle := MaskQueue.idle_stopper hnext
    exact ⟨hmasks.step hnext, ⟨g, hcoms⟩,
      hcamera.congr ⟨rfl, rfl⟩ (hidle.stage .producer) ⟨hidle.produced, hidle.greenMask⟩,
      hcom.congr ⟨rfl, rfl⟩ (hidle.stage .consumer) hidle.consumed ⟨rfl, rfl⟩⟩
  | spurious t =>
    obtain ⟨masks, hnext, rfl⟩ := Option.map_eq_some_iff.1 hstep
    have hidle := MaskQueue.idle_spurious hnext
    exact ⟨hmasks.step hnext, ⟨g, hcoms⟩,
      hcamera.congr ⟨rfl, rfl⟩ (hidle.stage .producer) ⟨hidle.produced, hidle.greenMask⟩,
      hcom.congr ⟨rfl, rfl⟩ (hidle.stage .consumer) hidle.consumed ⟨rfl, rfl⟩⟩

theorem inv_start (hsize : 0 < size) (slots : ℕ → Mask H W) (buffers : MaskBuffers H W)
    (buffer : ℕ → ℕ) : Inv size buffers (start slots buffers buffer) where
  masks := MaskQueue.inv_start hsize slots buffers.greenMask
  coms := ⟨_, HandOver.inv_start buffer⟩
  camera := ⟨rfl, fun h => nomatch h⟩
  com := ⟨⟨[], rfl, rfl⟩, fun h => absurd rfl h, rfl, Nat.one_pos,
    fun _ h => absurd h List.not_mem_nil⟩

theorem inv_of_run (hsize : 0 < size) {slots : ℕ → Mask H W} {buffer : ℕ → ℕ}
    (h : Run (step size) Fresh (start slots buffers buffer) s) : Inv size buffers s :=
  h.invariant (inv_start hsize slots buffers buffer) fun _ _ _ hs hfresh hstep =>
    hs.step hfresh hstep

/-! ### The order of the targets -/

/-- The entries of a list at increasing numbers above `k`, from one on, are in the order of the
list. -/
lemma sublist_of_increasing {α : Type*} (xs : List α) {vs : List ℕ} (h : vs.Pairwise (· < ·))
    {k : ℕ} (hvs : ∀ v ∈ vs, k < v ∧ v ≤ xs.length) :
    (vs.filterMap fun v => xs[v - 1]?).Sublist (xs.drop k) ∧
      (vs.filterMap fun v => xs[v - 1]?).length = vs.length := by
  induction vs generalizing k with
  | nil => exact ⟨List.nil_sublist _, rfl⟩
  | cons v vs ih =>
    obtain ⟨hlt, hrest⟩ := List.pairwise_cons.1 h
    obtain ⟨hk, hv⟩ := hvs v List.mem_cons_self
    obtain ⟨hsub, hlength⟩ := ih hrest (k := v) fun w hw =>
      ⟨hlt w hw, (hvs w (List.mem_cons_of_mem _ hw)).2⟩
    have hbound : v - 1 < xs.length := by omega
    have hget : xs[v - 1]? = some xs[v - 1] := List.getElem?_eq_getElem hbound
    have hdrop : xs.drop (v - 1) = xs[v - 1] :: xs.drop v := by
      rw [List.drop_eq_getElem_cons hbound, show v - 1 + 1 = v by omega]
    have hle : (xs.drop (v - 1)).Sublist (xs.drop k) :=
      List.drop_sublist_drop_left xs (by omega)
    simp only [List.filterMap_cons, hget, List.length_cons, hlength, and_true]
    refine List.Sublist.trans ?_ hle
    rw [hdrop]
    exact hsub.cons_cons _

/-- **Targets come in the order of their frames.** In every interleaving of the camera, the
calculation and the control loop in which no store of a tail is stale, the control loop has obtained
centers of mass of distinct queued masks, in the order in which their samples were pulled; these are
the masks of the frames, if no map fails. What has been pulled and not yet calculated is at most the
queue of masks and one mask at each end of it. -/
theorem targets_in_order (hsize : 0 < size) {slots : ℕ → Mask H W} {buffer : ℕ → ℕ}
    (h : Run (step size) Fresh (start slots buffers buffer) s) :
    s.computed <+: centers buffers s.pulls ∧
      s.received.Sublist (centers buffers s.pulls) ∧
      s.received.length = s.coms.obtained.length ∧
      (centers buffers s.pulls).length ≤ s.computed.length + size + 2 ∧
      ((∀ pull ∈ s.pulls, pull ≠ .unmapped) →
        centers buffers s.pulls = (freshMasks H W s.pulls).map calculateCom) := by
  obtain ⟨hmasks, ⟨g, hcoms⟩, hcamera, hcom⟩ := inv_of_run hsize h
  have hqueued := queued_run (GreenThread.mk buffers []) s.pulls
  rw [hcamera.run, List.nil_append] at hqueued
  obtain ⟨rest, hcomputed, hlength⟩ := hcom.computed
  have hcenters : centers buffers s.pulls =
      s.masks.produced.map calculateCom ++ s.pending.map calculateCom := by
    rw [centers, ← hqueued, List.map_append]
  have hinitial : s.computed <+: centers buffers s.pulls := by
    have hconsumed : s.masks.consumed <+: s.masks.produced := by
      rw [hmasks.data.taken]
      exact List.take_prefix _ _
    calc s.computed <+: s.masks.consumed.map calculateCom := ⟨rest, hcomputed.symm⟩
      _ <+: s.masks.produced.map calculateCom := hconsumed.map calculateCom
      _ <+: centers buffers s.pulls := ⟨_, hcenters.symm⟩
  have hvs : ∀ v ∈ s.coms.obtained, 0 < v ∧ v ≤ s.computed.length := by
    intro v hv
    obtain ⟨i, -, hget⟩ := hcoms.past v hv
    have hmem := List.mem_of_getElem? hget
    have hbelow := hcoms.below v hmem
    have hvalue := hcom.value
    exact ⟨hcom.positive.2 v hmem, by split_ifs at hvalue <;> omega⟩
  obtain ⟨hsub, hreceived⟩ := sublist_of_increasing s.computed hcoms.obtained hvs
  refine ⟨hinitial, hsub.trans hinitial.sublist, hreceived, ?_, fun hmapped =>
    congrArg _ (queuedMasks_of_mapped buffers.greenMask hmapped)⟩
  -- the masks on their way: those in the queue, one before it and one after it
  have hcount := hmasks.data.count
  have hle := hmasks.data.le
  have hpending : s.pending.length + (s.masks.pc .producer).copied ≤ 1 := by
    have hstage : ∀ pc : MaskPc, (if pc.stage = .before then 1 else 0) + pc.copied ≤ 1 :=
      fun pc => by cases pc <;> decide
    have hlength : s.pending.length =
        if (s.masks.pc .producer).stage = .before then 1 else 0 := by
      unfold pending
      split_ifs <;> rfl
    rw [hlength]
    exact hstage _
  have howed : s.owed ≤ 1 := by
    unfold owed
    split_ifs <;> simp
  have hlengths := congrArg List.length hcomputed
  rw [List.length_map, List.length_append, hlength] at hlengths
  rw [hcenters, List.length_append, List.length_map, List.length_map]
  omega

/-- Neither thread is about to store another tail than the one after the shared tail. -/
def quiet (s : Pipeline H W) : Bool := s.coms.freshTest .publisher && s.coms.freshTest .consumer

lemma fresh_of_quiet (s : Pipeline H W) (c : Choice) (h : s.quiet = true) : s.Fresh c := by
  obtain ⟨hpublisher, hconsumer⟩ := Bool.and_eq_true_iff.1 h
  cases c with
  | com => exact fun _ _ => s.coms.fresh_of_test _ hpublisher
  | control => exact s.coms.fresh_of_test _ hconsumer
  | camera | stopper | spurious => trivial

/-- The buffers of `green_mask_thread`, black. -/
def blackBuffers : MaskBuffers HEIGHT WIDTH where
  greenMask := fun _ => 0
  tempMask := fun _ => 0

/-- The steps of a frame, when `k` steps take `com_calculator_thread` from where it is through its
publish sequence: the frame is queued, its center is calculated and published, and the control loop
obtains it. -/
def frame (data : ℕ → BitVec 8) (k : ℕ) : List Choice :=
  List.replicate 8 (.camera (.mapped data)) ++ List.replicate k .com ++ List.replicate 4 .control

/-- A black frame and a white one. -/
def twoFrames : List Choice := frame (fun _ => 0) 12 ++ frame (fun _ => 255) 14

theorem targets_in_order_two : ∃ s : Pipeline HEIGHT WIDTH, s.coms.obtained = [1, 2] ∧
    s.received = [calculateCom (processed HEIGHT WIDTH fun _ => 0),
      calculateCom (processed HEIGHT WIDTH fun _ => 255)] := by
  obtain ⟨s, hexec, hs, hpulls⟩ : ∃ s,
      Lib.Interleave.exec (fun s c => if s.quiet then s.step 1 c else none)
        (start (fun _ _ => 0) blackBuffers fun _ => 0) twoFrames = some s ∧
      s.coms.obtained = [1, 2] ∧ s.pulls = [.mapped fun _ => 0, .mapped fun _ => 255] :=
    ⟨_, rfl, rfl, rfl⟩
  obtain ⟨-, hsub, hlength, -, hcenters⟩ :=
    targets_in_order Nat.one_pos (run_of_exec_test fresh_of_quiet twoFrames hexec)
  rw [hpulls] at hsub hcenters
  rw [hcenters (by simp), freshMasks, freshMasks, freshMasks, List.map_cons, List.map_singleton]
    at hsub
  refine ⟨s, hs, hsub.eq_of_length ?_⟩
  rw [hlength, hs, List.length_cons, List.length_singleton, List.length_cons,
    List.length_singleton]

end Pipeline

end PanTilt.App
