import Mathlib.Data.List.Basic
import PanTilt.Lib.Interleave
import PanTilt.Lib.Ring

/-!
The queue of green masks: `green_mask_thread` puts masks in, `com_calculator_thread` takes them out,
under one mutex and two condition variables, and `stop_image_processor` ends them.

A critical section is one definition for both threads, which copy, move an index, change the count
and signal in steps of their own. Whatever the interleaving, no mask is lost or overwritten
(`fifo_of_run`) and no wake-up is lost (`wake_of_run`). The mutex is unlocked by its holder as long
as the consumer does not see the stop flag (`unlock_discipline`).
-/

namespace PanTilt.App

open Lib.Interleave Lib.Ring

variable {α : Type*}

/-- The two threads of the queue. -/
inductive MaskThread
  | producer
  | consumer
  deriving DecidableEq

/-- The other thread. -/
def MaskThread.other : MaskThread → MaskThread
  | .producer => .consumer
  | .consumer => .producer

/-- Where a thread is, by the step it takes next. It is `parked` in `pthread_cond_wait` until it is
`woken` and takes the mutex again. -/
inductive MaskPc
  | outside
  | lock
  | test
  | wait
  | parked
  | woken
  | copy
  | advance
  | change
  | signal
  | unlock
  | testStop
  | unlockStop
  | done
  deriving DecidableEq

/-- The thread is in its critical section. -/
def MaskPc.inside : MaskPc → Bool
  | .test | .wait | .copy | .advance | .change | .signal | .unlock => true
  | _ => false

/-- The thread is past its wait, and has not yet changed the count. -/
def MaskPc.updating : MaskPc → Bool
  | .copy | .advance | .change => true
  | _ => false

lemma MaskPc.inside_of_updating {pc : MaskPc} (h : pc.updating = true) : pc.inside = true := by
  cases pc <;> first | rfl | exact nomatch h

/-- One between the copy and the step of the index. -/
def MaskPc.advancing : MaskPc → ℕ
  | .advance => 1
  | _ => 0

/-- One between the copy and the change of the count. -/
def MaskPc.copied : MaskPc → ℕ
  | .advance | .change => 1
  | _ => 0

lemma MaskPc.copied_of_outside {pc : MaskPc} (h : pc.inside = false) :
    pc.copied = 0 ∧ pc.advancing = 0 := by
  cases pc <;> first | exact ⟨rfl, rfl⟩ | exact nomatch h

lemma MaskPc.advancing_of_copied {pc : MaskPc} (h : pc.copied = 0) : pc.advancing = 0 := by
  cases pc <;> first | rfl | exact nomatch h

/-- The thread is on the stop path, which only the consumer has. -/
def MaskPc.stopping : MaskPc → Bool
  | .testStop | .unlockStop | .done => true
  | _ => false

/-- Where `stop_image_processor` is. -/
inductive StopPc
  | setFlag
  | broadcastNotEmpty
  | broadcastNotFull
  | join
  deriving DecidableEq

/-- The shared variables, the threads, and the local mask of the producer. `produced` are the masks
that the producer copied in and `consumed` those that the consumer copied out. -/
structure MaskQueue (α : Type*) where
  buffer : ℕ → α
  front : ℕ
  rear : ℕ
  count : ℤ
  owner : Option MaskThread
  pc : MaskThread → MaskPc
  stop : Bool
  stopper : StopPc
  greenMask : α
  produced : List α
  consumed : List α

namespace MaskQueue

/-! ### The threads -/

/-- When the threads have been started. -/
def start (buffer : ℕ → α) (greenMask : α) : MaskQueue α where
  buffer := buffer
  front := 0
  rear := 0
  count := 0
  owner := none
  pc
    | .producer => .outside
    | .consumer => .lock
  stop := false
  stopper := .setFlag
  greenMask := greenMask
  produced := []
  consumed := []

def goto (s : MaskQueue α) (t : MaskThread) (pc : MaskPc) : MaskQueue α :=
  { s with pc := Function.update s.pc t pc }

/-- A signal or a broadcast to the condition variable that the thread may be parked on. -/
def wake (s : MaskQueue α) (t : MaskThread) : MaskQueue α :=
  if s.pc t = .parked then s.goto t .woken else s

/-- What the threads do in their critical sections: the condition of the loop they wait in, and the
three steps after it. -/
structure Body (α : Type*) where
  blocked : MaskQueue α → Bool
  copy : MaskQueue α → MaskQueue α
  advance : MaskQueue α → MaskQueue α
  change : MaskQueue α → MaskQueue α

/-- The producer copies `green_mask` to the slot at `rear`. -/
def greenMaskBody (size : ℕ) : Body α where
  blocked s := s.count = size
  copy s :=
    { s with
      buffer := Function.update s.buffer s.rear s.greenMask
      produced := s.produced ++ [s.greenMask] }
  advance s := { s with rear := (s.rear + 1) % size }
  change s := { s with count := s.count + 1 }

/-- The consumer copies the slot at `front` to its mask. -/
def comCalculatorBody (size : ℕ) : Body α where
  blocked s := s.count = 0
  copy s := { s with consumed := s.consumed ++ [s.buffer s.front] }
  advance s := { s with front := (s.front + 1) % size }
  change s := { s with count := s.count - 1 }

def body (size : ℕ) : MaskThread → Body α
  | .producer => greenMaskBody size
  | .consumer => comCalculatorBody size

/-- One step of a thread from its `pthread_mutex_lock` to its `pthread_mutex_unlock`. The lock is
blocked while the mutex has an owner, and a parked thread has no step. -/
def criticalSection (b : Body α) (s : MaskQueue α) (t : MaskThread) : Option (MaskQueue α) :=
  match s.pc t with
  | .lock | .woken => if s.owner = none then some { s.goto t .test with owner := some t } else none
  | .test => some (s.goto t (if b.blocked s then .wait else .copy))
  | .wait => some { s.goto t .parked with owner := none }
  | .copy => some ((b.copy s).goto t .advance)
  | .advance => some ((b.advance s).goto t .change)
  | .change => some ((b.change s).goto t .signal)
  | .signal => some ((s.wake t.other).goto t .unlock)
  | .unlock => some { s.goto t .outside with owner := none }
  | _ => none

/-- One step of `green_mask_thread`, which makes a new mask outside its critical section. -/
def greenMaskThread (size : ℕ) (s : MaskQueue α) (mask : α) : Option (MaskQueue α) :=
  match s.pc .producer with
  | .outside => some ({ s with greenMask := mask }.goto .producer .lock)
  | _ => criticalSection (greenMaskBody size) s .producer

/-- One step of `com_calculator_thread`, which tests the stop flag after its critical section. The
unlock on that path releases the mutex, whoever holds it. -/
def comCalculatorThread (size : ℕ) (s : MaskQueue α) : Option (MaskQueue α) :=
  match s.pc .consumer with
  | .outside => some (s.goto .consumer .testStop)
  | .testStop => some (s.goto .consumer (if s.stop then .unlockStop else .lock))
  | .unlockStop => some { s.goto .consumer .done with owner := none }
  | _ => criticalSection (comCalculatorBody size) s .consumer

/-- One step of `stop_image_processor`. -/
def stopImageProcessor (s : MaskQueue α) : Option (MaskQueue α) :=
  match s.stopper with
  | .setFlag => some { s with stop := true, stopper := .broadcastNotEmpty }
  | .broadcastNotEmpty => some { s.wake .consumer with stopper := .broadcastNotFull }
  | .broadcastNotFull => some { s.wake .producer with stopper := .join }
  | .join => none

/-- Which step is taken; a spurious wake-up may come at any time. -/
inductive Choice (α : Type*)
  | producer (mask : α)
  | consumer
  | stopper
  | spurious (t : MaskThread)

/-- One step of the program. -/
def step (size : ℕ) (s : MaskQueue α) : Choice α → Option (MaskQueue α)
  | .producer mask => greenMaskThread size s mask
  | .consumer => comCalculatorThread size s
  | .stopper => stopImageProcessor s
  | .spurious t => if s.pc t = .parked then some (s.goto t .woken) else none

variable {size : ℕ} {s s' : MaskQueue α} {t : MaskThread} {c : Choice α}

/-- What a step can do. -/
inductive Moves (size : ℕ) (s : MaskQueue α) (c : Choice α) : MaskQueue α → Prop
  | acquire (t : MaskThread) : s.pc t = .lock ∨ s.pc t = .woken → s.owner = none →
      Moves size s c { s.goto t .test with owner := some t }
  | block (t : MaskThread) : s.pc t = .test → (body size t).blocked s = true →
      Moves size s c (s.goto t .wait)
  | pass (t : MaskThread) : s.pc t = .test → (body size t).blocked s = false →
      Moves size s c (s.goto t .copy)
  | park (t : MaskThread) : s.pc t = .wait → Moves size s c { s.goto t .parked with owner := none }
  | copy (t : MaskThread) : s.pc t = .copy → Moves size s c (((body size t).copy s).goto t .advance)
  | advance (t : MaskThread) : s.pc t = .advance →
      Moves size s c (((body size t).advance s).goto t .change)
  | change (t : MaskThread) : s.pc t = .change →
      Moves size s c (((body size t).change s).goto t .signal)
  | signal (t : MaskThread) : s.pc t = .signal → Moves size s c ((s.wake t.other).goto t .unlock)
  | release (t : MaskThread) : s.pc t = .unlock →
      Moves size s c { s.goto t .outside with owner := none }
  | ready (mask : α) : s.pc .producer = .outside →
      Moves size s c ({ s with greenMask := mask }.goto .producer .lock)
  | calculate : s.pc .consumer = .outside → Moves size s c (s.goto .consumer .testStop)
  | again : s.pc .consumer = .testStop → s.stop = false → Moves size s c (s.goto .consumer .lock)
  | leave : c = .consumer → s.pc .consumer = .testStop → s.stop = true →
      Moves size s c (s.goto .consumer .unlockStop)
  | unlockStop : s.pc .consumer = .unlockStop →
      Moves size s c { s.goto .consumer .done with owner := none }
  | setFlag (pc : StopPc) : Moves size s c { s with stop := true, stopper := pc }
  | broadcast (t : MaskThread) (pc : StopPc) : Moves size s c { s.wake t with stopper := pc }
  | spurious (t : MaskThread) : s.pc t = .parked → Moves size s c (s.goto t .woken)

lemma moves_criticalSection (h : criticalSection (body size t) s t = some s') :
    Moves size s c s' := by
  unfold criticalSection at h
  split at h
  next hpc =>
    split at h
    next howner => exact Option.some.inj h ▸ .acquire t (.inl hpc) howner
    next => exact absurd h (by simp)
  next hpc =>
    split at h
    next howner => exact Option.some.inj h ▸ .acquire t (.inr hpc) howner
    next => exact absurd h (by simp)
  next hpc =>
    cases hblocked : (body size t).blocked s with
    | true =>
      rw [hblocked] at h
      exact Option.some.inj h ▸ .block t hpc hblocked
    | false =>
      rw [hblocked] at h
      exact Option.some.inj h ▸ .pass t hpc hblocked
  next hpc => exact Option.some.inj h ▸ .park t hpc
  next hpc => exact Option.some.inj h ▸ .copy t hpc
  next hpc => exact Option.some.inj h ▸ .advance t hpc
  next hpc => exact Option.some.inj h ▸ .change t hpc
  next hpc => exact Option.some.inj h ▸ .signal t hpc
  next hpc => exact Option.some.inj h ▸ .release t hpc
  next => exact absurd h (by simp)

theorem step_cases (h : step size s c = some s') : Moves size s c s' := by
  cases c with
  | producer mask =>
    simp only [step, greenMaskThread] at h
    split at h
    next hpc => exact Option.some.inj h ▸ .ready mask hpc
    next => exact moves_criticalSection (t := .producer) h
  | consumer =>
    simp only [step, comCalculatorThread] at h
    split at h
    next hpc => exact Option.some.inj h ▸ .calculate hpc
    next hpc =>
      cases hstop : s.stop with
      | true =>
        rw [hstop] at h
        exact Option.some.inj h ▸ .leave rfl hpc hstop
      | false =>
        rw [hstop] at h
        exact Option.some.inj h ▸ .again hpc hstop
    next hpc => exact Option.some.inj h ▸ .unlockStop hpc
    next => exact moves_criticalSection (t := .consumer) h
  | stopper =>
    simp only [step, stopImageProcessor] at h
    split at h
    next => exact Option.some.inj h ▸ .setFlag _
    next => exact Option.some.inj h ▸ .broadcast .consumer _
    next => exact Option.some.inj h ▸ .broadcast .producer _
    next => exact absurd h (by simp)
  | spurious t =>
    simp only [step] at h
    split at h
    next hpc => exact Option.some.inj h ▸ .spurious t hpc
    next => exact absurd h (by simp)

/-! ### The mutex -/

lemma pc_goto (s : MaskQueue α) (t u : MaskThread) (pc : MaskPc) :
    (s.goto t pc).pc u = if u = t then pc else s.pc u := Function.update_apply ..

lemma pc_wake_of_ne {u : MaskThread} (h : u ≠ t) : (s.wake t).pc u = s.pc u := by
  rw [wake]
  split
  · rw [pc_goto, if_neg h]
  · rfl

lemma eq_or_other (t u : MaskThread) : u = t ∨ u = t.other := by
  cases t <;> cases u <;> decide

lemma other_ne (t : MaskThread) : t.other ≠ t := by
  cases t <;> decide

@[simp] lemma other_other (t : MaskThread) : t.other.other = t := by
  cases t <;> rfl

/-- Who holds the mutex. The producer may be inside without it when the consumer has released it on
the stop path, and is done. -/
structure LockInv (s : MaskQueue α) : Prop where
  holder : ∀ t, (s.pc t).inside = true → s.owner = some t ∨ s.pc .consumer = .done
  inside : ∀ t, s.owner = some t → (s.pc t).inside = true
  producer : (s.pc .producer).stopping = false

theorem LockInv.exclusive (h : LockInv s) (t : MaskThread) (ht : (s.pc t).inside = true) :
    (s.pc t.other).inside = false := by
  by_contra ho
  have ho' : (s.pc t.other).inside = true := Bool.not_eq_false _ ▸ ho
  have hdone : s.pc .consumer ≠ .done := by
    intro hd
    cases t with
    | producer => exact nomatch (hd ▸ ho' : MaskPc.done.inside = true)
    | consumer => exact nomatch (hd ▸ ht : MaskPc.done.inside = true)
  have h₁ := (h.holder t ht).resolve_right hdone
  have h₂ := (h.holder t.other ho').resolve_right hdone
  rw [h₁] at h₂
  exact other_ne t (Option.some.inj h₂).symm

lemma LockInv.moved (h : LockInv s) {pc : MaskPc} (howner : s'.owner = s.owner)
    (hpc : ∀ u, s'.pc u = if u = t then pc else s.pc u) (hin : pc.inside = (s.pc t).inside)
    (hdone : s.pc t ≠ .done) (hstop : t = .producer → pc.stopping = false) : LockInv s' := by
  have hinside : ∀ u, (s'.pc u).inside = (s.pc u).inside := by
    intro u
    rw [hpc]
    split
    next hu => rw [hu, hin]
    next => rfl
  refine ⟨?_, ?_, ?_⟩
  · intro u hu
    rw [hinside] at hu
    rw [howner, hpc]
    refine (h.holder u hu).imp_right ?_
    intro hd
    rw [if_neg]
    · exact hd
    · intro e
      exact hdone (e ▸ hd)
  · intro u hu
    rw [hinside]
    exact h.inside u (howner ▸ hu)
  · rw [hpc]
    split
    next hu => exact hstop hu.symm
    next => exact h.producer

lemma LockInv.goto (h : LockInv s) {pc pc' : MaskPc} (hpc : s.pc t = pc)
    (hin : pc'.inside = pc.inside) (hdone : pc ≠ .done)
    (hstop : t = .producer → pc'.stopping = false) : LockInv (s.goto t pc') := by
  rw [← hpc] at hin hdone
  exact h.moved rfl (fun u => pc_goto s t u pc') hin hdone hstop

lemma LockInv.wake (h : LockInv s) (t : MaskThread) : LockInv (s.wake t) := by
  rw [MaskQueue.wake]
  split
  next hpc => exact h.goto hpc rfl nofun (fun _ => rfl)
  next => exact h

lemma LockInv.released (h : LockInv s) {pc : MaskPc} (ht : (s.pc t).inside = true)
    (hout : pc.inside = false) (hstop : pc.stopping = false) :
    LockInv { s.goto t pc with owner := none } := by
  have hnone : ∀ u, ((s.goto t pc).pc u).inside = false := by
    intro u
    rw [pc_goto]
    rcases eq_or_other t u with rfl | rfl
    · rw [if_pos rfl, hout]
    · rw [if_neg (other_ne t), h.exclusive t ht]
  refine ⟨?_, ?_, ?_⟩
  · intro u hu
    rw [hnone] at hu
    cases hu
  · intro u hu
    exact absurd hu (by simp)
  · have hp : (s.goto t pc).pc .producer = if .producer = t then pc else s.pc .producer :=
      pc_goto ..
    rw [hp]
    split
    · exact hstop
    · exact h.producer

lemma LockInv.acquire (h : LockInv s) (hpc : s.pc t = .lock ∨ s.pc t = .woken)
    (howner : s.owner = none) : LockInv { s.goto t .test with owner := some t } := by
  refine ⟨?_, ?_, ?_⟩
  · intro u hu
    rcases eq_or_other t u with rfl | rfl
    · exact .inl rfl
    · refine .inr ?_
      have ho : (s.pc t.other).inside = true := by
        simpa [pc_goto, other_ne] using hu
      rcases h.holder _ ho with hsome | hd
      · exact absurd (howner ▸ hsome) (by simp)
      · have hne : t ≠ .consumer := by
          rintro rfl
          rcases hpc with hpc | hpc <;> exact nomatch hpc.symm.trans hd
        simpa [pc_goto, hne.symm] using hd
  · intro u hu
    obtain rfl : t = u := Option.some.inj hu
    simp [pc_goto, MaskPc.inside]
  · have hp := h.producer
    rw [show ({ s.goto t .test with owner := some t } : MaskQueue α).pc .producer =
      if .producer = t then .test else s.pc .producer from pc_goto ..]
    split
    · rfl
    · exact hp

lemma LockInv.done (h : LockInv s) : LockInv { s.goto .consumer .done with owner := none } := by
  refine ⟨fun u _ => .inr ?_, ?_, ?_⟩
  · simp [pc_goto]
  · intro u hu
    exact absurd hu (by simp)
  · simpa [pc_goto] using h.producer

lemma LockInv.congr (h : LockInv s) (hpc : s'.pc = s.pc) (howner : s'.owner = s.owner) :
    LockInv s' := by
  obtain ⟨h₁, h₂, h₃⟩ := h
  rw [← hpc, ← howner] at h₁
  rw [← hpc, ← howner] at h₂
  rw [← hpc] at h₃
  exact ⟨h₁, h₂, h₃⟩

lemma body_pc (size : ℕ) (t : MaskThread) (s : MaskQueue α) :
    (((body size t).copy s).pc = s.pc ∧ ((body size t).copy s).owner = s.owner) ∧
      (((body size t).advance s).pc = s.pc ∧ ((body size t).advance s).owner = s.owner) ∧
      ((body size t).change s).pc = s.pc ∧ ((body size t).change s).owner = s.owner := by
  cases t <;> exact ⟨⟨rfl, rfl⟩, ⟨rfl, rfl⟩, rfl, rfl⟩

theorem LockInv.moves (h : LockInv s) (hm : Moves size s c s') : LockInv s' := by
  have hbody : ∀ (t : MaskThread) {pc pc' : MaskPc} {d : MaskQueue α}, s.pc t = pc →
      d.pc = s.pc ∧ d.owner = s.owner → pc'.inside = pc.inside → pc ≠ .done →
      pc'.stopping = false → LockInv (d.goto t pc') := by
    intro t pc pc' d hpc hd hin hdone hstop
    have hpc' : d.pc t = pc := by rw [hd.1, hpc]
    exact (h.congr hd.1 hd.2).goto hpc' hin hdone (fun _ => hstop)
  cases hm with
  | acquire t hpc howner => exact h.acquire hpc howner
  | block t hpc _ => exact hbody t hpc ⟨rfl, rfl⟩ rfl nofun rfl
  | pass t hpc _ => exact hbody t hpc ⟨rfl, rfl⟩ rfl nofun rfl
  | park t hpc => exact h.released (by rw [hpc]; rfl) rfl rfl
  | copy t hpc => exact hbody t hpc (body_pc size t s).1 rfl nofun rfl
  | advance t hpc => exact hbody t hpc (body_pc size t s).2.1 rfl nofun rfl
  | change t hpc => exact hbody t hpc (body_pc size t s).2.2 rfl nofun rfl
  | signal t hpc =>
    have hpc' : (s.wake t.other).pc t = .signal := by
      rw [pc_wake_of_ne (other_ne t).symm, hpc]
    exact (h.wake t.other).goto hpc' rfl nofun (fun _ => rfl)
  | release t hpc => exact h.released (by rw [hpc]; rfl) rfl rfl
  | ready mask hpc => exact hbody .producer hpc ⟨rfl, rfl⟩ rfl nofun rfl
  | calculate hpc => exact h.goto hpc rfl nofun nofun
  | again hpc _ => exact h.goto hpc rfl nofun nofun
  | leave _ hpc _ => exact h.goto hpc rfl nofun nofun
  | unlockStop hpc => exact h.done
  | setFlag pc => exact h.congr rfl rfl
  | broadcast t pc => exact (h.wake t).congr rfl rfl
  | spurious t hpc => exact h.goto hpc rfl nofun (fun _ => rfl)

/-! ### The condition variables -/

lemma blocked_congr (t : MaskThread) (hcount : s'.count = s.count) :
    (body size t).blocked s' = (body size t).blocked s := by
  cases t <;> simp only [body, greenMaskBody, comCalculatorBody, hcount]

/-- What a waiting thread and a thread past its wait know of the count: it is what the thread waits
for to change, unless the other thread is about to signal. -/
structure WakeInv (size : ℕ) (s : MaskQueue α) : Prop where
  waiting : ∀ t, s.pc t = .wait → (body size t).blocked s = true
  parked : ∀ t, s.pc t = .parked → (body size t).blocked s = true ∨ s.pc t.other = .signal
  updating : ∀ t, (s.pc t).updating = true → (body size t).blocked s = false

lemma WakeInv.moved (h : WakeInv size s) {pc₀ pc : MaskPc} (hcount : s'.count = s.count)
    (hpc : ∀ u, s'.pc u = if u = t then pc else s.pc u) (hpc₀ : s.pc t = pc₀) (hsig : pc₀ ≠ .signal)
    (hwait : pc = .wait ∨ pc = .parked → (body size t).blocked s = true)
    (hupd : pc.updating = true → (body size t).blocked s = false) : WakeInv size s' := by
  refine ⟨?_, ?_, ?_⟩
  · intro u hu
    rw [blocked_congr u hcount]
    rw [hpc] at hu
    split at hu
    next e => exact e ▸ hwait (.inl hu)
    next => exact h.waiting u hu
  · intro u hu
    rw [blocked_congr u hcount]
    rw [hpc] at hu
    split at hu
    next e => exact .inl (e ▸ hwait (.inr hu))
    next e =>
      refine (h.parked u hu).imp_right ?_
      intro ho
      rw [hpc, if_neg]
      · exact ho
      · intro e'
        exact hsig (hpc₀.symm.trans (e' ▸ ho))
  · intro u hu
    rw [blocked_congr u hcount]
    rw [hpc] at hu
    split at hu
    next e => exact e ▸ hupd hu
    next => exact h.updating u hu

lemma WakeInv.goto (h : WakeInv size s) {pc₀ pc : MaskPc} (hpc : s.pc t = pc₀)
    (hsig : pc₀ ≠ .signal) (hwait : pc ≠ .wait ∧ pc ≠ .parked) (hupd : pc.updating = false) :
    WakeInv size (s.goto t pc) := by
  refine h.moved rfl (fun u => pc_goto s t u pc) hpc hsig (fun e => absurd e (not_or.mpr hwait)) ?_
  rw [hupd]
  exact nofun

lemma WakeInv.wake (h : WakeInv size s) (t : MaskThread) : WakeInv size (s.wake t) := by
  rw [MaskQueue.wake]
  split
  next hpc => exact h.goto hpc nofun ⟨nofun, nofun⟩ rfl
  next => exact h

lemma WakeInv.congr (h : WakeInv size s) (hpc : s'.pc = s.pc) (hcount : s'.count = s.count) :
    WakeInv size s' := by
  refine ⟨?_, ?_, ?_⟩
  · intro u hu
    rw [blocked_congr u hcount]
    exact h.waiting u (hpc ▸ hu)
  · intro u hu
    rw [blocked_congr u hcount, hpc]
    exact h.parked u (hpc ▸ hu)
  · intro u hu
    rw [blocked_congr u hcount]
    exact h.updating u (hpc ▸ hu)

lemma WakeInv.worked (h : WakeInv size s) {pc₀ pc : MaskPc} (hpc : s.pc t = pc₀)
    (hupd : pc₀.updating = true) (hpc' : s'.pc = s.pc) (hcount : s'.count = s.count)
    (hwait : ¬ (pc = .wait ∨ pc = .parked)) : WakeInv size (s'.goto t pc) := by
  have h' : WakeInv size s' := h.congr hpc' hcount
  have hpc₀ : s'.pc t = pc₀ := (congrFun hpc' t).trans hpc
  refine h'.moved rfl (fun u => pc_goto _ t u _) hpc₀ ?_ (fun e => absurd e hwait) ?_
  · rintro rfl
    exact nomatch hupd
  · intro _
    exact h'.updating t (by rw [hpc₀, hupd])

/-- The count changes: a thread that is parked gets a signal next. -/
lemma WakeInv.changed (hl : LockInv s) (hpc : s.pc t = .change) (hpc' : s'.pc = s.pc) :
    WakeInv size (s'.goto t .signal) := by
  have hout := hl.exclusive t (by rw [hpc]; rfl)
  have hother : ∀ u, u ≠ t → (s'.goto t .signal).pc u = s.pc t.other := by
    intro u hu
    rw [pc_goto, if_neg hu, hpc', (eq_or_other t u).resolve_left hu]
  have hself : (s'.goto t .signal).pc t = .signal := by
    rw [pc_goto, if_pos rfl]
  refine ⟨?_, ?_, ?_⟩
  · intro u hu
    by_cases e : u = t
    · rw [e, hself] at hu
      exact nomatch hu
    · rw [hother u e] at hu
      rw [hu] at hout
      exact nomatch hout
  · intro u hu
    by_cases e : u = t
    · rw [e, hself] at hu
      exact nomatch hu
    · refine .inr ?_
      rw [(eq_or_other t u).resolve_left e, other_other]
      exact hself
  · intro u hu
    by_cases e : u = t
    · rw [e, hself] at hu
      exact nomatch hu
    · rw [hother u e] at hu
      rw [MaskPc.inside_of_updating hu] at hout
      exact nomatch hout

/-- The signal leaves no thread parked. -/
lemma WakeInv.signalled (h : WakeInv size s) (t : MaskThread) :
    WakeInv size ((s.wake t.other).goto t .unlock) := by
  have hpark : (s.wake t.other).pc t.other ≠ .parked := by
    rw [MaskQueue.wake]
    split
    · rw [pc_goto, if_pos rfl]
      exact nofun
    next hne => exact hne
  have hw := h.wake t.other
  have hother : ∀ u, u ≠ t → ((s.wake t.other).goto t .unlock).pc u = (s.wake t.other).pc u := by
    intro u hu
    rw [pc_goto, if_neg hu]
  have hself : ((s.wake t.other).goto t .unlock).pc t = .unlock := by
    rw [pc_goto, if_pos rfl]
  have hblocked : ∀ u, (body size u).blocked ((s.wake t.other).goto t .unlock) =
      (body size u).blocked (s.wake t.other) := fun u => blocked_congr u rfl
  refine ⟨?_, ?_, ?_⟩
  · intro u hu
    by_cases e : u = t
    · rw [e, hself] at hu
      exact nomatch hu
    · rw [hblocked]
      exact hw.waiting u (hother u e ▸ hu)
  · intro u hu
    by_cases e : u = t
    · rw [e, hself] at hu
      exact nomatch hu
    · rw [hother u e, (eq_or_other t u).resolve_left e] at hu
      exact absurd hu hpark
  · intro u hu
    by_cases e : u = t
    · rw [e, hself] at hu
      exact nomatch hu
    · rw [hblocked]
      exact hw.updating u (hother u e ▸ hu)

lemma body_count (size : ℕ) (t : MaskThread) (s : MaskQueue α) :
    ((body size t).copy s).count = s.count ∧ ((body size t).advance s).count = s.count := by
  cases t <;> exact ⟨rfl, rfl⟩

theorem WakeInv.moves (h : WakeInv size s) (hl : LockInv s) (hm : Moves size s c s') :
    WakeInv size s' := by
  cases hm with
  | acquire t hpc _ =>
    have hgo : WakeInv size (s.goto t .test) := by
      rcases hpc with hpc | hpc
      · exact h.goto hpc nofun ⟨nofun, nofun⟩ rfl
      · exact h.goto hpc nofun ⟨nofun, nofun⟩ rfl
    exact hgo.congr rfl rfl
  | block t hpc hblocked =>
    exact h.moved rfl (fun u => pc_goto s t u _) hpc nofun (fun _ => hblocked) nofun
  | pass t hpc hblocked =>
    exact h.moved rfl (fun u => pc_goto s t u _) hpc nofun (fun e => e.elim nofun nofun)
      (fun _ => hblocked)
  | park t hpc =>
    have hgo : WakeInv size (s.goto t .parked) :=
      h.moved rfl (fun u => pc_goto s t u _) hpc nofun (fun _ => h.waiting t hpc) nofun
    exact hgo.congr rfl rfl
  | copy t hpc => exact h.worked hpc rfl (body_pc size t s).1.1 (body_count size t s).1 nofun
  | advance t hpc => exact h.worked hpc rfl (body_pc size t s).2.1.1 (body_count size t s).2 nofun
  | change t hpc => exact WakeInv.changed hl hpc (body_pc size t s).2.2.1
  | signal t hpc => exact h.signalled t
  | release t hpc =>
    have hgo : WakeInv size (s.goto t .outside) := h.goto hpc nofun ⟨nofun, nofun⟩ rfl
    exact hgo.congr rfl rfl
  | ready mask hpc =>
    have hnew : WakeInv size { s with greenMask := mask } := h.congr rfl rfl
    exact hnew.goto hpc nofun ⟨nofun, nofun⟩ rfl
  | calculate hpc => exact h.goto hpc nofun ⟨nofun, nofun⟩ rfl
  | again hpc _ => exact h.goto hpc nofun ⟨nofun, nofun⟩ rfl
  | leave _ hpc _ => exact h.goto hpc nofun ⟨nofun, nofun⟩ rfl
  | unlockStop hpc =>
    have hgo : WakeInv size (s.goto .consumer .done) := h.goto hpc nofun ⟨nofun, nofun⟩ rfl
    exact hgo.congr rfl rfl
  | setFlag pc => exact h.congr rfl rfl
  | broadcast t pc => exact (h.wake t).congr rfl rfl
  | spurious t hpc => exact h.goto hpc nofun ⟨nofun, nofun⟩ rfl

/-! ### The masks -/

/-- What the indices and the count say about the masks: the slots from `front` to `rear` hold those
that were copied in and not yet out. -/
structure DataInv (size : ℕ) (s : MaskQueue α) : Prop where
  rear_lt : s.rear < size
  front_lt : s.front < size
  rear : (s.rear + (s.pc .producer).advancing) % size = s.produced.length % size
  front : (s.front + (s.pc .consumer).advancing) % size = s.consumed.length % size
  count : s.count + (s.pc .producer).copied + s.consumed.length =
    s.produced.length + (s.pc .consumer).copied
  nonneg : 0 ≤ s.count
  le : s.count ≤ size
  holds : Holds size s.buffer s.produced s.consumed.length s.produced.length
  taken : s.consumed = s.produced.take s.consumed.length

lemma DataInv.goto (h : DataInv size s) {pc : MaskPc} (hcopied : pc.copied = (s.pc t).copied)
    (hadv : pc.advancing = (s.pc t).advancing) : DataInv size (s.goto t pc) := by
  have hc : ∀ u, ((s.goto t pc).pc u).copied = (s.pc u).copied := by
    intro u
    rw [pc_goto]
    split
    next e => rw [e, hcopied]
    next => rfl
  have ha : ∀ u, ((s.goto t pc).pc u).advancing = (s.pc u).advancing := by
    intro u
    rw [pc_goto]
    split
    next e => rw [e, hadv]
    next => rfl
  obtain ⟨h₁, h₂, h₃, h₄, h₅, h₆, h₇, h₈, h₉⟩ := h
  rw [← ha] at h₃ h₄
  rw [← hc, ← hc .consumer] at h₅
  exact ⟨h₁, h₂, h₃, h₄, h₅, h₆, h₇, h₈, h₉⟩

lemma DataInv.wake (h : DataInv size s) (t : MaskThread) : DataInv size (s.wake t) := by
  rw [MaskQueue.wake]
  split
  next hpc => exact h.goto (by rw [hpc]; rfl) (by rw [hpc]; rfl)
  next => exact h

lemma DataInv.congr (h : DataInv size s) (hpc : s'.pc = s.pc)
    (hindex : s'.rear = s.rear ∧ s'.front = s.front ∧ s'.count = s.count)
    (hdata : s'.buffer = s.buffer ∧ s'.produced = s.produced ∧ s'.consumed = s.consumed) :
    DataInv size s' := by
  obtain ⟨h₁, h₂, h₃, h₄, h₅, h₆, h₇, h₈, h₉⟩ := h
  obtain ⟨e₁, e₂, e₃⟩ := hindex
  obtain ⟨e₄, e₅, e₆⟩ := hdata
  refine ⟨?_, ?_, ?_, ?_, ?_, ?_, ?_, ?_, ?_⟩ <;>
    simp only [hpc, e₁, e₂, e₃, e₄, e₅, e₆] <;> assumption

/-- Nothing but the numbers of masks is left of the index equations when nobody updates. -/
lemma DataInv.settled (h : DataInv size s) (hp : (s.pc .producer).copied = 0)
    (hc : (s.pc .consumer).copied = 0) : s.count + s.consumed.length = s.produced.length := by
  have hcount := h.count
  rw [hp, hc] at hcount
  omega

theorem DataInv.copyIn (h : DataInv size s) (hl : LockInv s) (hpc : s.pc .producer = .copy)
    (hfree : (body size .producer).blocked s = false) :
    DataInv size (((body size .producer).copy s).goto .producer .advance) := by
  have hother : (s.pc .consumer).copied = 0 ∧ (s.pc .consumer).advancing = 0 :=
    MaskPc.copied_of_outside (hl.exclusive .producer (by rw [hpc]; rfl))
  have hcount := h.settled (by rw [hpc]; rfl) hother.1
  have hne : s.count ≠ size := of_decide_eq_false hfree
  have hle := h.le
  have hnonneg := h.nonneg
  have hrear : s.rear = s.produced.length % size := by
    rw [← Nat.mod_eq_of_lt h.rear_lt, ← h.rear, hpc]
    rfl
  refine ⟨h.rear_lt, h.front_lt, ?_, h.front, ?_, h.nonneg, h.le, ?_, ?_⟩
  · change (s.rear + 1) % size = (s.produced ++ [s.greenMask]).length % size
    rw [List.length_append, List.length_singleton, hrear, mod_succ_mod]
  · change s.count + (1 : ℕ) + s.consumed.length =
      (s.produced ++ [s.greenMask]).length + (s.pc .consumer).copied
    rw [List.length_append, List.length_singleton, hother.1]
    omega
  · change Holds size (Function.update s.buffer s.rear s.greenMask) (s.produced ++ [s.greenMask])
      s.consumed.length (s.produced ++ [s.greenMask]).length
    rw [List.length_append, List.length_singleton, hrear]
    exact (h.holds.write (by omega) s.greenMask).push (Function.update_self ..)
  · change s.consumed = (s.produced ++ [s.greenMask]).take s.consumed.length
    rw [List.take_append_of_le_length (by omega)]
    exact h.taken

theorem DataInv.copyOut (h : DataInv size s) (hl : LockInv s) (hpc : s.pc .consumer = .copy)
    (hfree : (body size .consumer).blocked s = false) :
    DataInv size (((body size .consumer).copy s).goto .consumer .advance) := by
  have hother : (s.pc .producer).copied = 0 ∧ (s.pc .producer).advancing = 0 :=
    MaskPc.copied_of_outside (hl.exclusive .consumer (by rw [hpc]; rfl))
  have hcount := h.settled hother.1 (by rw [hpc]; rfl)
  have hne : s.count ≠ 0 := of_decide_eq_false hfree
  have hnonneg := h.nonneg
  have hfront : s.front = s.consumed.length % size := by
    rw [← Nat.mod_eq_of_lt h.front_lt, ← h.front, hpc]
    rfl
  have hget : s.produced[s.consumed.length]? = some (s.buffer s.front) := by
    rw [hfront]
    exact h.holds _ (Nat.le_refl _) (by omega)
  refine ⟨h.rear_lt, h.front_lt, h.rear, ?_, ?_, h.nonneg, h.le, ?_, ?_⟩
  · change (s.front + 1) % size = (s.consumed ++ [s.buffer s.front]).length % size
    rw [List.length_append, List.length_singleton, hfront, mod_succ_mod]
  · change s.count + (s.pc .producer).copied + (s.consumed ++ [s.buffer s.front]).length =
      s.produced.length + (1 : ℕ)
    rw [List.length_append, List.length_singleton, hother.1]
    omega
  · change Holds size s.buffer s.produced (s.consumed ++ [s.buffer s.front]).length
      s.produced.length
    rw [List.length_append, List.length_singleton]
    exact h.holds.mono (Nat.le_succ _)
  · change s.consumed ++ [s.buffer s.front] =
      s.produced.take (s.consumed ++ [s.buffer s.front]).length
    rw [List.length_append, List.length_singleton, List.take_add_one, hget, ← h.taken]
    rfl

lemma DataInv.advance (h : DataInv size s) (hpc : s.pc t = .advance) :
    DataInv size (((body size t).advance s).goto t .change) := by
  have hpos : 0 < size := Nat.zero_lt_of_lt h.rear_lt
  have hcount := h.count
  have hrear := h.rear
  have hfront := h.front
  cases t with
  | producer =>
    rw [hpc] at hcount hrear
    refine ⟨Nat.mod_lt _ hpos, h.front_lt, ?_, hfront, hcount, h.nonneg, h.le, h.holds, h.taken⟩
    exact (Nat.mod_mod _ _).trans hrear
  | consumer =>
    rw [hpc] at hcount hfront
    refine ⟨h.rear_lt, Nat.mod_lt _ hpos, hrear, ?_, hcount, h.nonneg, h.le, h.holds, h.taken⟩
    exact (Nat.mod_mod _ _).trans hfront

lemma DataInv.change (h : DataInv size s) (hpc : s.pc t = .change)
    (hfree : (body size t).blocked s = false) :
    DataInv size (((body size t).change s).goto t .signal) := by
  have hcount := h.count
  have hle := h.le
  have hnonneg := h.nonneg
  have hrear := h.rear
  have hfront := h.front
  cases t with
  | producer =>
    have hne : s.count ≠ size := of_decide_eq_false hfree
    rw [hpc] at hcount hrear
    refine ⟨h.rear_lt, h.front_lt, hrear, hfront, ?_, ?_, ?_, h.holds, h.taken⟩
    · change s.count + 1 + (0 : ℕ) + s.consumed.length =
        s.produced.length + (s.pc .consumer).copied
      rw [← hcount]
      change s.count + 1 + (0 : ℕ) + s.consumed.length = s.count + (1 : ℕ) + s.consumed.length
      omega
    · change 0 ≤ s.count + 1
      omega
    · change s.count + 1 ≤ size
      omega
  | consumer =>
    have hne : s.count ≠ 0 := of_decide_eq_false hfree
    rw [hpc] at hcount hfront
    refine ⟨h.rear_lt, h.front_lt, hrear, hfront, ?_, ?_, ?_, h.holds, h.taken⟩
    · change s.count - 1 + (s.pc .producer).copied + s.consumed.length =
        s.produced.length + (0 : ℕ)
      change s.count + (s.pc .producer).copied + s.consumed.length =
        s.produced.length + (1 : ℕ) at hcount
      omega
    · change 0 ≤ s.count - 1
      omega
    · change s.count - 1 ≤ size
      omega

theorem DataInv.moves (h : DataInv size s) (hl : LockInv s) (hw : WakeInv size s)
    (hm : Moves size s c s') : DataInv size s' := by
  have hgo : ∀ (t : MaskThread) (pc pc' : MaskPc), s.pc t = pc → pc'.copied = pc.copied →
      pc'.advancing = pc.advancing → DataInv size (s.goto t pc') := by
    intro t pc pc' hpc hcopied hadv
    exact h.goto (by rw [hpc, hcopied]) (by rw [hpc, hadv])
  cases hm with
  | acquire t hpc _ =>
    rcases hpc with hpc | hpc
    · exact (hgo t _ .test hpc rfl rfl).congr rfl ⟨rfl, rfl, rfl⟩ ⟨rfl, rfl, rfl⟩
    · exact (hgo t _ .test hpc rfl rfl).congr rfl ⟨rfl, rfl, rfl⟩ ⟨rfl, rfl, rfl⟩
  | block t hpc _ => exact hgo t _ _ hpc rfl rfl
  | pass t hpc _ => exact hgo t _ _ hpc rfl rfl
  | park t hpc => exact (hgo t _ .parked hpc rfl rfl).congr rfl ⟨rfl, rfl, rfl⟩ ⟨rfl, rfl, rfl⟩
  | copy t hpc =>
    have hfree := hw.updating t (by rw [hpc]; rfl)
    cases t with
    | producer => exact h.copyIn hl hpc hfree
    | consumer => exact h.copyOut hl hpc hfree
  | advance t hpc => exact h.advance hpc
  | change t hpc => exact h.change hpc (hw.updating t (by rw [hpc]; rfl))
  | signal t hpc =>
    have hpc' : (s.wake t.other).pc t = .signal := by
      rw [pc_wake_of_ne (other_ne t).symm, hpc]
    exact (h.wake t.other).goto (by rw [hpc']; rfl) (by rw [hpc']; rfl)
  | release t hpc =>
    exact (hgo t _ .outside hpc rfl rfl).congr rfl ⟨rfl, rfl, rfl⟩ ⟨rfl, rfl, rfl⟩
  | ready mask hpc =>
    exact (hgo .producer _ .lock hpc rfl rfl).congr rfl ⟨rfl, rfl, rfl⟩ ⟨rfl, rfl, rfl⟩
  | calculate hpc => exact hgo _ _ _ hpc rfl rfl
  | again hpc _ => exact hgo _ _ _ hpc rfl rfl
  | leave _ hpc _ => exact hgo _ _ _ hpc rfl rfl
  | unlockStop hpc =>
    exact (hgo .consumer _ .done hpc rfl rfl).congr rfl ⟨rfl, rfl, rfl⟩ ⟨rfl, rfl, rfl⟩
  | setFlag pc => exact h.congr rfl ⟨rfl, rfl, rfl⟩ ⟨rfl, rfl, rfl⟩
  | broadcast t pc => exact (h.wake t).congr rfl ⟨rfl, rfl, rfl⟩ ⟨rfl, rfl, rfl⟩
  | spurious t hpc => exact hgo t _ _ hpc rfl rfl

/-! ### Runs -/

/-- What holds in every state. -/
structure Inv (size : ℕ) (s : MaskQueue α) : Prop where
  lock : LockInv s
  wake : WakeInv size s
  data : DataInv size s

lemma inv_start (hsize : 0 < size) (buffer : ℕ → α) (mask : α) :
    Inv size (start buffer mask) := by
  refine ⟨⟨?_, ?_, rfl⟩, ⟨?_, ?_, ?_⟩, ?_⟩
  · intro t ht
    cases t <;> cases ht
  · intro t ht
    exact absurd ht (by simp [start])
  · intro t ht
    cases t <;> cases ht
  · intro t ht
    cases t <;> cases ht
  · intro t ht
    cases t <;> cases ht
  · exact ⟨hsize, hsize, rfl, rfl, rfl, Int.le_refl 0, Int.natCast_nonneg size, holds_empty, rfl⟩

theorem inv_of_run {ok : MaskQueue α → Choice α → Prop} (hsize : 0 < size) {buffer : ℕ → α}
    {mask : α} (h : Run (step size) ok (start buffer mask) s) : Inv size s := by
  refine h.invariant (inv_start hsize buffer mask) ?_
  intro s c s' hs _ hstep
  have hm := step_cases hstep
  exact ⟨hs.lock.moves hm, hs.wake.moves hs.lock hm, hs.data.moves hs.lock hs.wake hm⟩

/-- No thread is between its copy of a mask and its change of the count. -/
def Settled (s : MaskQueue α) : Prop := ∀ t, (s.pc t).copied = 0

/-- **The queue is a lossless bounded first-in first-out queue**, in every interleaving: the count
and the indices are in bounds and agree between the updates, the unread masks are all in their
slots, and the consumer has copied out the first of the masks that the producer copied in. -/
theorem fifo_of_run (hsize : 0 < size) {buffer : ℕ → α} {mask : α}
    (h : Run (step size) anyStep (start buffer mask) s) :
    (0 ≤ s.count ∧ s.count ≤ size) ∧ (s.front < size ∧ s.rear < size) ∧
      (s.Settled → (s.rear : ℤ) = (s.front + s.count) % size) ∧
      (s.pc .producer = .copy →
        ∀ i, s.consumed.length ≤ i → i < s.produced.length → i % size ≠ s.rear) ∧
      (∀ i, s.consumed.length ≤ i → i < s.produced.length →
        s.produced[i]? = some (s.buffer (i % size))) ∧
      s.consumed <+: s.produced := by
  obtain ⟨hl, hw, hd⟩ := inv_of_run hsize h
  refine ⟨⟨hd.nonneg, hd.le⟩, ⟨hd.front_lt, hd.rear_lt⟩, ?_, ?_, hd.holds, ?_⟩
  · intro hsettled
    have hadv : ∀ t, (s.pc t).advancing = 0 := fun t => MaskPc.advancing_of_copied (hsettled t)
    have hcount := hd.settled (hsettled .producer) (hsettled .consumer)
    have hrear := hd.rear
    have hfront := hd.front
    rw [hadv, Nat.add_zero, Nat.mod_eq_of_lt hd.rear_lt] at hrear
    rw [hadv, Nat.add_zero, Nat.mod_eq_of_lt hd.front_lt] at hfront
    rw [hrear, hfront, Int.natCast_mod, Int.natCast_mod, Int.emod_add_emod, ← hcount, Int.add_comm]
  · intro hpc i hi hi' e
    have hother : (s.pc .consumer).copied = 0 :=
      (MaskPc.copied_of_outside (hl.exclusive .producer (by rw [hpc]; rfl))).1
    have hcount := hd.settled (by rw [hpc]; rfl) hother
    have hne : s.count ≠ size := of_decide_eq_false (hw.updating .producer (by rw [hpc]; rfl))
    have hle := hd.le
    have hrear := hd.rear
    rw [hpc, ← e] at hrear
    have hmod : s.produced.length % size = i % size := by
      rw [← hrear]
      exact (Nat.mod_mod i size)
    have := eq_of_mod_eq (Nat.le_of_lt hi') (by omega) hmod
    omega
  · rw [hd.taken]
    exact List.take_prefix _ _

/-- Three masks go through a queue of two slots. -/
def handOver : List (Choice ℕ) :=
  List.replicate 8 (.producer 7) ++ List.replicate 8 (.producer 8) ++ List.replicate 9 .consumer ++
    List.replicate 8 (.producer 9) ++ List.replicate 16 .consumer

theorem fifo_of_handOver : ∃ s, exec (step 2) (start (fun _ => 0) 0) handOver = some s ∧
    s.consumed = [7, 8, 9] ∧ s.rear = 1 ∧ s.consumed <+: s.produced :=
  ⟨_, rfl, rfl, rfl, (fifo_of_run Nat.two_pos (run_of_exec handOver rfl)).2.2.2.2.2⟩

/-- A wake-up of a thread is pending: it has one and waits for the mutex, or the other thread has
changed the count and signals next. -/
def WakePending (s : MaskQueue α) (t : MaskThread) : Prop :=
  s.pc t = .woken ∨ s.pc t.other = .signal

/-- **No wake-up is lost.** In every interleaving a thread that is parked with no wake-up pending
has nothing to do, so that the two threads are never both parked. -/
theorem wake_of_run (hsize : 0 < size) {buffer : ℕ → α} {mask : α}
    (h : Run (step size) anyStep (start buffer mask) s) :
    (s.pc .producer = .parked → ¬ s.WakePending .producer → s.count = size) ∧
      (s.pc .consumer = .parked → ¬ s.WakePending .consumer → s.count = 0) ∧
      ¬ (s.pc .producer = .parked ∧ s.pc .consumer = .parked) := by
  obtain ⟨_, hw, _⟩ := inv_of_run hsize h
  have hfull : s.pc .producer = .parked → ¬ s.WakePending .producer → s.count = size := by
    intro hp hno
    exact of_decide_eq_true ((hw.parked .producer hp).resolve_right fun e => hno (.inr e))
  have hempty : s.pc .consumer = .parked → ¬ s.WakePending .consumer → s.count = 0 := by
    intro hc hno
    exact of_decide_eq_true ((hw.parked .consumer hc).resolve_right fun e => hno (.inr e))
  refine ⟨hfull, hempty, ?_⟩
  rintro ⟨hp, hc⟩
  have h₁ := hfull hp (by simp [WakePending, MaskThread.other, hp, hc])
  have h₂ := hempty hc (by simp [WakePending, MaskThread.other, hp, hc])
  omega

theorem wake_of_parked : ∃ s, exec (step 1) (start (fun _ => 0) 0)
      (List.replicate 3 (.consumer : Choice ℕ)) = some s ∧
    s.pc .consumer = .parked ∧ s.count = 0 := by
  refine ⟨_, rfl, rfl, ?_⟩
  refine (wake_of_run Nat.one_pos
    (run_of_exec (List.replicate 3 (.consumer : Choice ℕ)) rfl)).2.1 rfl ?_
  rintro (h | h) <;> cases h

/-! ### The stop path -/

/-- The next step does not see the stop flag. -/
def NoStopSeen (s : MaskQueue α) : Choice α → Prop
  | .consumer => s.pc .consumer = .testStop → s.stop = false
  | _ => True

/-- A thread that unlocks next holds the mutex, and at most one thread is in a critical section. -/
def Discipline (s : MaskQueue α) : Prop :=
  (∀ t, s.pc t = .unlock ∨ s.pc t = .unlockStop → s.owner = some t) ∧
    ∀ t, (s.pc t).inside = true → (s.pc t.other).inside = false

/-- The consumer is past its test of a set stop flag. -/
def Left (s : MaskQueue α) : Prop := s.pc .consumer = .unlockStop ∨ s.pc .consumer = .done

lemma not_left_goto (h : ¬ s.Left) {pc : MaskPc} (hpc : pc ≠ .unlockStop ∧ pc ≠ .done) :
    ¬ (s.goto t pc).Left := by
  rw [Left, pc_goto]
  split
  · exact not_or.mpr hpc
  · exact h

lemma not_left_moves (h : ¬ s.Left) (hok : s.NoStopSeen c) (hm : Moves size s c s') :
    ¬ s'.Left := by
  have hwake : ∀ t, ¬ (s.wake t).Left := by
    intro t
    rw [wake]
    split
    · exact not_left_goto h ⟨nofun, nofun⟩
    · exact h
  cases hm with
  | acquire t _ _ => exact (not_left_goto h ⟨nofun, nofun⟩ : ¬ (s.goto t .test).Left)
  | block t _ _ => exact not_left_goto h ⟨nofun, nofun⟩
  | pass t _ _ => exact not_left_goto h ⟨nofun, nofun⟩
  | park t _ => exact (not_left_goto h ⟨nofun, nofun⟩ : ¬ (s.goto t .parked).Left)
  | copy t _ => cases t <;> exact not_left_goto h ⟨nofun, nofun⟩
  | advance t _ => cases t <;> exact not_left_goto h ⟨nofun, nofun⟩
  | change t _ => cases t <;> exact not_left_goto h ⟨nofun, nofun⟩
  | signal t _ => exact not_left_goto (hwake t.other) ⟨nofun, nofun⟩
  | release t _ => exact (not_left_goto h ⟨nofun, nofun⟩ : ¬ (s.goto t .outside).Left)
  | ready mask _ => exact (not_left_goto h ⟨nofun, nofun⟩ : ¬ (s.goto .producer .lock).Left)
  | calculate _ => exact not_left_goto h ⟨nofun, nofun⟩
  | again _ _ => exact not_left_goto h ⟨nofun, nofun⟩
  | leave hc hpc hstop =>
    rw [hc] at hok
    exact nomatch hstop.symm.trans (hok hpc)
  | unlockStop hpc => exact absurd (.inl hpc) h
  | setFlag pc => exact h
  | broadcast t pc => exact hwake t
  | spurious t _ => exact not_left_goto h ⟨nofun, nofun⟩

lemma discipline_of_inv (hl : LockInv s) (hleft : ¬ s.Left) : s.Discipline := by
  refine ⟨?_, hl.exclusive⟩
  rintro t (ht | ht)
  · exact (hl.holder t (by rw [ht]; rfl)).resolve_right fun hd => hleft (.inr hd)
  · cases t with
    | producer =>
      have hstop := hl.producer
      rw [ht] at hstop
      cases hstop
    | consumer => exact absurd (.inl ht) hleft

/-- **The mutex is unlocked by its holder exactly as long as the consumer does not see the stop
flag**: in every run up to there, and no further. -/
theorem unlock_discipline (hsize : 0 < size) {buffer : ℕ → α} {mask : α}
    (h : Run (step size) NoStopSeen (start buffer mask) s) :
    s.Discipline ∧ ∀ c s', step size s c = some s' → (s'.Discipline ↔ s.NoStopSeen c) := by
  have hl := (inv_of_run hsize h).lock
  have hleft : ¬ s.Left := by
    refine h.invariant (P := fun s => ¬ s.Left) ?_ ?_
    · rintro (hpc | hpc) <;> cases hpc
    · intro s c s' hs hok hstep
      exact not_left_moves hs hok (step_cases hstep)
  refine ⟨discipline_of_inv hl hleft, ?_⟩
  intro c s' hstep
  refine ⟨?_, ?_⟩
  · intro hd
    cases c with
    | consumer =>
      intro hpc
      by_contra hstop
      have hstop' : s.stop = true := by simpa using hstop
      have hs' : s' = s.goto .consumer .unlockStop := by
        rw [step, comCalculatorThread, hpc, hstop'] at hstep
        exact (Option.some.inj hstep).symm
      have howner : s.owner = some .consumer := by
        have := hd.1 .consumer (.inr (by rw [hs', pc_goto, if_pos rfl]))
        rwa [hs'] at this
      have hin := hl.inside .consumer howner
      rw [hpc] at hin
      exact nomatch hin
    | _ => trivial
  · intro hok
    have hm := step_cases hstep
    exact discipline_of_inv (hl.moves hm) (not_left_moves hleft hok hm)

def noStopTest (s : MaskQueue α) : Choice α → Bool
  | .consumer => s.pc .consumer ≠ .testStop || !s.stop
  | _ => true

lemma noStopSeen_of_test (s : MaskQueue α) (c : Choice α) (h : s.noStopTest c = true) :
    s.NoStopSeen c := by
  cases c with
  | consumer =>
    intro hpc
    simpa [noStopTest, hpc] using h
  | _ => trivial

/-- A mask goes through both threads and the consumer tests the clear flag; then the flag is set,
and the producer comes to its unlock. -/
def flagRun : List (Choice ℕ) :=
  List.replicate 8 (.producer 7) ++ List.replicate 9 .consumer ++ [.stopper] ++
    List.replicate 7 (.producer 8)

theorem unlock_discipline_flagRun : ∃ s,
    exec (fun s c => if s.noStopTest c then step 1 s c else none) (start (fun _ => 0) 0) flagRun =
      some s ∧
    s.consumed = [7] ∧ s.stop = true ∧ s.pc .producer = .unlock ∧ s.Discipline := by
  refine ⟨_, rfl, rfl, rfl, rfl, ?_⟩
  exact (unlock_discipline Nat.one_pos (run_of_exec_test noStopSeen_of_test flagRun rfl)).1

/-- The consumer has taken a mask when the stop flag is set; the producer takes the mutex for the
next mask, and the consumer sees the flag and goes to unlock it. -/
def stopRun : List (Choice ℕ) :=
  List.replicate 8 (.producer 7) ++ List.replicate 8 .consumer ++
    [.stopper, .producer 8, .producer 8, .consumer]

theorem unlocked_by_other : ¬ ∀ s, Run (step 5) anyStep (start (fun _ => 0) (0 : ℕ)) s →
    s.Discipline := by
  intro h
  have howner := (h _ (run_of_exec stopRun rfl)).1 .consumer (.inr rfl)
  cases howner

end MaskQueue

end PanTilt.App
