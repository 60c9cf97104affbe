import PanTilt.App.ControlLoop
import PanTilt.App.Main
import PanTilt.Lib.Interleave

/-!
`main.c`, the main thread beside the control thread.

The two threads write PWM pairs to the same FPGA, and the control thread polls the flag with which
the main thread stops it. `left_neutral_iff` says when the motors are left neutral: exactly when the
control thread is not between its test of the flag and its write while the main thread writes the
last pair of `state_end`.
-/

namespace PanTilt.App

open Lib.Interleave

/-! ### The two threads -/

/-- Where the main thread is: it reads a line, has the steps of a line before it, or is on its way
out of `main`. -/
inductive MainPc
  | reading (s : State)
  | running (ops : List Op) (s : State)
  | cancel
  | join
  | returned
  deriving DecidableEq

/-- Where the control thread is in `start_thread_func`, by the step it takes next. -/
inductive ControlPc
  | lock
  | check
  | wait
  | woken
  | unlock
  | firstWrite
  | initializeSubmodels
  | test
  | compute
  | write
  | testAgain
  | sleep
  | returned
  | cancelled
  deriving DecidableEq

/-- The owner of `start_thread_lock`. -/
inductive Owner
  | main
  | control
  deriving DecidableEq

/-- The two threads and what they share. `pwm` is `pitch_pwm` and `yaw_pwm` of the control thread,
and `written` are the pairs written to the FPGA, the last one first. -/
structure Threads where
  main : MainPc
  control : ControlPc
  pwm : BitVec 16 × BitVec 16
  startThreadActive : Bool
  startThreadLock : Option Owner
  cancelRequested : Bool
  written : List (BitVec 16 × BitVec 16)
  deriving DecidableEq

namespace Threads

/-- The pair at which both motors are neutral. -/
def neutral : BitVec 16 × BitVec 16 := (midWord, midWord)

/-- The threads when the first line is read. -/
def start : Threads where
  main := .reading .stateReady
  control := .lock
  pwm := neutral
  startThreadActive := false
  startThreadLock := none
  cancelRequested := false
  written := []

/-- One step of the main thread within a line. The control thread may return from its wait at any
time, so that a signal changes nothing. -/
def doOp (s : Threads) : Op → Option Threads
  | .printf _ => some s
  | .hw op => some { s with written := op.pwm.toList ++ s.written }
  | .lock =>
    if s.startThreadLock = none then some { s with startThreadLock := some .main } else none
  | .unlock => some { s with startThreadLock := none }
  | .setActive b => some { s with startThreadActive := b }
  | .signal => some s
  | .releaseResetGpio => some s

/-- One step of the main thread. `input` is what `readline` returns. -/
def mainStep (pl : Platform) (s : Threads) (input : Option String) : Option Threads :=
  match s.main with
  | .reading st =>
    match input with
    | some line =>
      some { s with main := .running (processLine pl st line).2 (processLine pl st line).1 }
    | none => some { s with main := .cancel }
  | .running (op :: ops) st => (s.doOp op).map fun s => { s with main := .running ops st }
  | .running [] st => some { s with main := if st = .stateEnd then .cancel else .reading st }
  | .cancel => some { s with main := .join, cancelRequested := true }
  | .join =>
    if s.control = .returned ∨ s.control = .cancelled then some { s with main := .returned }
    else none
  | .returned => none

/-- One step of the control thread, in which the outputs of the controllers are `yawOutput` and
`pitchOutput`. It does not go on from a wait or a sleep when it is to be cancelled. -/
def controlStep (s : Threads) (yawOutput pitchOutput : ℚ) : Option Threads :=
  match s.control with
  | .lock =>
    if s.startThreadLock = none then
      some { s with control := .check, startThreadLock := some .control }
    else none
  | .check =>
    if s.startThreadActive then some { s with control := .unlock }
    else some { s with control := .wait, startThreadLock := none }
  | .wait => if s.cancelRequested then none else some { s with control := .woken }
  | .woken =>
    if s.startThreadLock = none then
      some { s with control := .check, startThreadLock := some .control }
    else none
  | .unlock => some { s with control := .firstWrite, startThreadLock := none }
  | .firstWrite => some { s with control := .initializeSubmodels, written := s.pwm :: s.written }
  | .initializeSubmodels => some { s with control := .test }
  | .test => some { s with control := if s.startThreadActive then .compute else .lock }
  | .compute =>
    match pitchPwm pitchOutput, yawPwm yawOutput with
    | some pitchWord, some yawWord =>
      some { s with control := .write, pwm := (pitchWord, yawWord) }
    | _, _ => none
  | .write => some { s with control := .testAgain, written := s.pwm :: s.written }
  | .testAgain => some { s with control := if s.startThreadActive then .sleep else .returned }
  | .sleep => if s.cancelRequested then none else some { s with control := .test }
  | .returned => none
  | .cancelled => none

/-- The control thread is cancelled in its wait, for which it takes the lock again, in the print
before the submodels are initialised, or in its sleep. -/
def cancelStep (s : Threads) : Option Threads :=
  if s.cancelRequested then
    match s.control with
    | .wait =>
      if s.startThreadLock = none then
        some { s with control := .cancelled, startThreadLock := some .control }
      else none
    | .initializeSubmodels => some { s with control := .cancelled }
    | .sleep => some { s with control := .cancelled }
    | _ => none
  else none

/-- Which step is taken, and what it reads from outside. -/
inductive Choice
  | main (input : Option String)
  | control (yawOutput pitchOutput : ℚ)
  | cancelled

/-- One step of one thread. -/
def step (pl : Platform) (s : Threads) : Choice → Option Threads
  | .main input => s.mainStep pl input
  | .control yawOutput pitchOutput => s.controlStep yawOutput pitchOutput
  | .cancelled => s.cancelStep

/-- `t` is reached from `s` in some interleaving. -/
abbrev Reaches (pl : Platform) : Threads → Threads → Prop := Run (step pl) anyStep

/-! ### What a step can do -/

/-- The main thread is past its last chance to activate the control thread. -/
def Stopping : MainPc → Prop
  | .reading _ => False
  | .running _ st => st = .stateEnd
  | _ => True

/-- The steps left of a line touch the flag as the state they lead to allows: on the way to
`STATE_END` the flag is not set and is cleared by now or later, and otherwise it is not cleared. -/
def FlagInv (active : Bool) : MainPc → Prop
  | .reading st => st ≠ .stateEnd
  | .running ops st =>
    if st = .stateEnd then
      Op.setActive true ∉ ops ∧ (Op.setActive false ∈ ops ∨ active = false)
    else Op.setActive false ∉ ops
  | _ => True

lemma flagInv_running_end {active : Bool} {ops : List Op} :
    FlagInv active (.running ops .stateEnd) ↔
      Op.setActive true ∉ ops ∧ (Op.setActive false ∈ ops ∨ active = false) := by
  simp [FlagInv]

lemma flagInv_running {active : Bool} {ops : List Op} {st : State} (h : st ≠ .stateEnd) :
    FlagInv active (.running ops st) ↔ Op.setActive false ∉ ops := by
  simp [FlagInv, h]

lemma flagInv_line (pl : Platform) {st : State} (h : st ≠ .stateEnd) (line : String)
    (active : Bool) :
    FlagInv active (.running (processLine pl st line).2 (processLine pl st line).1) := by
  by_cases hend : (transition st line).1 = .stateEnd
  · have hstop : (transition st line).2 = stopStartThread := by
      unfold transition at hend ⊢
      split_ifs at hend ⊢ with h₁ h₂ h₃ h₄
      · rfl
      · exact absurd hend h
    simp only [processLine, hend, hstop, flagInv_running_end, dispatch]
    simp [stopStartThread, stateEnd]
  · have hclear : Op.setActive false ∉ (transition st line).2 := by
      unfold transition at hend ⊢
      split_ifs at hend ⊢ with h₁ h₂ h₃ h₄
      · simp
      · simp
      · simp
      · exact absurd rfl hend
      · simp
    simp only [processLine, flagInv_running hend, List.mem_append, not_or]
    refine ⟨hclear, ?_⟩
    revert hend
    cases (transition st line).1 with
    | stateReady => simp [dispatch, stateReady]
    | stateInit => simp [dispatch, stateInit]
    | stateHome => simp [dispatch, stateHome, List.mem_map]
    | stateStart => simp [dispatch, stateStart]
    | stateEnd => exact fun h => absurd rfl h

lemma doOp_spec {s t : Threads} {op : Op} (h : s.doOp op = some t) :
    t.main = s.main ∧ t.control = s.control ∧ t.pwm = s.pwm ∧
      (op = .setActive t.startThreadActive ∨ t.startThreadActive = s.startThreadActive) := by
  cases op with
  | lock =>
    simp only [doOp, Option.ite_none_right_eq_some, Option.some.injEq] at h
    obtain ⟨-, rfl⟩ := h
    exact ⟨rfl, rfl, rfl, .inr rfl⟩
  | setActive b =>
    obtain rfl := Option.some.inj h
    exact ⟨rfl, rfl, rfl, .inl rfl⟩
  | _ =>
    obtain rfl := Option.some.inj h
    exact ⟨rfl, rfl, rfl, .inr rfl⟩

lemma doOp_ending {s t : Threads} {op : Op} {ops : List Op} (h : s.doOp op = some t)
    (hs : FlagInv s.startThreadActive (.running (op :: ops) .stateEnd)) :
    FlagInv t.startThreadActive (.running ops .stateEnd) ∧
      (s.startThreadActive = false → t.startThreadActive = false) := by
  obtain ⟨-, -, -, hflag⟩ := doOp_spec h
  rw [flagInv_running_end, List.mem_cons, List.mem_cons, not_or] at hs
  obtain ⟨⟨hset, hset'⟩, hclear⟩ := hs
  have hkeep : s.startThreadActive = false → t.startThreadActive = false := by
    intro hf
    rcases hflag with hop | hop
    · rcases hb : t.startThreadActive with _ | _
      · rfl
      · exact absurd (hb ▸ hop).symm hset
    · exact hop.trans hf
  refine ⟨flagInv_running_end.2 ⟨hset', ?_⟩, hkeep⟩
  rcases hclear with (rfl | hmem) | hf
  · obtain rfl := Option.some.inj h
    exact .inr rfl
  · exact .inl hmem
  · exact .inr (hkeep hf)

lemma doOp_going {s t : Threads} {op : Op} {ops : List Op} {st : State} (hst : st ≠ .stateEnd)
    (h : s.doOp op = some t) (hs : FlagInv s.startThreadActive (.running (op :: ops) st)) :
    FlagInv t.startThreadActive (.running ops st) ∧
      (s.startThreadActive = true → t.startThreadActive = true) := by
  obtain ⟨-, -, -, hflag⟩ := doOp_spec h
  rw [flagInv_running hst, List.mem_cons, not_or] at hs
  refine ⟨(flagInv_running hst).2 hs.2, ?_⟩
  intro ht
  rcases hflag with hop | hop
  · rcases hb : t.startThreadActive with _ | _
    · exact absurd (hb ▸ hop).symm hs.1
    · rfl
  · exact hop.trans ht

/-- **A step of the main thread**: the control thread stands still, the flag is as the rest of the
line expects it, and once it is to stay cleared it stays cleared. -/
theorem mainStep_spec {pl : Platform} {s t : Threads} {input : Option String}
    (h : s.mainStep pl input = some t) (hs : FlagInv s.startThreadActive s.main) :
    t.control = s.control ∧ t.pwm = s.pwm ∧ FlagInv t.startThreadActive t.main ∧
      (Stopping s.main → Stopping t.main ∧
        (s.startThreadActive = false → t.startThreadActive = false)) ∧
      (s.startThreadActive = true → t.startThreadActive = true ∨ Stopping t.main) := by
  unfold mainStep at h
  split at h
  · next st hm =>
    rw [hm] at hs ⊢
    split at h
    · next line =>
      obtain rfl := Option.some.inj h
      exact ⟨rfl, rfl, flagInv_line pl hs line _, False.elim, .inl⟩
    · obtain rfl := Option.some.inj h
      exact ⟨rfl, rfl, trivial, False.elim, .inl⟩
  · next op ops st hm =>
    obtain ⟨u, hu, rfl⟩ := Option.map_eq_some_iff.1 h
    obtain ⟨-, hcontrol, hpwm, -⟩ := doOp_spec hu
    rw [hm] at hs ⊢
    by_cases hend : st = .stateEnd
    · subst hend
      obtain ⟨hinv, hkeep⟩ := doOp_ending hu hs
      exact ⟨hcontrol, hpwm, hinv, fun _ => ⟨rfl, hkeep⟩, fun _ => .inr rfl⟩
    · obtain ⟨hinv, hkeep⟩ := doOp_going hend hu hs
      exact ⟨hcontrol, hpwm, hinv, fun e => absurd e hend, fun e => .inl (hkeep e)⟩
  · next st hm =>
    obtain rfl := Option.some.inj h
    refine ⟨rfl, rfl, ?_, ?_, .inl⟩
    · split_ifs with hend
      · trivial
      · exact hend
    · rw [hm]
      intro hend
      obtain rfl : st = .stateEnd := hend
      exact ⟨trivial, id⟩
  · next hm =>
    obtain rfl := Option.some.inj h
    exact ⟨rfl, rfl, trivial, fun _ => ⟨trivial, id⟩, .inl⟩
  · next hm =>
    simp only [Option.ite_none_right_eq_some, Option.some.injEq] at h
    obtain ⟨-, rfl⟩ := h
    exact ⟨rfl, rfl, trivial, fun _ => ⟨trivial, id⟩, .inl⟩
  · cases h

/-- The phases of the control thread: outside of the test of the flag, between that test and the
loop, in the loop, and ended. -/
inductive Phase
  | outside
  | starting
  | looping
  | ended
  deriving DecidableEq

def phase : ControlPc → Phase
  | .lock | .check | .wait | .woken => .outside
  | .unlock | .firstWrite | .initializeSubmodels => .starting
  | .test | .compute | .write | .testAgain | .sleep => .looping
  | .returned | .cancelled => .ended

/-- What a step of the control thread does, by the phase it leads to: the loop is left for the test
of the flag only when the flag is cleared, it is entered only when the flag was set, and the pair
changes in the loop only. -/
structure Moves (s t : Threads) : Prop where
  main : t.main = s.main
  active : t.startThreadActive = s.startThreadActive
  outside : phase t.control = .outside → t.pwm = s.pwm ∧
    (phase s.control = .outside ∨ phase s.control = .looping ∧ s.startThreadActive = false)
  starting : phase t.control = .starting → t.pwm = s.pwm ∧
    (phase s.control = .starting ∨ phase s.control = .outside ∧ s.startThreadActive = true)
  looping : phase t.control = .looping → phase s.control = .starting ∨ phase s.control = .looping

theorem controlStep_moves {s t : Threads} {yawOutput pitchOutput : ℚ}
    (h : s.controlStep yawOutput pitchOutput = some t) : Moves s t := by
  unfold controlStep at h
  split at h
  · next hc =>
    simp only [Option.ite_none_right_eq_some, Option.some.injEq] at h
    obtain ⟨-, rfl⟩ := h
    constructor <;> simp [phase, hc]
  · next hc =>
    split at h
    · next hactive =>
      obtain rfl := Option.some.inj h
      constructor <;> simp [phase, hc, hactive]
    · obtain rfl := Option.some.inj h
      constructor <;> simp [phase, hc]
  · next hc =>
    simp only [Option.ite_none_left_eq_some, Option.some.injEq] at h
    obtain ⟨-, rfl⟩ := h
    constructor <;> simp [phase, hc]
  · next hc =>
    simp only [Option.ite_none_right_eq_some, Option.some.injEq] at h
    obtain ⟨-, rfl⟩ := h
    constructor <;> simp [phase, hc]
  · next hc =>
    obtain rfl := Option.some.inj h
    constructor <;> simp [phase, hc]
  · next hc =>
    obtain rfl := Option.some.inj h
    constructor <;> simp [phase, hc]
  · next hc =>
    obtain rfl := Option.some.inj h
    constructor <;> simp [phase, hc]
  · next hc =>
    obtain rfl := Option.some.inj h
    rcases hactive : s.startThreadActive with _ | _
    · constructor <;> simp [phase, hc, hactive]
    · constructor <;> simp [phase, hc, hactive]
  · next hc =>
    split at h
    · obtain rfl := Option.some.inj h
      constructor <;> simp [phase, hc]
    · cases h
  · next hc =>
    obtain rfl := Option.some.inj h
    constructor <;> simp [phase, hc]
  · next hc =>
    obtain rfl := Option.some.inj h
    rcases hactive : s.startThreadActive with _ | _
    · constructor <;> simp [phase, hc, hactive]
    · constructor <;> simp [phase, hc, hactive]
  · next hc =>
    simp only [Option.ite_none_left_eq_some, Option.some.injEq] at h
    obtain ⟨-, rfl⟩ := h
    constructor <;> simp [phase, hc]
  · cases h
  · cases h

lemma cancelStep_moves {s t : Threads} (h : s.cancelStep = some t) :
    Moves s t ∧ t.control = .cancelled ∧ t.written = s.written := by
  simp only [cancelStep, Option.ite_none_right_eq_some] at h
  obtain ⟨-, h⟩ := h
  split at h
  · simp only [Option.ite_none_right_eq_some, Option.some.injEq] at h
    obtain ⟨-, rfl⟩ := h
    exact ⟨by constructor <;> simp [phase], rfl, rfl⟩
  · obtain rfl := Option.some.inj h
    exact ⟨by constructor <;> simp [phase], rfl, rfl⟩
  · obtain rfl := Option.some.inj h
    exact ⟨by constructor <;> simp [phase], rfl, rfl⟩
  · cases h

/-! ### The invariant -/

/-- What holds in every reachable state: the control thread is in its loop, or about to enter it,
only while the flag is set or about to stay cleared, and it enters the loop with the neutral
pair. -/
structure Inv (s : Threads) : Prop where
  flag : FlagInv s.startThreadActive s.main
  inside : phase s.control = .starting ∨ phase s.control = .looping →
    s.startThreadActive = true ∨ Stopping s.main
  outside : phase s.control = .outside →
    s.pwm = neutral ∨ s.startThreadActive = false ∧ Stopping s.main
  starting : phase s.control = .starting → s.pwm = neutral

lemma inv_start : Inv start where
  flag := by simp [start, FlagInv]
  inside := by simp [start, phase]
  outside _ := .inl rfl
  starting _ := rfl

lemma Inv.main {pl : Platform} {s t : Threads} {input : Option String} (hs : Inv s)
    (h : s.mainStep pl input = some t) : Inv t := by
  obtain ⟨hcontrol, hpwm, hflag, hstop, hactive⟩ := mainStep_spec h hs.flag
  refine ⟨hflag, ?_, ?_, ?_⟩
  · intro hp
    rw [hcontrol] at hp
    rcases hs.inside hp with ha | hst
    · exact hactive ha
    · exact .inr (hstop hst).1
  · intro hp
    rw [hcontrol] at hp
    rw [hpwm]
    rcases hs.outside hp with hn | ⟨ha, hst⟩
    · exact .inl hn
    · exact .inr ⟨(hstop hst).2 ha, (hstop hst).1⟩
  · intro hp
    rw [hcontrol] at hp
    exact hpwm.trans (hs.starting hp)

lemma Inv.control {s t : Threads} (hs : Inv s) (h : Moves s t) : Inv t := by
  refine ⟨?_, ?_, ?_, ?_⟩
  · rw [h.main, h.active]
    exact hs.flag
  · intro hp
    rw [h.main, h.active]
    rcases hp with hp | hp
    · rcases (h.starting hp).2 with hp' | ⟨-, ha⟩
      · exact hs.inside (.inl hp')
      · exact .inl ha
    · exact hs.inside (h.looping hp)
  · intro hp
    rw [h.main, h.active]
    obtain ⟨hpwm, hp' | ⟨hp', ha⟩⟩ := h.outside hp
    · rw [hpwm]
      exact hs.outside hp'
    · have hst := (hs.inside (.inr hp')).resolve_left (by rw [ha]; exact Bool.false_ne_true)
      exact .inr ⟨ha, hst⟩
  · intro hp
    obtain ⟨hpwm, hp' | ⟨hp', ha⟩⟩ := h.starting hp
    · exact hpwm.trans (hs.starting hp')
    · refine hpwm.trans ((hs.outside hp').resolve_right ?_)
      intro e
      exact Bool.false_ne_true (e.1.symm.trans ha)

theorem inv_of_reaches {pl : Platform} {s : Threads} (h : Reaches pl start s) : Inv s := by
  apply h.invariant inv_start
  intro s c t hs _ hstep
  cases c with
  | main input => exact hs.main hstep
  | control yawOutput pitchOutput => exact hs.control (controlStep_moves hstep)
  | cancelled => exact hs.control (cancelStep_moves hstep).1

/-! ### The last pair -/

/-- The main thread is about to write the last pair of `state_end`. -/
def AtLastWrite (s : Threads) : Prop :=
  s.main = .running [.hw (.readWrite midWord midWord .current), .releaseResetGpio] .stateEnd

/-- The main thread has written it. -/
def PastLastWrite (s : Threads) : Prop :=
  s.main = .running [.releaseResetGpio] .stateEnd ∨ s.main = .running [] .stateEnd ∨
    s.main = .cancel ∨ s.main = .join ∨ s.main = .returned

/-- The control thread is between its test of the flag and its write, and about to write a pair
that drives a motor. Before it has computed the pair it can be any. -/
def Armed (s : Threads) : Prop :=
  s.control = .compute ∨ s.control = .write ∧ s.pwm ≠ neutral

instance (s : Threads) : Decidable s.Armed := by unfold Armed; infer_instance

/-- The pair the control thread writes next, if it writes before it tests the flag, is neutral. -/
structure Quiet (s : Threads) : Prop where
  compute : s.control ≠ .compute
  write : s.control = .unlock ∨ s.control = .firstWrite ∨ s.control = .write → s.pwm = neutral

lemma quiet_iff {s : Threads} (hs : Inv s) : Quiet s ↔ ¬ s.Armed := by
  constructor
  · rintro hq (hc | ⟨hc, hn⟩)
    · exact hq.compute hc
    · exact hn (hq.write (.inr (.inr hc)))
  · intro ha
    refine ⟨fun hc => ha (.inl hc), ?_⟩
    rintro (hc | hc | hc)
    · exact hs.starting (by rw [hc]; rfl)
    · exact hs.starting (by rw [hc]; rfl)
    · by_contra hn
      exact ha (.inr ⟨hc, hn⟩)

/-- The motors are neutral, or will be: the flag stays cleared, the control thread writes nothing
but the neutral pair, and after the last write of the main thread that is the last pair. -/
structure Safe (s : Threads) : Prop where
  cleared : s.startThreadActive = false
  quiet : Quiet s
  last : s.AtLastWrite ∨ s.PastLastWrite ∧ s.written.head? = some neutral

lemma Safe.main {pl : Platform} {s t : Threads} {input : Option String} (hs : Safe s)
    (h : s.mainStep pl input = some t) : Safe t := by
  obtain ⟨hclear, hquiet, hm | ⟨hm | hm | hm | hm | hm, hlast⟩⟩ := hs
  · simp only [AtLastWrite] at hm
    simp only [mainStep, hm, doOp, Option.map_some, Option.some.injEq] at h
    subst h
    exact ⟨hclear, ⟨hquiet.compute, hquiet.write⟩, .inr ⟨.inl rfl, rfl⟩⟩
  · simp only [mainStep, hm, doOp, Option.map_some, Option.some.injEq] at h
    subst h
    exact ⟨hclear, ⟨hquiet.compute, hquiet.write⟩, .inr ⟨.inr (.inl rfl), hlast⟩⟩
  · simp only [mainStep, hm, if_true, Option.some.injEq] at h
    subst h
    exact ⟨hclear, ⟨hquiet.compute, hquiet.write⟩, .inr ⟨.inr (.inr (.inl rfl)), hlast⟩⟩
  · simp only [mainStep, hm, Option.some.injEq] at h
    subst h
    exact ⟨hclear, ⟨hquiet.compute, hquiet.write⟩, .inr ⟨.inr (.inr (.inr (.inl rfl))), hlast⟩⟩
  · simp only [mainStep, hm, Option.ite_none_right_eq_some, Option.some.injEq] at h
    obtain ⟨-, rfl⟩ := h
    exact ⟨hclear, ⟨hquiet.compute, hquiet.write⟩, .inr ⟨.inr (.inr (.inr (.inr rfl))), hlast⟩⟩
  · simp only [mainStep, hm] at h
    cases h

/-- **While the flag is cleared, a quiet control thread stays quiet** and writes the neutral pair
only. -/
lemma controlStep_quiet {s t : Threads} {yawOutput pitchOutput : ℚ}
    (hclear : s.startThreadActive = false) (hs : Quiet s)
    (h : s.controlStep yawOutput pitchOutput = some t) :
    Quiet t ∧ (t.written = s.written ∨ t.written = neutral :: s.written) := by
  unfold controlStep at h
  split at h
  · simp only [Option.ite_none_right_eq_some, Option.some.injEq] at h
    obtain ⟨-, rfl⟩ := h
    exact ⟨⟨by simp, by simp⟩, .inl rfl⟩
  · rw [hclear, if_neg Bool.false_ne_true] at h
    obtain rfl := Option.some.inj h
    exact ⟨⟨by simp, by simp⟩, .inl rfl⟩
  · simp only [Option.ite_none_left_eq_some, Option.some.injEq] at h
    obtain ⟨-, rfl⟩ := h
    exact ⟨⟨by simp, by simp⟩, .inl rfl⟩
  · simp only [Option.ite_none_right_eq_some, Option.some.injEq] at h
    obtain ⟨-, rfl⟩ := h
    exact ⟨⟨by simp, by simp⟩, .inl rfl⟩
  · next hc =>
    obtain rfl := Option.some.inj h
    exact ⟨⟨by simp, fun _ => hs.write (.inl hc)⟩, .inl rfl⟩
  · next hc =>
    obtain rfl := Option.some.inj h
    exact ⟨⟨by simp, by simp⟩, .inr (by rw [hs.write (.inr (.inl hc))])⟩
  · obtain rfl := Option.some.inj h
    exact ⟨⟨by simp, by simp⟩, .inl rfl⟩
  · rw [hclear, if_neg Bool.false_ne_true] at h
    obtain rfl := Option.some.inj h
    exact ⟨⟨by simp, by simp⟩, .inl rfl⟩
  · next hc => exact absurd hc hs.compute
  · next hc =>
    obtain rfl := Option.some.inj h
    exact ⟨⟨by simp, by simp⟩, .inr (by rw [hs.write (.inr (.inr hc))])⟩
  · rw [hclear, if_neg Bool.false_ne_true] at h
    obtain rfl := Option.some.inj h
    exact ⟨⟨by simp, by simp⟩, .inl rfl⟩
  · simp only [Option.ite_none_left_eq_some, Option.some.injEq] at h
    obtain ⟨-, rfl⟩ := h
    exact ⟨⟨by simp, by simp⟩, .inl rfl⟩
  · cases h
  · cases h

lemma Safe.of_moves {s t : Threads} (hs : Safe s) (hmoves : Moves s t) (hquiet : Quiet t)
    (hwritten : t.written = s.written ∨ t.written = neutral :: s.written) : Safe t := by
  refine ⟨hmoves.active.trans hs.cleared, hquiet, ?_⟩
  unfold AtLastWrite PastLastWrite
  rw [hmoves.main]
  rcases hs.last with hm | ⟨hm, hlast⟩
  · exact .inl hm
  · rcases hwritten with hw | hw
    · exact .inr ⟨hm, hw ▸ hlast⟩
    · exact .inr ⟨hm, hw ▸ rfl⟩

theorem safe_of_reaches {pl : Platform} {s t : Threads} (hs : Safe s) (h : Reaches pl s t) :
    Safe t := by
  apply h.invariant hs
  intro s c t hs _ hstep
  cases c with
  | main input => exact hs.main hstep
  | control yawOutput pitchOutput =>
    obtain ⟨hquiet, hwritten⟩ := controlStep_quiet hs.cleared hs.quiet hstep
    exact hs.of_moves (controlStep_moves hstep) hquiet hwritten
  | cancelled =>
    obtain ⟨hmoves, hc, hw⟩ := cancelStep_moves hstep
    exact hs.of_moves hmoves ⟨by rw [hc]; simp, by rw [hc]; simp⟩ (.inl hw)

lemma exists_driving_pair :
    ∃ pitchWord yawWord, pitchPwm (1 / 2) = some pitchWord ∧ yawPwm (1 / 2) = some yawWord ∧
      (pitchWord, yawWord) ≠ neutral := by
  have hhalf : |(1 / 2 : ℚ)| ≤ 1 := by norm_num [abs_of_pos]
  obtain ⟨pitchWord, hpitch, -⟩ := pitchPwm_eq hhalf
  obtain ⟨yawWord, hyaw, hvalue, -⟩ := yawPwm_eq hhalf
  refine ⟨pitchWord, yawWord, hpitch, hyaw, ?_⟩
  intro h
  have hmid : yawWord = midWord := congrArg Prod.snd h
  have hfloor : ⌊(2048 : ℚ) * |1 / 2|⌋₊ = 1024 := by norm_num [abs_of_pos]
  rw [hmid, hfloor] at hvalue
  norm_num [midWord, PWM_MID_POINT, signed] at hvalue

/-- **An armed control thread can write last.** -/
lemma exists_driven (pl : Platform) {s : Threads} (hm : s.AtLastWrite)
    (hclear : s.startThreadActive = false) (ha : s.Armed) :
    ∃ t, Reaches pl s t ∧ t.main = .returned ∧ t.written.head? ≠ some neutral := by
  obtain ⟨main, control, pwm, active, lock, cancel, written⟩ := s
  obtain rfl : active = false := hclear
  obtain rfl := hm
  have hwrite : ∀ pair, pair ≠ neutral → ∃ t, Reaches pl
      { main := .running [.hw (.readWrite midWord midWord .current), .releaseResetGpio] .stateEnd
        control := .write, pwm := pair, startThreadActive := false, startThreadLock := lock
        cancelRequested := cancel, written := written } t ∧
      t.main = .returned ∧ t.written.head? ≠ some neutral := by
    intro pair hpair
    refine ⟨_, .cons (.main none) rfl <| .cons (.control 0 0) rfl <| .cons (.control 0 0) rfl <|
      .cons (.main none) rfl <| .cons (.main none) rfl <| .cons (.main none) rfl <|
      .cons (.main none) rfl .refl, rfl, fun h => hpair (Option.some.inj h)⟩
  rcases ha with hc | ⟨hc, hn⟩
  · obtain rfl : control = .compute := hc
    obtain ⟨pitchWord, yawWord, hpitch, hyaw, hpair⟩ := exists_driving_pair
    obtain ⟨t, hreach, hend⟩ := hwrite _ hpair
    refine ⟨t, .cons (.control (1 / 2) (1 / 2)) ?_ hreach, hend⟩
    simp only [step, controlStep, hpitch, hyaw]
  · obtain rfl : control = .write := hc
    exact hwrite pwm hn

/-- **When the motors are left neutral**: whatever the interleaving from the last write of the main
thread on, the last pair is the neutral one, exactly when the control thread is not armed at that
write. -/
theorem left_neutral_iff (pl : Platform) {s : Threads} (hs : Reaches pl start s)
    (hm : s.AtLastWrite) :
    (∀ t, Reaches pl s t → t.main = .returned → t.written.head? = some neutral) ↔ ¬ s.Armed := by
  have hinv := inv_of_reaches hs
  have hclear : s.startThreadActive = false := by
    have hflag := hinv.flag
    rw [hm, flagInv_running_end] at hflag
    exact hflag.2.resolve_left (by simp)
  constructor
  · intro hall ha
    obtain ⟨t, hreach, hend, hlast⟩ := exists_driven pl hm hclear ha
    exact hlast (hall t hreach hend)
  · intro ha t hreach hend
    have hsafe := safe_of_reaches ⟨hclear, (quiet_iff hinv).2 ha, .inl hm⟩ hreach
    rcases hsafe.last with ht | ht
    · exact absurd (hend.symm.trans ht) (by simp)
    · exact ht.2

/-! ### A run into the window -/

/-- The pairs that some accesses write, the last one first. -/
def writtenBy (accesses : List HwOp) : List (BitVec 16 × BitVec 16) :=
  (accesses.filterMap HwOp.pwm).reverse

lemma reaches_accesses (pl : Platform) (s : Threads) (accesses : List HwOp) (ops : List Op)
    (st : State) :
    Reaches pl { s with main := .running (accesses.map .hw ++ ops) st }
      { s with main := .running ops st, written := writtenBy accesses ++ s.written } := by
  induction accesses generalizing s with
  | nil => exact .refl
  | cons access accesses ih =>
    have hwritten : writtenBy (access :: accesses) ++ s.written =
        writtenBy accesses ++ (access.pwm.toList ++ s.written) := by
      cases hpwm : access.pwm with
      | none => simp [writtenBy, hpwm]
      | some pair => simp [writtenBy, hpwm]
    rw [hwritten]
    exact .cons (.main none) rfl (ih { s with written := access.pwm.toList ++ s.written })

lemma reaches_action (pl : Platform) (s : Threads) (st st' : State) (line : String)
    (accesses : List HwOp) {before after : String} (hst : st' ≠ .stateEnd)
    (hline : processLine pl st line =
      (st', .printf before :: (accesses.map .hw ++ [.printf after]))) :
    Reaches pl { s with main := .reading st }
      { s with main := .reading st', written := writtenBy accesses ++ s.written } := by
  have hread : step pl { s with main := .reading st } (.main (some line)) = some { s with
      main := .running (.printf before :: (accesses.map .hw ++ [.printf after])) st' } := by
    simp only [step, mainStep, hline]
  have hdone : step pl
      { s with main := .running [] st', written := writtenBy accesses ++ s.written } (.main none) =
      some { s with main := .reading st', written := writtenBy accesses ++ s.written } := by
    simp only [step, mainStep, if_neg hst]
  refine .cons _ hread (.cons (.main none) rfl ?_)
  exact (reaches_accesses pl s accesses _ st').trans (.cons (.main none) rfl (.cons _ hdone .refl))

/-- The threads after `init`, `home`, `start` and `end`, when the control thread has entered its
loop after `start`. -/
def racing (pl : Platform) : Threads where
  main := .running [.hw (.readWrite midWord midWord .current), .releaseResetGpio] .stateEnd
  control := .compute
  pwm := neutral
  startThreadActive := false
  startThreadLock := none
  cancelRequested := false
  written := neutral :: (writtenBy homingSequence ++ writtenBy (initFpga pl))

theorem reaches_racing (pl : Platform) : Reaches pl start (racing pl) := by
  have hinit := reaches_action pl start .stateReady .stateInit "init" (initFpga pl) (by decide) rfl
  have hhome := reaches_action pl { start with written := writtenBy (initFpga pl) ++ [] }
    .stateInit .stateHome "home" homingSequence (by decide) rfl
  refine hinit.trans (hhome.trans ?_)
  rw [List.append_nil, racing]
  generalize writtenBy homingSequence ++ writtenBy (initFpga pl) = written
  refine .cons (.main (some "start")) rfl ?_
  refine .cons (.main none) rfl <| .cons (.main none) rfl <| .cons (.main none) rfl <|
    .cons (.main none) rfl <| .cons (.main none) rfl <| .cons (.main none) rfl ?_
  refine .cons (.control 0 0) rfl <| .cons (.control 0 0) rfl <| .cons (.control 0 0) rfl <|
    .cons (.control 0 0) rfl <| .cons (.control 0 0) rfl <| .cons (.control 0 0) rfl ?_
  refine .cons (.main (some "end")) rfl ?_
  exact .cons (.main none) rfl <| .cons (.main none) rfl <| .cons (.main none) rfl <|
    .cons (.main none) rfl <| .cons (.main none) rfl .refl

theorem left_neutral_iff_racing :
    (∀ t, Reaches .rpi (racing .rpi) t → t.main = .returned → t.written.head? = some neutral) ↔
      ¬ (racing .rpi).Armed :=
  left_neutral_iff .rpi (reaches_racing .rpi) rfl

/-- **A motor can be left driven**: the control thread computes its pair before the last write of
the main thread, and writes it after. -/
theorem left_driven :
    ¬ ∀ pl s t, Reaches pl start s → s.AtLastWrite → Reaches pl s t → t.main = .returned →
      t.written.head? = some neutral := by
  intro h
  obtain ⟨t, hreach, hend, hlast⟩ := exists_driven .rpi (s := racing .rpi) rfl rfl (.inl rfl)
  exact hlast (h .rpi _ t (reaches_racing .rpi) rfl hreach hend)

end Threads

end PanTilt.App
