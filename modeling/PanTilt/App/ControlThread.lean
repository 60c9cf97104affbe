import PanTilt.App.ControlLoop
import PanTilt.App.Submodel

/-!
`main.c`, `start_thread_func` with the two controllers in it: what it reads, what it computes and
what it writes, from the wake-up on.

`activate` is what stands between the wake-up and the inner loop, `iterate` one iteration of the
inner loop with the center of mass it dequeues. Both call the generated submodels, so that
`iterate_spec` is the whole iteration in terms of the two PID controllers: they are stepped with the
distances of the positions from the set points, and their limited outputs become the words.
-/

namespace PanTilt.App

open Lib Submodel

/-- The locals of the thread, the globals of the submodels, and the settings and transfers of the
program. -/
structure ControlThread where
  loop : LoopState
  yaw : Globals YawVariables
  pitch : Globals PitchVariables
  yawInputs : Vec
  yawOutputs : Vec
  pitchInputs : Vec
  pitchOutputs : Vec
  pitchPwm : BitVec 16
  yawPwm : BitVec 16
  cpu : Cpu

/-- The positions that `get_rad_from_encoder` computes. -/
def Cpu.position (c : Cpu) : Angles where
  pitch := (getRadFromEncoder c.settings).1
  yaw := (getRadFromEncoder c.settings).2

namespace ControlThread

/-- The thread before its first wake-up. The arrays of inputs and outputs are not initialised. -/
def start (cpu : Cpu) (yawInputs yawOutputs pitchInputs pitchOutputs : Vec) : ControlThread where
  loop := .initial { yaw := 0, pitch := 0 }
  yaw := Submodel.yaw.static
  pitch := Submodel.pitch.static
  yawInputs
  yawOutputs
  pitchInputs
  pitchOutputs
  pitchPwm := midWord
  yawPwm := midWord
  cpu

section Model

variable (pl : Platform) (answer : ℕ → BitVec 32)

/-- The statements between the wake-up and the inner loop. -/
def activate (th : ControlThread) : ControlThread :=
  let cpu := exec pl answer th.cpu (.readWrite th.pitchPwm th.yawPwm .current)
  let positionCurrent := cpu.position
  let yawInputs :=
    Function.update (Function.update th.yawInputs i₀ positionCurrent.yaw) i₁ positionCurrent.yaw
  let yawOutputs := Function.update (Function.update th.yawOutputs i₀ 0) i₁ 0
  let pitchInputs :=
    Function.update (Function.update th.pitchInputs i₁ positionCurrent.pitch) i₂
      positionCurrent.pitch
  let pitchOutputs := Function.update th.pitchOutputs i₀ 0
  let yaw := initializeSubmodel Submodel.yaw yawInputs yawOutputs th.yaw.time th.yaw
  let pitch := initializeSubmodel Submodel.pitch pitchInputs pitchOutputs th.pitch.time th.pitch
  { th with
    loop := { th.loop with positionCurrent }
    yaw := yaw.1
    pitch := pitch.1
    yawInputs
    yawOutputs := yaw.2
    pitchInputs
    pitchOutputs := pitch.2
    cpu }

/-- One iteration of the inner loop, with the center of mass that `spsc_dequeue` brings. It is
undefined if an output does not fit its conversion. -/
def iterate (th : ControlThread) (com : Option COM) : Option ControlThread := do
  let setPoint := passed th.loop { com, position := th.loop.positionCurrent }
  let yawInputs := Function.update (Function.update th.yawInputs i₀ setPoint.yaw) i₁
    th.loop.positionCurrent.yaw
  let pitchInputs := Function.update (Function.update th.pitchInputs i₁ setPoint.pitch) i₂
    th.loop.positionCurrent.pitch
  let yaw := calculateSubmodel Submodel.yaw yawInputs th.yawOutputs th.yaw.time th.yaw
  let pitch := calculateSubmodel Submodel.pitch pitchInputs th.pitchOutputs th.pitch.time th.pitch
  let yawPwm ← App.yawPwm (yaw.2 i₁)
  let pitchPwm ← App.pitchPwm (pitch.2 i₀)
  let cpu := exec pl answer th.cpu (.readWrite pitchPwm yawPwm .current)
  return {
    loop := { setPoint, positionCurrent := cpu.position }
    yaw := yaw.1
    pitch := pitch.1
    yawInputs
    yawOutputs := yaw.2
    pitchInputs
    pitchOutputs := pitch.2
    pitchPwm
    yawPwm
    cpu }

/-- The iterations of a list of centers of mass, after the wake-up. -/
def run (th : ControlThread) (coms : List (Option COM)) : Option ControlThread :=
  coms.foldlM (iterate pl answer) (activate pl answer th)

end Model

/-! ### Controllers -/

/-- The two controllers are in the states `s` and `s'`. -/
structure InState (s s' : Pid.State ℚ) (th : ControlThread) : Prop where
  yaw : Holds Submodel.yaw s th.yaw
  pitch : Holds Submodel.pitch s' th.pitch

/-- The outputs of the controllers, limited. -/
def output (s : Pid.State ℚ) : ℚ := Pid.limit (-0.99) 0.99 s.output

lemma abs_output_le (s : Pid.State ℚ) : |output s| ≤ 0.99 :=
  abs_le.2 (Pid.limit_mem (by norm_num) s.output)

/-- What an iteration leads to, from the controllers in the states `s` and `s'`. -/
structure Iterates (pl : Platform) (answer : ℕ → BitVec 32) (s s' : Pid.State ℚ)
    (th : ControlThread) (com : Option COM) (th' : ControlThread) : Prop where
  loop : th'.loop = App.iterate th.loop { com, position := th'.cpu.position }
  states : InState
    (Pid.step yawParameters.pid s (th'.loop.setPoint.yaw - th.loop.positionCurrent.yaw))
    (Pid.step pitchParameters.pid s' (th'.loop.setPoint.pitch - th.loop.positionCurrent.pitch)) th'
  yawPwm : App.yawPwm (output th'.yaw.R) = some th'.yawPwm
  pitchPwm : App.pitchPwm (output th'.pitch.R) = some th'.pitchPwm
  cpu : th'.cpu = exec pl answer th.cpu (.readWrite th'.pitchPwm th'.yawPwm .current)

section Spec

variable (pl : Platform) (answer : ℕ → BitVec 32)

/-- **The wake-up leaves both controllers at rest**, with the positions read as both set points and
positions, but the set points of the loop as they were. -/
theorem activate_spec (th : ControlThread) :
    InState .rest .rest (activate pl answer th) ∧
      (activate pl answer th).loop.setPoint = th.loop.setPoint ∧
      (activate pl answer th).loop.positionCurrent = (activate pl answer th).cpu.position ∧
      (activate pl answer th).cpu =
        exec pl answer th.cpu (.readWrite th.pitchPwm th.yawPwm .current) := by
  have hrest : ∀ p : Pid.Params ℚ, Pid.step p .rest 0 = .rest := by
    intro p
    simp [Pid.step, Pid.State.rest]
  refine ⟨⟨?_, ?_⟩, rfl, rfl, rfl⟩
  · have hyaw := (initializeSubmodel_holds yaw_controls (activate pl answer th).yawInputs
      (Function.update (Function.update th.yawOutputs i₀ 0) i₁ 0) th.yaw.time th.yaw).1
    have herror : yawError (activate pl answer th).yawInputs = 0 := by
      simp [yawError, activate, Function.update, i₀, i₁]
    rwa [herror, hrest] at hyaw
  · have hpitch := (initializeSubmodel_holds pitch_controls (activate pl answer th).pitchInputs
      (Function.update th.pitchOutputs i₀ 0) th.pitch.time th.pitch).1
    have herror : pitchError (activate pl answer th).pitchInputs = 0 := by
      simp [pitchError, activate, Function.update, i₁, i₂]
    rwa [herror, hrest] at hpitch

theorem iterate_spec {s s' : Pid.State ℚ} {th : ControlThread} (h : InState s s' th)
    (com : Option COM) :
    ∃ th', iterate pl answer th com = some th' ∧ Iterates pl answer s s' th com th' := by
  -- the inputs of the submodels
  generalize hset : passed th.loop { com, position := th.loop.positionCurrent } = setPoint
  let yawInputs := Function.update (Function.update th.yawInputs i₀ setPoint.yaw) i₁
    th.loop.positionCurrent.yaw
  let pitchInputs := Function.update (Function.update th.pitchInputs i₁ setPoint.pitch) i₂
    th.loop.positionCurrent.pitch
  have herror : yawError yawInputs = setPoint.yaw - th.loop.positionCurrent.yaw := by
    simp [yawError, yawInputs, Function.update, i₀, i₁]
  have herror' : pitchError pitchInputs = setPoint.pitch - th.loop.positionCurrent.pitch := by
    simp [pitchError, pitchInputs, Function.update, i₁, i₂]
  -- their states and outputs
  obtain ⟨hyaw, houtput⟩ :=
    calculateSubmodel_holds yaw_controls h.yaw yawInputs th.yawOutputs th.yaw.time
  obtain ⟨hpitch, houtput'⟩ :=
    calculateSubmodel_holds pitch_controls h.pitch pitchInputs th.pitchOutputs th.pitch.time
  rw [herror] at hyaw houtput
  rw [herror'] at hpitch houtput'
  -- the words
  have hlimit : ∀ s : Pid.State ℚ, |output s| ≤ 1 := fun s => (abs_output_le s).trans (by norm_num)
  obtain ⟨word, hword, -, -⟩ :=
    yawPwm_eq (hlimit (Pid.step yawParameters.pid s (setPoint.yaw - th.loop.positionCurrent.yaw)))
  obtain ⟨word', hword', -, -⟩ := pitchPwm_eq
    (hlimit (Pid.step pitchParameters.pid s' (setPoint.pitch - th.loop.positionCurrent.pitch)))
  have hcall : App.yawPwm ((calculateSubmodel Submodel.yaw yawInputs th.yawOutputs th.yaw.time
      th.yaw).2 i₁) = some word := (congrArg App.yawPwm houtput).trans hword
  have hcall' : App.pitchPwm ((calculateSubmodel Submodel.pitch pitchInputs th.pitchOutputs
      th.pitch.time th.pitch).2 i₀) = some word' := (congrArg App.pitchPwm houtput').trans hword'
  let cpu := exec pl answer th.cpu (.readWrite word' word .current)
  let yaw := calculateSubmodel Submodel.yaw yawInputs th.yawOutputs th.yaw.time th.yaw
  let pitch := calculateSubmodel Submodel.pitch pitchInputs th.pitchOutputs th.pitch.time th.pitch
  let th' : ControlThread :=
    { loop := { setPoint, positionCurrent := cpu.position }
      yaw := yaw.1
      pitch := pitch.1
      yawInputs
      yawOutputs := yaw.2
      pitchInputs
      pitchOutputs := pitch.2
      pitchPwm := word'
      yawPwm := word
      cpu }
  refine ⟨th', ?_, ⟨?_, ⟨hyaw, hpitch⟩, ?_, ?_, rfl⟩⟩
  · unfold iterate
    rw [hset]
    simp only [Option.bind_eq_bind]
    rw [hcall, Option.bind_some, hcall', Option.bind_some]
    rfl
  · exact congrArg (fun a => LoopState.mk a th'.cpu.position) hset.symm
  · rw [show th'.yaw.R = _ from hyaw.state]
    exact hword
  · rw [show th'.pitch.R = _ from hpitch.state]
    exact hword'

theorem iterations_spec {s s' : Pid.State ℚ} {th : ControlThread} (h : InState s s' th)
    (coms : List (Option COM)) :
    ∃ t t' th', coms.foldlM (iterate pl answer) th = some th' ∧ InState t t' th' := by
  induction coms generalizing s s' th with
  | nil => exact ⟨s, s', th, rfl, h⟩
  | cons com coms ih =>
    obtain ⟨th', hiter, hspec⟩ := iterate_spec pl answer h com
    obtain ⟨t, t', th'', hrun, hstate⟩ := ih hspec.states
    refine ⟨t, t', th'', ?_, hstate⟩
    rw [List.foldlM_cons, hiter]
    exact hrun

/-- **Every run is defined**, and its last iteration is a step of both controllers. -/
theorem run_concat (th : ControlThread) (coms : List (Option COM)) (com : Option COM) :
    ∃ s s' th₀ th', run pl answer th coms = some th₀ ∧ InState s s' th₀ ∧
      run pl answer th (coms ++ [com]) = some th' ∧ Iterates pl answer s s' th₀ com th' := by
  obtain ⟨s, s', th₀, hrun, hstate⟩ :=
    iterations_spec pl answer (activate_spec pl answer th).1 coms
  obtain ⟨th', hiter, hspec⟩ := iterate_spec pl answer hstate com
  refine ⟨s, s', th₀, th', hrun, hstate, ?_, hspec⟩
  rw [run, List.foldlM_append, hrun]
  simpa using hiter

end Spec

end ControlThread

end PanTilt.App
