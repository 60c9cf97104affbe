import Mathlib.Logic.Function.Basic
import Mathlib.Algebra.Order.Field.Rat
import Mathlib.Tactic.NormNum
import PanTilt.Lib.Pid

/-!
The two controllers that 20-sim generated: `yaw_xx*.c` and `pitch_xx*.c`, over exact numbers.

Both models have the same frame (`xxsubmod.c`, `xxinteg.c` and the initialisation of `xxmodel.c`)
around their own variables, parameters and equations. The frame is modelled once, for a `Model`;
`yaw` and `pitch` are the two models, their variables under the names of the generated comments.

`Model.Controls` says what a model is for: it is the PID controller of the library on the difference
of two of its inputs, behind a limiter. `run_controls` carries this over a run of a submodel, from
its initialisation on.
-/

namespace PanTilt.App

open Lib Lib.Clocked

/-- The input and output arrays of `main.c`, of three numbers each. -/
abbrev Vec : Type := Fin 3 → ℚ

/-- The places of such an array. -/
def i₀ : Fin 3 := 0
def i₁ : Fin 3 := 1
def i₂ : Fin 3 := 2

namespace Submodel

/-- `xx_P`. -/
structure Parameters where
  corrGainK : ℚ
  kp : ℚ
  tauD : ℚ
  beta : ℚ
  tauI : ℚ
  minimum : ℚ
  maximum : ℚ
  deriving DecidableEq

/-- `xx_step_size`, which no function changes. -/
def stepSize : ℚ := 0.01

/-- The global variables of a model with the variables `V`; `initializing` is `xx_initialize`. The
states, their initial values and the new states (`xx_s`, `xx_I` and `xx_R`) are arrays of the same
three. -/
structure Globals (V : Type) where
  time : ℚ
  steps : ℕ
  initializing : Bool
  major : Bool
  P : Parameters
  I : Pid.State ℚ
  V : V
  s : Pid.State ℚ
  R : Pid.State ℚ

/-- What the two models do not share. `calculateDynamic` gives the variables and the new states. -/
structure Model (V : Type) where
  parameters : Parameters
  zero : V
  copyInputsToVariables : Vec → V → V
  calculateDynamic : Parameters → Pid.State ℚ → V → V × Pid.State ℚ
  calculateOutput : V → V
  copyVariablesToOutputs : V → Vec → Vec

/-- The globals before the first call. -/
def Model.static {V : Type} (m : Model V) : Globals V where
  time := 0
  steps := 0
  initializing := true
  major := true
  P := ⟨0, 0, 0, 0, 0, 0, 0⟩
  I := ⟨0, 0, 0⟩
  V := m.zero
  s := ⟨0, 0, 0⟩
  R := ⟨0, 0, 0⟩

/-! ### The frame -/

section Frame

variable {V : Type} (m : Model V)

/-- `XXModelInitialize`. -/
def modelInitialize (g : Globals V) : Globals V :=
  { g with P := m.parameters, V := m.zero, I := ⟨0, 0, 0⟩, s := ⟨0, 0, 0⟩ }

/-- `XXDiscreteInitialize`. -/
def discreteInitialize (g : Globals V) : Globals V := { g with major := true }

/-- `XXCopyInputsToVariables`, after the assignment of the time. -/
def copyInputs (u : Vec) (t : ℚ) (g : Globals V) : Globals V :=
  { g with time := t, V := m.copyInputsToVariables u g.V }

/-- `XXCalculateInitial`. -/
def calculateInitial (g : Globals V) : Globals V := { g with s := g.I }

/-- `XXCalculateDynamic`. -/
def calculateDynamic (g : Globals V) : Globals V :=
  { g with
    V := (m.calculateDynamic g.P g.s g.V).1
    R := (m.calculateDynamic g.P g.s g.V).2
    steps := g.steps + 1 }

/-- `XXCalculateOutput`. -/
def calculateOutput (g : Globals V) : Globals V := { g with V := m.calculateOutput g.V }

/-- `XXDiscreteStep`. -/
def discreteStep (g : Globals V) : Globals V :=
  calculateDynamic m { g with s := g.R, time := g.time + stepSize, major := true }

/-- `XXInitializeSubmodel`. The static and the input equations of both models are empty. -/
def initializeSubmodel (u y : Vec) (t : ℚ) (g : Globals V) : Globals V × Vec :=
  let g := discreteInitialize (modelInitialize m { g with initializing := true, steps := 0 })
  let g := calculateInitial (copyInputs m u t g)
  let g := calculateOutput m (calculateDynamic m g)
  ({ g with initializing := false }, m.copyVariablesToOutputs g.V y)

/-- `XXCalculateSubmodel`. -/
def calculateSubmodel (u y : Vec) (t : ℚ) (g : Globals V) : Globals V × Vec :=
  let g := calculateOutput m (discreteStep m (copyInputs m u t g))
  (g, m.copyVariablesToOutputs g.V y)

end Frame

/-! ### The yaw model -/

/-- `yaw_xx_V`. -/
structure YawVariables where
  corrGainCorr : ℚ
  pidOutput : ℚ
  pidFactor : ℚ
  plusMinus1Plus1 : ℚ
  signalLimiter2Output : ℚ
  splitter1Input : ℚ
  corr : ℚ
  inp : ℚ
  position : ℚ
  out : ℚ
  deriving DecidableEq

/-- `YAW_XXModelInitialize_parameters`. -/
def yawParameters : Parameters where
  corrGainK := 0.0
  kp := 2.6
  tauD := 0.05
  beta := 0.17
  tauI := 9.0
  minimum := -0.99
  maximum := 0.99

/-- The equations of `YAW_XXCalculateDynamic`. -/
def yawDynamic (P : Parameters) (s : Pid.State ℚ) (v : YawVariables) :
    YawVariables × Pid.State ℚ :=
  let pidFactor := 1.0 / (stepSize + P.tauD * P.beta)
  let plusMinus1Plus1 := v.inp
  let splitter1Input := v.position
  let corrGainCorr := P.corrGainK * splitter1Input
  let error := plusMinus1Plus1 - splitter1Input
  let uD := pidFactor * (((P.tauD * s.uD) * P.beta + (P.tauD * P.kp) * (error - s.error)) +
    (stepSize * P.kp) * error)
  let uI := s.uI + (stepSize * uD) / P.tauI
  let pidOutput := uI + uD
  let signalLimiter2Output :=
    if pidOutput < P.minimum then P.minimum
    else if pidOutput > P.maximum then P.maximum
    else pidOutput
  ({ v with
      pidFactor
      plusMinus1Plus1
      splitter1Input
      corrGainCorr
      pidOutput
      signalLimiter2Output }, { uD, error, uI })

/-- The model of the yaw axis: the inputs are `in` and `position`, the outputs `corr` and `out`. -/
def yaw : Model YawVariables where
  parameters := yawParameters
  zero := ⟨0, 0, 0, 0, 0, 0, 0, 0, 0, 0⟩
  copyInputsToVariables u v := { v with inp := u 0, position := u 1 }
  calculateDynamic := yawDynamic
  calculateOutput v := { v with corr := v.corrGainCorr, out := v.signalLimiter2Output }
  copyVariablesToOutputs v y := Function.update (Function.update y 0 v.corr) 1 v.out

/-! ### The pitch model -/

/-- `pitch_xx_V`. -/
structure PitchVariables where
  corrGainInput : ℚ
  corrGainOutput : ℚ
  pidOutput : ℚ
  pidFactor : ℚ
  plusMinus1Output : ℚ
  plusMinus2Plus1 : ℚ
  plusMinus2Minus1 : ℚ
  signalLimiter2Output : ℚ
  corr : ℚ
  inp : ℚ
  position : ℚ
  out : ℚ
  deriving DecidableEq

/-- `PITCH_XXModelInitialize_parameters`. -/
def pitchParameters : Parameters where
  corrGainK := 0.0
  kp := 1.6
  tauD := 0.05
  beta := 0.001
  tauI := 10.5
  minimum := -0.99
  maximum := 0.99

/-- The equations of `PITCH_XXCalculateDynamic`. -/
def pitchDynamic (P : Parameters) (s : Pid.State ℚ) (v : PitchVariables) :
    PitchVariables × Pid.State ℚ :=
  let pidFactor := 1.0 / (stepSize + P.tauD * P.beta)
  let corrGainInput := v.corr
  let plusMinus2Plus1 := v.inp
  let plusMinus2Minus1 := v.position
  let corrGainOutput := P.corrGainK * corrGainInput
  let error := plusMinus2Plus1 - plusMinus2Minus1
  let uD := pidFactor * (((P.tauD * s.uD) * P.beta + (P.tauD * P.kp) * (error - s.error)) +
    (stepSize * P.kp) * error)
  let uI := s.uI + (stepSize * uD) / P.tauI
  let pidOutput := uI + uD
  let plusMinus1Output := corrGainOutput + pidOutput
  let signalLimiter2Output :=
    if plusMinus1Output < P.minimum then P.minimum
    else if plusMinus1Output > P.maximum then P.maximum
    else plusMinus1Output
  ({ v with
      pidFactor
      corrGainInput
      plusMinus2Plus1
      plusMinus2Minus1
      corrGainOutput
      pidOutput
      plusMinus1Output
      signalLimiter2Output }, { uD, error, uI })

/-- The model of the pitch axis: the inputs are `corr`, `in` and `position`, the output is `out`. -/
def pitch : Model PitchVariables where
  parameters := pitchParameters
  zero := ⟨0, 0, 0, 0, 0, 0, 0, 0, 0, 0, 0, 0⟩
  copyInputsToVariables u v := { v with corr := u 0, inp := u 1, position := u 2 }
  calculateDynamic := pitchDynamic
  calculateOutput v := { v with out := v.signalLimiter2Output }
  copyVariablesToOutputs v y := Function.update y 0 v.out

/-! ### What a model is for -/

/-- The controller that a model's parameters describe. -/
def Parameters.pid (P : Parameters) : Pid.Params ℚ where
  kp := P.kp
  tauD := P.tauD
  beta := P.beta
  tauI := P.tauI
  sampletime := stepSize

/-- The range of the limiter. -/
def Parameters.limited (P : Parameters) (s : Pid.State ℚ) : ℚ :=
  Pid.limit P.minimum P.maximum s.output

/-- The model steps the PID controller of its parameters with the error `e` of its inputs, and its
output `out` is the limited output of that controller. -/
structure Model.Controls {V : Type} (m : Model V) (e : Vec → ℚ) (out : Fin 3) : Prop where
  rates : ∀ s u v, (m.calculateDynamic m.parameters s (m.copyInputsToVariables u v)).2 =
    Pid.step m.parameters.pid s (e u)
  output : ∀ s u v y, m.copyVariablesToOutputs (m.calculateOutput
    (m.calculateDynamic m.parameters s (m.copyInputsToVariables u v)).1) y out =
      m.parameters.limited (Pid.step m.parameters.pid s (e u))

/-- The error of the yaw axis. -/
def yawError (u : Vec) : ℚ := u 0 - u 1

/-- The error of the pitch axis. -/
def pitchError (u : Vec) : ℚ := u 1 - u 2

theorem yaw_controls : yaw.Controls yawError 1 := by
  have hone : (1.0 : ℚ) = 1 := by norm_num
  refine ⟨fun s u v => ?_, fun s u v y => ?_⟩
  · simp only [yaw, yawDynamic, hone]
    rfl
  · simp only [yaw, yawDynamic, hone, Function.update_self]
    rfl

theorem pitch_controls : pitch.Controls pitchError 0 := by
  have hone : (1.0 : ℚ) = 1 := by norm_num
  have hK : pitchParameters.corrGainK = 0 := by norm_num [pitchParameters]
  refine ⟨fun s u v => ?_, fun s u v y => ?_⟩
  · simp only [pitch, pitchDynamic, hone]
    rfl
  · simp only [pitch, pitchDynamic, hone, hK, zero_mul, zero_add, Function.update_self]
    rfl

/-! ### Runs -/

/-- The globals and the outputs after `XXInitializeSubmodel` with the inputs `u 0` and `n` calls of
`XXCalculateSubmodel` with the inputs `u 1`, `u 2` and so on. -/
def run {V : Type} (m : Model V) (g : Globals V) (y : Vec) (u : ℕ → Vec) (t : ℕ → ℚ) :
    ℕ → Globals V × Vec
  | 0 => initializeSubmodel m (u 0) y (t 0) g
  | n + 1 => calculateSubmodel m (u (n + 1)) (run m g y u t n).2 (t (n + 1)) (run m g y u t n).1

section Run

variable {V : Type} {m : Model V} {e : Vec → ℚ} {out : Fin 3}

/-- The globals of an initialised submodel in the state `s` of its controller. -/
structure Holds (m : Model V) (s : Pid.State ℚ) (g : Globals V) : Prop where
  parameters : g.P = m.parameters
  state : g.R = s

/-- **The initialisation forgets everything**: the controller makes its first step from rest. -/
theorem initializeSubmodel_holds (h : m.Controls e out) (u y : Vec) (t : ℚ) (g : Globals V) :
    Holds m (Pid.step m.parameters.pid .rest (e u)) (initializeSubmodel m u y t g).1 ∧
      (initializeSubmodel m u y t g).2 out =
        m.parameters.limited (Pid.step m.parameters.pid .rest (e u)) := by
  refine ⟨⟨rfl, ?_⟩, ?_⟩
  · exact h.rates .rest u m.zero
  · exact h.output .rest u m.zero y

/-- **A call of the submodel is a step of the controller.** -/
theorem calculateSubmodel_holds (h : m.Controls e out) {s : Pid.State ℚ} {g : Globals V}
    (hg : Holds m s g) (u y : Vec) (t : ℚ) :
    Holds m (Pid.step m.parameters.pid s (e u)) (calculateSubmodel m u y t g).1 ∧
      (calculateSubmodel m u y t g).2 out =
        m.parameters.limited (Pid.step m.parameters.pid s (e u)) := by
  have hrates := h.rates s u g.V
  have houtput := h.output s u g.V y
  rw [← hg.parameters, ← hg.state] at hrates houtput
  refine ⟨⟨hg.parameters, ?_⟩, ?_⟩
  · rw [← hg.parameters, ← hg.state]
    exact hrates
  · rw [← hg.parameters, ← hg.state]
    exact houtput

/-- **Over a run the submodel is the controller at rest, stepped with the errors of its inputs**,
whatever the globals and the outputs were before, and whatever the times are. -/
theorem run_controls (h : m.Controls e out) (g : Globals V) (y : Vec) (u : ℕ → Vec) (t : ℕ → ℚ)
    (n : ℕ) :
    Holds m (Pid.after m.parameters.pid .rest (fun k => e (u k)) (n + 1)) (run m g y u t n).1 ∧
      (run m g y u t n).2 out = m.parameters.limited
        (Pid.after m.parameters.pid .rest (fun k => e (u k)) (n + 1)) := by
  induction n with
  | zero => exact initializeSubmodel_holds h (u 0) y (t 0) g
  | succ n ih => exact calculateSubmodel_holds h ih.1 (u (n + 1)) (run m g y u t n).2 (t (n + 1))

end Run

theorem run_windup {V : Type} {m : Model V} {e : Vec → ℚ} {out : Fin 3} (h : m.Controls e out)
    (hreg : m.parameters.pid.Regular) (hlimit : m.parameters.minimum ≤ m.parameters.maximum)
    {e₀ E : ℚ} (he : 0 < e₀) (M : ℕ) :
    ∃ N₀, ∀ N ≥ N₀, ∀ g y u t, (∀ k < N, e (u k) = e₀) → (∀ k, |e (u k)| ≤ E) →
      ∀ n, N ≤ n → n ≤ N + M → (run m g y u t n).2 out = m.parameters.maximum := by
  obtain ⟨N₀, hN₀⟩ := Pid.windup_const hreg (E := E) he m.parameters.maximum (M + 1)
  refine ⟨N₀, fun N hN g y u t hconst herror n hn hn' => ?_⟩
  rw [(run_controls h g y u t n).2, Parameters.limited]
  apply Pid.limit_of_ge hlimit
  exact hN₀ N hN (fun k => e (u k)) hconst herror (n + 1) (by omega) (by omega)

/-! ### The two controllers -/

theorem yaw_regular : yawParameters.pid.Regular := by
  constructor <;> norm_num [yawParameters, Parameters.pid, stepSize]

theorem pitch_regular : pitchParameters.pid.Regular := by
  constructor <;> norm_num [pitchParameters, Parameters.pid, stepSize]

section Both

variable (g : Globals YawVariables) (g' : Globals PitchVariables) (y y' : Vec) (u u' : ℕ → Vec)
  (t t' : ℕ → ℚ)

/-- **The generated code is two limited PID controllers.** Over every run the output of the yaw
model is the limited output of its controller on the errors of its inputs and its correction is
zero; so is that of the pitch model, also on its correction input, which the program never sets. -/
theorem submodels_control (n : ℕ) :
    (run yaw g y u t n).2 1 = Pid.limit (-0.99) 0.99
        (Pid.after yawParameters.pid .rest (fun k => u k 0 - u k 1) (n + 1)).output ∧
      (run yaw g y u t n).2 0 = 0 ∧
      (run pitch g' y' u' t' n).2 0 = Pid.limit (-0.99) 0.99
        (Pid.after pitchParameters.pid .rest (fun k => u' k 1 - u' k 2) (n + 1)).output := by
  have hK : yawParameters.corrGainK = 0 := by norm_num [yawParameters]
  have hyaw := run_controls yaw_controls g y u t n
  refine ⟨hyaw.2, ?_, (run_controls pitch_controls g' y' u' t' n).2⟩
  -- the correction of the yaw model has the gain zero
  have hcorr : ∀ (s : Pid.State ℚ) (u : Vec) (v : YawVariables) (y : Vec),
      yaw.copyVariablesToOutputs (yaw.calculateOutput
        (yawDynamic yawParameters s (yaw.copyInputsToVariables u v)).1) y 0 = 0 := by
    intro s u v y
    simp [yaw, yawDynamic, hK]
  cases n with
  | zero => exact hcorr .rest (u 0) yaw.zero y
  | succ n =>
    have hprev := (run_controls yaw_controls g y u t n).1
    have hstep := hcorr (run yaw g y u t n).1.R (u (n + 1)) (run yaw g y u t n).1.V
      (run yaw g y u t n).2
    rw [show yawParameters = (run yaw g y u t n).1.P from hprev.parameters.symm] at hstep
    exact hstep

/-- The response to a constant error `e` from rest, before the limiter: the proportional part, a
first overshoot by `kick` of it that decays by `ratio`, and an integral part that grows by `rate` at
each step and by what the overshoot adds to it. -/
def response (kp kick ratio rate e : ℚ) (n : ℕ) : ℚ :=
  kp * e * (1 + kick * ratio ^ n +
    rate * ((n + 1) + kick * ((1 - ratio ^ (n + 1)) / (1 - ratio))))

/-- **The step responses** of the two submodels, from every content of their globals. -/
theorem step_responses {e e' : ℚ} (he : ∀ k, u k 0 - u k 1 = e) (he' : ∀ k, u' k 1 - u' k 2 = e')
    (n : ℕ) :
    (run yaw g y u t n).2 1 =
        Pid.limit (-0.99) 0.99 (response 2.6 (83 / 37) (17 / 37) (1 / 900) e n) ∧
      (run pitch g' y' u' t' n).2 0 =
        Pid.limit (-0.99) 0.99 (response 1.6 (333 / 67) (1 / 201) (1 / 1050) e' n) := by
  have hyaw : (run yaw g y u t n).2 1 = Pid.limit (-0.99) 0.99
      (Pid.after yawParameters.pid .rest (fun k => u k 0 - u k 1) (n + 1)).output :=
    (run_controls yaw_controls g y u t n).2
  have hpitch : (run pitch g' y' u' t' n).2 0 = Pid.limit (-0.99) 0.99
      (Pid.after pitchParameters.pid .rest (fun k => u' k 1 - u' k 2) (n + 1)).output :=
    (run_controls pitch_controls g' y' u' t' n).2
  constructor
  · have hkick : yawParameters.pid.kick = 83 / 37 := by
      norm_num [Pid.Params.kick, Parameters.pid, yawParameters, stepSize]
    have hratio : yawParameters.pid.ratio = 17 / 37 := by
      norm_num [Pid.Params.ratio, Parameters.pid, yawParameters, stepSize]
    have hrate : yawParameters.pid.sampletime / yawParameters.pid.tauI = 1 / 900 := by
      norm_num [Parameters.pid, yawParameters, stepSize]
    rw [hyaw, funext he, Pid.output_const yaw_regular, Pid.Params.response, hkick, hratio, hrate]
    rfl
  · have hkick : pitchParameters.pid.kick = 333 / 67 := by
      norm_num [Pid.Params.kick, Parameters.pid, pitchParameters, stepSize]
    have hratio : pitchParameters.pid.ratio = 1 / 201 := by
      norm_num [Pid.Params.ratio, Parameters.pid, pitchParameters, stepSize]
    have hrate : pitchParameters.pid.sampletime / pitchParameters.pid.tauI = 1 / 1050 := by
      norm_num [Parameters.pid, pitchParameters, stepSize]
    rw [hpitch, funext he', Pid.output_const pitch_regular, Pid.Params.response, hkick, hratio,
      hrate]
    rfl

end Both

/-- The inputs of a submodel whose set point, at place `i`, is a tenth of a radian ahead of its
position, at place `j`, and both move. -/
def movingStep (i j : Fin 3) (k : ℕ) : Vec := fun l =>
  if l = i then k + 1 / 10 else if l = j then k else 0

theorem step_responses_moving :
    (run yaw yaw.static 0 (movingStep 0 1) 0 5).2 1 =
        Pid.limit (-0.99) 0.99 (response 2.6 (83 / 37) (17 / 37) (1 / 900) (1 / 10) 5) ∧
      (run pitch pitch.static 0 (movingStep 1 2) 0 5).2 0 =
        Pid.limit (-0.99) 0.99 (response 1.6 (333 / 67) (1 / 201) (1 / 1050) (1 / 10) 5) :=
  step_responses yaw.static pitch.static 0 0 (movingStep 0 1) (movingStep 1 2) 0 0
    (fun k => by simp [movingStep]) (fun k => by simp [movingStep]) 5

/-- **Windup of both controllers.** For every time `M` there is a duration after which a constant
positive error has filled the integral actions so far that both outputs stay at their maximum for
`M` more steps, from every content of the globals and whatever the errors of that time are, also of
the opposite sign. -/
theorem controllers_windup {e E : ℚ} (he : 0 < e) (M : ℕ) :
    ∃ N, (∀ g y u t, (∀ k < N, u k 0 - u k 1 = e) → (∀ k, |u k 0 - u k 1| ≤ E) →
        ∀ n, N ≤ n → n ≤ N + M → (run yaw g y u t n).2 1 = 0.99) ∧
      ∀ g y u t, (∀ k < N, u k 1 - u k 2 = e) → (∀ k, |u k 1 - u k 2| ≤ E) →
        ∀ n, N ≤ n → n ≤ N + M → (run pitch g y u t n).2 0 = 0.99 := by
  obtain ⟨N, hN⟩ := run_windup yaw_controls yaw_regular
    (by norm_num [yaw, yawParameters]) (E := E) he M
  obtain ⟨N', hN'⟩ := run_windup pitch_controls pitch_regular
    (by norm_num [pitch, pitchParameters]) (E := E) he M
  exact ⟨max N N', hN _ (le_max_left _ _), hN' _ (le_max_right _ _)⟩

theorem controllers_windup_unit :
    ∃ N, (∀ g y u t, (∀ k < N, u k 0 - u k 1 = 1) → (∀ k, |u k 0 - u k 1| ≤ 1) →
        ∀ n, N ≤ n → n ≤ N + 100 → (run yaw g y u t n).2 1 = 0.99) ∧
      ∀ g y u t, (∀ k < N, u k 1 - u k 2 = 1) → (∀ k, |u k 1 - u k 2| ≤ 1) →
        ∀ n, N ≤ n → n ≤ N + 100 → (run pitch g y u t n).2 0 = 0.99 :=
  controllers_windup one_pos 100

end Submodel

end PanTilt.App
