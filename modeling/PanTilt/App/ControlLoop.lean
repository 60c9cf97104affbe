import Mathlib.Algebra.Order.Floor.Ring
import Mathlib.Data.Rat.Floor
import Mathlib.Order.Interval.Set.Basic
import Mathlib.Tactic.Linarith
import PanTilt.App.HwInterface

/-!
`main.c`, the inner loop of `start_thread_func`: from a center of mass to the set points of the two
controllers, and from their outputs to the PWM words.

The set points are loop state. They are clipped to the motor limits only after a valid center of
mass, so that the zeros they start with are passed on until the first one comes: `setPoints_iff` is
the exact condition under which no set point leaves the limits.
-/

namespace PanTilt.App

/-- A pair of angles of the two axes, in radians. -/
structure Angles where
  yaw : ℚ
  pitch : ℚ
  deriving DecidableEq

/-- Both angles are within the limits of their motors. -/
structure Angles.InLimits (a : Angles) : Prop where
  yaw : a.yaw ∈ Set.Icc YAW_MIN_RAD YAW_MAX_RAD
  pitch : a.pitch ∈ Set.Icc PITCH_MIN_RAD PITCH_MAX_RAD

/-- A center of mass, in pixels. -/
structure COM where
  comX : ℚ
  comY : ℚ
  deriving DecidableEq

/-- The test on the result of `spsc_dequeue` and the value it wrote. -/
def COM.Valid (comVal : COM) : Prop := 0 < comVal.comX ∧ 0 < comVal.comY

instance (comVal : COM) : Decidable comVal.Valid := by unfold COM.Valid; infer_instance

/-! ### Set points -/

/-- The locals of the loop that the set points depend on. -/
structure LoopState where
  setPoint : Angles
  positionCurrent : Angles
  deriving DecidableEq

/-- The locals after the initialisation of the submodels, with the position read there. -/
def LoopState.initial (position : Angles) : LoopState where
  setPoint := { yaw := 0, pitch := 0 }
  positionCurrent := position

/-- The new set point of one axis: outside a dead zone of 50 pixels, the current position moved by
the error. -/
def deadZone (pixelErr radPerPixel position setPoint : ℚ) : ℚ :=
  if pixelErr ≤ -50 ∨ pixelErr ≥ 50 then position + pixelErr * radPerPixel else setPoint

/-- The clip to the motor limits: a set point outside becomes the current position. -/
def clip (minRad maxRad position setPoint : ℚ) : ℚ :=
  if setPoint > maxRad then position else if setPoint < minRad then position else setPoint

/-- The branch of the loop for a valid center of mass. -/
def aim (comVal : COM) (l : LoopState) : Angles :=
  let pixelErrX := (WIDTH : ℚ) / 2 - comVal.comX
  let pixelErrY := (HEIGHT : ℚ) / 2 - comVal.comY
  { yaw := clip YAW_MIN_RAD YAW_MAX_RAD l.positionCurrent.yaw
      (deadZone pixelErrX YAW_RAD_PER_PIXEL l.positionCurrent.yaw l.setPoint.yaw)
    pitch := clip PITCH_MIN_RAD PITCH_MAX_RAD l.positionCurrent.pitch
      (deadZone pixelErrY PITCH_RAD_PER_PIXEL l.positionCurrent.pitch l.setPoint.pitch) }

/-- What one iteration brings in: the center of mass it dequeues, if any, and the position it reads
after the write of the PWM words. -/
structure Iteration where
  com : Option COM
  position : Angles
  deriving DecidableEq

/-- The iteration dequeues a valid center of mass. -/
def Iteration.Valid (i : Iteration) : Prop := ∃ comVal ∈ i.com, comVal.Valid

instance (i : Iteration) : Decidable i.Valid := by unfold Iteration.Valid; infer_instance

/-- The set points that the iteration passes to the submodels. -/
def passed (l : LoopState) (i : Iteration) : Angles :=
  match i.com with
  | some comVal => if comVal.Valid then aim comVal l else l.setPoint
  | none => l.setPoint

/-- The locals after the iteration. -/
def iterate (l : LoopState) (i : Iteration) : LoopState where
  setPoint := passed l i
  positionCurrent := i.position

/-- The set points that a run passes to the submodels, one pair for each iteration. -/
def setPoints : LoopState → List Iteration → List Angles
  | _, [] => []
  | l, i :: is => passed l i :: setPoints (iterate l i) is

/-- **The clip keeps the limits**, when the current position does. -/
lemma clip_mem {minRad maxRad position : ℚ} (h : position ∈ Set.Icc minRad maxRad) (setPoint : ℚ) :
    clip minRad maxRad position setPoint ∈ Set.Icc minRad maxRad := by
  unfold clip
  split_ifs with hmax hmin
  · exact h
  · exact h
  · exact ⟨not_lt.1 hmin, not_lt.1 hmax⟩

lemma aim_inLimits {l : LoopState} (h : l.positionCurrent.InLimits) (comVal : COM) :
    (aim comVal l).InLimits :=
  ⟨clip_mem h.yaw _, clip_mem h.pitch _⟩

lemma passed_of_valid {l : LoopState} {i : Iteration} (h : l.positionCurrent.InLimits)
    (hv : i.Valid) : (passed l i).InLimits := by
  obtain ⟨comVal, hcom, hval⟩ := hv
  have hpassed : passed l i = aim comVal l := by
    unfold passed
    rw [Option.mem_def.1 hcom]
    exact if_pos hval
  rw [hpassed]
  exact aim_inLimits h comVal

lemma passed_of_not_valid {l : LoopState} {i : Iteration} (hv : ¬ i.Valid) :
    passed l i = l.setPoint := by
  unfold passed
  split
  · next comVal hcom => rw [if_neg fun hval => hv ⟨comVal, hcom, hval⟩]
  · rfl

/-- **One iteration keeps the limits**, whatever it dequeues. -/
lemma passed_inLimits {l : LoopState} (h : l.positionCurrent.InLimits) (hs : l.setPoint.InLimits)
    (i : Iteration) : (passed l i).InLimits := by
  by_cases hv : i.Valid
  · exact passed_of_valid h hv
  · rwa [passed_of_not_valid hv]

theorem setPoints_inLimits {l : LoopState} {is : List Iteration} (h : l.positionCurrent.InLimits)
    (hs : l.setPoint.InLimits) (his : ∀ i ∈ is, i.position.InLimits) :
    ∀ a ∈ setPoints l is, a.InLimits := by
  induction is generalizing l with
  | nil => simp [setPoints]
  | cons i is ih =>
    intro a ha
    have hpassed := passed_inLimits h hs i
    rcases List.mem_cons.1 ha with rfl | ha
    · exact hpassed
    · refine ih (l := iterate l i) (his i List.mem_cons_self) hpassed ?_ a ha
      exact fun j hj => his j (List.mem_cons_of_mem _ hj)

/-- The set points the loop starts with are below the limit of the pitch motor. -/
lemma initial_not_inLimits (position : Angles) :
    ¬ (LoopState.initial position).setPoint.InLimits := by
  intro h
  have hmin : PITCH_MIN_RAD ≤ 0 := h.pitch.1
  norm_num [PITCH_MIN_RAD] at hmin

/-- The run makes no iteration, or its first iteration dequeues a valid center of mass. -/
def StartsAimed (is : List Iteration) : Prop := ∀ i ∈ is.head?, i.Valid

/-- **When the limits are kept**: over positions within the limits, every set point of a run from
the initialisation is within them exactly when the first iteration dequeues a valid center of
mass. -/
theorem setPoints_iff {position : Angles} {is : List Iteration} (h : position.InLimits)
    (his : ∀ i ∈ is, i.position.InLimits) :
    (∀ a ∈ setPoints (.initial position) is, a.InLimits) ↔ StartsAimed is := by
  cases is with
  | nil => simp [setPoints, StartsAimed]
  | cons i is =>
    have hhead : StartsAimed (i :: is) ↔ i.Valid := by simp [StartsAimed]
    rw [hhead]
    constructor
    · intro hall
      by_contra hv
      apply initial_not_inLimits position
      rw [← passed_of_not_valid hv]
      exact hall _ List.mem_cons_self
    · intro hv a ha
      have hpassed : (passed (.initial position) i).InLimits := passed_of_valid h hv
      rcases List.mem_cons.1 ha with rfl | ha
      · exact hpassed
      · refine setPoints_inLimits (l := iterate (.initial position) i) (his i List.mem_cons_self)
          hpassed ?_ a ha
        exact fun j hj => his j (List.mem_cons_of_mem _ hj)

/-- Both motors at the start of their ranges. -/
def atStops : Angles where
  yaw := YAW_MIN_RAD
  pitch := PITCH_MIN_RAD

lemma atStops_inLimits : atStops.InLimits := by
  refine ⟨⟨le_refl _, ?_⟩, ⟨le_refl _, ?_⟩⟩
  · norm_num [atStops, YAW_MIN_RAD, YAW_MAX_RAD]
  · norm_num [atStops, PITCH_MIN_RAD, PITCH_MAX_RAD]

/-- Four iterations: a center of mass in the middle of the frame, none, an invalid one, and one in a
corner. -/
def fourIterations : List Iteration :=
  [some ⟨320, 240⟩, none, some ⟨0, 0⟩, some ⟨639, 1⟩].map fun com => { com, position := atStops }

/-- The limits are kept in that run, and not if one iteration without a center of mass comes before
it. -/
theorem setPoints_iff_four :
    (∀ a ∈ setPoints (.initial atStops) fourIterations, a.InLimits) ∧
      ¬ ∀ a ∈ setPoints (.initial atStops) ({ com := none, position := atStops } :: fourIterations),
        a.InLimits := by
  have hpositions : ∀ i ∈ fourIterations, i.position.InLimits := by
    intro i hi
    obtain ⟨com, -, rfl⟩ := List.mem_map.1 hi
    exact atStops_inLimits
  refine ⟨(setPoints_iff atStops_inLimits hpositions).2 ?_, fun hall => ?_⟩
  · exact fun i hi => ⟨⟨320, 240⟩, by cases hi; rfl, by decide⟩
  · have hstarts := (setPoints_iff atStops_inLimits
      (List.forall_mem_cons.2 ⟨atStops_inLimits, hpositions⟩)).1 hall
    obtain ⟨comVal, hcom, -⟩ := hstarts _ rfl
    cases hcom

/-- With no center of mass in the first iteration, the pitch set point is zero. -/
theorem setPoint_below_limit :
    ¬ ∀ (position : Angles) (is : List Iteration), position.InLimits →
      (∀ i ∈ is, i.position.InLimits) → ∀ a ∈ setPoints (.initial position) is, a.InLimits := by
  intro h
  have hzero := h atStops [{ com := none, position := atStops }] atStops_inLimits
    (fun i hi => by rw [List.mem_singleton.1 hi]; exact atStops_inLimits)
    { yaw := 0, pitch := 0 } (by simp [setPoints, passed, LoopState.initial])
  exact initial_not_inLimits atStops hzero

/-! ### PWM words -/

/-- The value of a conversion from `double` to an integer type: the part before the point. -/
def truncate (x : ℚ) : ℤ := if 0 ≤ x then ⌊x⌋ else ⌈x⌉

/-- The conversion from `double` to `uint16_t`, undefined when the value does not fit. -/
def toUint16 (x : ℚ) : Option (BitVec 16) :=
  if 0 ≤ truncate x ∧ truncate x < 65536 then some (BitVec.ofInt 16 (truncate x)) else none

/-- The requested width for the output of a controller. -/
def requestedPwm (pwmMin pwmMax output : ℚ) : Option (BitVec 16) :=
  toUint16 (output * (if output ≤ 0 then pwmMin else pwmMax))

/-- The direction for the output of a controller. -/
def direction (output : ℚ) : ℤ := if output ≤ 0 then -1 else 1

/-- The PWM word of one axis. -/
def axisPwm (pwmMin pwmMax output : ℚ) : Option (BitVec 16) :=
  (requestedPwm pwmMin pwmMax output).map (getPwmValue (direction output))

/-- `yaw_pwm`, from `yaw_outputs[1]`. -/
def yawPwm (yawOutput : ℚ) : Option (BitVec 16) := axisPwm YAW_PWM_MIN YAW_PWM_MAX yawOutput

/-- `pitch_pwm`, from `pitch_outputs[0]`. -/
def pitchPwm (pitchOutput : ℚ) : Option (BitVec 16) :=
  axisPwm PITCH_PWM_MIN PITCH_PWM_MAX pitchOutput

/-- The sign of an output, as the word has it. -/
def signed (output : ℚ) (magnitude : ℕ) : ℤ :=
  if 0 < output then magnitude else -magnitude

lemma truncate_of_nonneg {x : ℚ} (h : 0 ≤ x) : truncate x = (⌊x⌋₊ : ℤ) := by
  rw [truncate, if_pos h]
  exact (Int.natCast_floor_eq_floor h).symm

lemma output_mul_bound (M : ℕ) (output : ℚ) :
    output * (if output ≤ 0 then -(M : ℚ) else M) = M * |output| := by
  split_ifs with h
  · rw [abs_of_nonpos h]
    ring
  · rw [abs_of_pos (not_le.1 h)]
    ring

lemma floor_le_bound {M : ℕ} {output : ℚ} (h : |output| ≤ 1) : ⌊M * |output|⌋₊ ≤ M := by
  apply Nat.floor_le_of_le
  have hM : (0 : ℚ) ≤ M := Nat.cast_nonneg M
  nlinarith

lemma requestedPwm_eq {M : ℕ} (hM : M < 65536) {output : ℚ} (h : |output| ≤ 1) :
    requestedPwm (-M) M output = some (BitVec.ofNat 16 ⌊M * |output|⌋₊) := by
  have hle := floor_le_bound (M := M) h
  have hnn : 0 ≤ (M : ℚ) * |output| := mul_nonneg (Nat.cast_nonneg M) (abs_nonneg output)
  rw [requestedPwm, output_mul_bound, toUint16, truncate_of_nonneg hnn, if_pos (by omega),
    BitVec.ofInt_natCast]

/-- **The word of an axis**: the midpoint, moved to the side of the output by its magnitude cut to
an integer. Nothing wraps as long as the bound fits below and above the midpoint. -/
theorem axisPwm_eq {M : ℕ} (hM : M ≤ PWM_MID_POINT) {output : ℚ} (h : |output| ≤ 1) :
    ∃ word, axisPwm (-M) M output = some word ∧
      (word.toNat : ℤ) = PWM_MID_POINT + signed output ⌊M * |output|⌋₊ ∧
      word.toNat ≤ 2 * PWM_MID_POINT := by
  unfold PWM_MID_POINT at hM ⊢
  have hle := floor_le_bound (M := M) h
  refine ⟨getPwmValue (direction output) (BitVec.ofNat 16 ⌊M * |output|⌋₊), ?_, ?_⟩
  · rw [axisPwm, requestedPwm_eq (by omega) h, Option.map_some]
  · generalize ⌊M * |output|⌋₊ = m at hle ⊢
    have hm : (BitVec.ofNat 16 m).toNat = m := by
      rw [BitVec.toNat_ofNat]
      omega
    rw [getPwmValue, PWM_MID_POINT, hm, BitVec.toNat_ofInt, signed, direction]
    by_cases hpos : output ≤ 0
    · rw [if_pos hpos, if_neg (not_lt.2 hpos)]
      omega
    · rw [if_neg hpos, if_pos (not_le.1 hpos)]
      omega

theorem yawPwm_eq {yawOutput : ℚ} (h : |yawOutput| ≤ 1) :
    ∃ word, yawPwm yawOutput = some word ∧
      (word.toNat : ℤ) = PWM_MID_POINT + signed yawOutput ⌊2048 * |yawOutput|⌋₊ ∧
      word.toNat ≤ 2 * PWM_MID_POINT := by
  have hmin : YAW_PWM_MIN = -((2048 : ℕ) : ℚ) := by norm_num [YAW_PWM_MIN]
  have hmax : YAW_PWM_MAX = ((2048 : ℕ) : ℚ) := by norm_num [YAW_PWM_MAX]
  rw [yawPwm, hmin, hmax]
  exact axisPwm_eq (by decide) h

theorem pitchPwm_eq {pitchOutput : ℚ} (h : |pitchOutput| ≤ 1) :
    ∃ word, pitchPwm pitchOutput = some word ∧
      (word.toNat : ℤ) = PWM_MID_POINT + signed pitchOutput ⌊512 * |pitchOutput|⌋₊ ∧
      word.toNat ≤ 2 * PWM_MID_POINT := by
  have hmin : PITCH_PWM_MIN = -((512 : ℕ) : ℚ) := by norm_num [PITCH_PWM_MIN]
  have hmax : PITCH_PWM_MAX = ((512 : ℕ) : ℚ) := by norm_num [PITCH_PWM_MAX]
  rw [pitchPwm, hmin, hmax]
  exact axisPwm_eq (by decide) h

end PanTilt.App
