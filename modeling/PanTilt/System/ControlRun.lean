import PanTilt.App.ControlThread
import PanTilt.System.Angle
import PanTilt.System.MotorDrive

/-!
Runs of the control thread, down to the pins of the motors.

Whatever centers of mass come in and whatever counts the FPGA answers, every word of a run encodes
the limited output of its controller, and so no motor is ever driven at more than 2027, or 506, of
the 2048 clocks of a pulse period (`control_run_drives`).

`without_target` is what the two controllers do as long as no valid center of mass comes: the set
points are still those the thread starts with, and a pitch motor at its stop is driven against it.
-/

namespace PanTilt.System

open App App.ControlThread App.Submodel Fpga Lib Lib.Clocked

lemma output_mem_limited (s : Pid.State ℚ) : output s ∈ limited :=
  Pid.limit_mem (by norm_num) s.output

lemma steps_output_le {M N : ℕ} (h : (M : ℚ) * 0.99 < N + 1) (s : Pid.State ℚ) :
    steps M (output s) ≤ N := by
  have hle : (M : ℚ) * |output s| ≤ M * 0.99 :=
    mul_le_mul_of_nonneg_left (abs_output_le s) M.cast_nonneg
  have hlt : (M : ℚ) * |output s| < ((N + 1 : ℕ) : ℚ) := by
    push_cast
    exact hle.trans_lt h
  exact Nat.le_of_lt_succ ((Nat.floor_lt (by positivity)).2 hlt)

/-- **Every run of the control thread drives the motors within their limits.** After every iteration
the words encode the limited outputs of the two controllers, and a generator that holds a word
drives its motor as the output asks, for at most 2027 or 506 of any 2048 clocks. -/
theorem control_run_drives (pl : Platform) (answer : ℕ → BitVec 32) (th : ControlThread)
    (coms : List (Option COM)) (com : Option COM) :
    ∃ th', ControlThread.run pl answer th (coms ++ [com]) = some th' ∧
      Encodes 2048 (output th'.yaw.R) th'.yawPwm ∧
      Encodes 512 (output th'.pitch.R) th'.pitchPwm ∧
      ∀ s, Reachable (PwmGenerator.step MAX_COUNT) (PwmGenerator.reset MAX_COUNT) s →
        ∀ n, 3 ≤ n →
          Drives 2048 (output th'.yaw.R) th'.yawPwm s n ∧
          Drives 512 (output th'.pitch.R) th'.pitchPwm s n ∧
          ((Finset.Ico n (n + 2048)).filter fun m =>
            (s.hold MAX_COUNT th'.yawPwm m).pwmOut).card ≤ 2027 ∧
          ((Finset.Ico n (n + 2048)).filter fun m =>
            (s.hold MAX_COUNT th'.pitchPwm m).pwmOut).card ≤ 506 := by
  obtain ⟨_, _, _, th', -, -, hrun, hspec⟩ := run_concat pl answer th coms com
  obtain ⟨word, hword, hyaw⟩ := exists_yawPwm (output_mem_limited th'.yaw.R)
  obtain ⟨word', hword', hpitch⟩ := exists_pitchPwm (output_mem_limited th'.pitch.R)
  obtain rfl : word = th'.yawPwm := Option.some_injective _ (hword.symm.trans hspec.yawPwm)
  obtain rfl : word' = th'.pitchPwm := Option.some_injective _ (hword'.symm.trans hspec.pitchPwm)
  refine ⟨th', hrun, hyaw, hpitch, fun s hs n hn => ?_⟩
  have hdrive := drives_of_encodes hyaw hs hn
  have hdrive' := drives_of_encodes hpitch hs hn
  refine ⟨hdrive, hdrive', ?_, ?_⟩
  · rw [hdrive.pulses]
    exact steps_output_le (by norm_num) _
  · rw [hdrive'.pulses]
    exact steps_output_le (by norm_num) _

/-! ### Without a target -/

/-- No center of mass of the list is valid. -/
def NoTarget (coms : List (Option COM)) : Prop := ∀ com ∈ coms, ∀ comVal ∈ com, ¬ comVal.Valid

/-- The set points of the locals when the thread starts. -/
def Started (th : ControlThread) : Prop := th.loop.setPoint = { yaw := 0, pitch := 0 }

/-- The pitch motor stays where its begin stop was captured. -/
def AtBeginStop (pitch : ℕ → BitVec 16) (th : ControlThread) : Prop :=
  ∀ k, pitch k = th.cpu.settings.pitch .beginStop

lemma pitch_position {pitch : ℕ → BitVec 16} (yaw : ℕ → BitVec 16) (pl : Platform) (c : Cpu)
    (p y : BitVec 16) (h : ∀ k, pitch k = c.settings.pitch .beginStop) :
    (exec pl (answers pitch yaw) c (.readWrite p y .current)).position.pitch = PITCH_MIN_RAD ∧
      ∀ k, pitch k =
        (exec pl (answers pitch yaw) c (.readWrite p y .current)).settings.pitch .beginStop := by
  have hbegin : ∀ k, pitch k = (c.settings.capture pitch yaw .current c.transfers).pitch
      .beginStop := fun k => by simp [Settings.capture, h k]
  have hcurrent : (c.settings.capture pitch yaw .current c.transfers).pitch .current =
      (c.settings.capture pitch yaw .current c.transfers).pitch .beginStop := by
    rw [← hbegin c.transfers]
    simp [Settings.capture]
  rw [exec_readWrite]
  refine ⟨?_, hbegin⟩
  simp only [Cpu.position, getRadFromEncoder, radFromCounts, hcurrent]
  simp

/-- The error of a pitch motor at its begin stop, with the set point the thread starts with. -/
def stopError : ℚ := 0 - PITCH_MIN_RAD

/-- What holds after `n` iterations without a target, of a pitch motor at its begin stop. -/
structure Waiting (pitch : ℕ → BitVec 16) (n : ℕ) (th : ControlThread) : Prop where
  yawState : ∃ s, Holds Submodel.yaw s th.yaw
  pitchState : Holds Submodel.pitch
    (Pid.after pitchParameters.pid .rest (fun _ => stopError) n) th.pitch
  setPoint : th.loop.setPoint.pitch = 0
  position : th.loop.positionCurrent.pitch = PITCH_MIN_RAD
  stop : AtBeginStop pitch th

section WithoutTarget

variable {pitch : ℕ → BitVec 16} (yaw : ℕ → BitVec 16) (pl : Platform)

lemma waiting_activate {th : ControlThread} (hstart : Started th) (hstop : AtBeginStop pitch th) :
    Waiting pitch 0 (activate pl (answers pitch yaw) th) := by
  obtain ⟨hstate, hset, hposition, hcpu⟩ := activate_spec pl (answers pitch yaw) th
  obtain ⟨hpitch, hbegin⟩ := pitch_position yaw pl th.cpu th.pitchPwm th.yawPwm hstop
  rw [← hcpu] at hpitch hbegin
  refine ⟨⟨_, hstate.yaw⟩, hstate.pitch, ?_, ?_, hbegin⟩
  · rw [hset, hstart]
  · rw [hposition, hpitch]

/-- **An iteration without a target** adds one step under the same error. -/
theorem Waiting.iterate {n : ℕ} {th : ControlThread} (h : Waiting pitch n th) {com : Option COM}
    (hcom : ∀ comVal ∈ com, ¬ comVal.Valid) :
    ∃ th', ControlThread.iterate pl (answers pitch yaw) th com = some th' ∧
      Waiting pitch (n + 1) th' ∧ App.pitchPwm (output th'.pitch.R) = some th'.pitchPwm := by
  obtain ⟨s, hyaw⟩ := h.yawState
  obtain ⟨th', hiter, hspec⟩ := iterate_spec pl (answers pitch yaw) ⟨hyaw, h.pitchState⟩ com
  have hset : th'.loop.setPoint = th.loop.setPoint := by
    rw [hspec.loop]
    exact passed_of_not_valid fun ⟨comVal, hmem, hvalid⟩ => hcom comVal hmem hvalid
  obtain ⟨hposition, hbegin⟩ :=
    pitch_position yaw pl th.cpu th'.pitchPwm th'.yawPwm h.stop
  rw [← hspec.cpu] at hposition hbegin
  refine ⟨th', hiter, ⟨⟨_, hspec.states.yaw⟩, ?_, ?_, ?_, hbegin⟩, hspec.pitchPwm⟩
  · have hpitch := hspec.states.pitch
    rw [hset, h.setPoint, h.position] at hpitch
    exact hpitch
  · rw [hset, h.setPoint]
  · rw [hspec.loop]
    exact hposition

theorem waiting_run {th : ControlThread} (hstart : Started th) (hstop : AtBeginStop pitch th)
    {coms : List (Option COM)} (hcoms : NoTarget coms) :
    ∃ th', ControlThread.run pl (answers pitch yaw) th coms = some th' ∧
      Waiting pitch coms.length th' ∧
      (coms ≠ [] → App.pitchPwm (output th'.pitch.R) = some th'.pitchPwm) := by
  induction coms using List.reverseRecOn with
  | nil => exact ⟨_, rfl, waiting_activate yaw pl hstart hstop, fun h => absurd rfl h⟩
  | append_singleton coms com ih =>
    obtain ⟨th₀, hrun, hwait, -⟩ := ih fun c hc => hcoms c (List.mem_append_left _ hc)
    obtain ⟨th', hiter, hwait', hword⟩ := hwait.iterate yaw pl
      (hcoms com (List.mem_append_right _ (List.mem_singleton_self com)))
    refine ⟨th', ?_, ?_, fun _ => hword⟩
    · rw [ControlThread.run, List.foldlM_append]
      rw [ControlThread.run] at hrun
      rw [hrun]
      simpa using hiter
    · rwa [List.length_append, List.length_singleton]

lemma pitchPwm_full : App.pitchPwm (-0.99) = some 1542 := by
  have hle : ((-0.99 : ℚ)) ≤ 0 := by norm_num
  have hfloor : ⌊(-0.99 : ℚ) * -512⌋ = 506 := by
    rw [Int.floor_eq_iff]
    norm_num
  have hmin : PITCH_PWM_MIN = -512 := by norm_num [PITCH_PWM_MIN]
  have htruncate : truncate ((-0.99 : ℚ) * -512) = 506 := by
    rw [truncate, if_pos (by norm_num), hfloor]
  rw [App.pitchPwm, axisPwm, requestedPwm, if_pos hle, hmin, toUint16, htruncate, direction,
    if_pos hle]
  decide

/-- The controller of the pitch axis is at its limit in the first step at the stop, and again from
step 1432 on. -/
lemma output_stop {n : ℕ} (hn : n = 0 ∨ 1431 ≤ n) :
    output (Pid.after pitchParameters.pid .rest (fun _ => stopError) (n + 1)) = -0.99 := by
  have hkp : pitchParameters.pid.kp = 1.6 := rfl
  have htime : pitchParameters.pid.sampletime / pitchParameters.pid.tauI = 1 / 1050 := by
    norm_num [Parameters.pid, pitchParameters, stepSize]
  have hstop : stopError = -0.2617993878 := by norm_num [stopError, PITCH_MIN_RAD]
  apply Pid.limit_of_le (by norm_num)
  rw [Pid.output_const pitch_regular, hkp, hstop]
  have hresponse : 2.3638 ≤ pitchParameters.pid.response n := by
    rcases hn with rfl | hn
    · norm_num [Pid.Params.response, Pid.Params.kick, Pid.Params.ratio, Parameters.pid,
        pitchParameters, stepSize]
    · have hle := Pid.le_response pitch_regular n
      have hcast : (1431 : ℚ) ≤ n := by exact_mod_cast hn
      rw [htime] at hle
      linarith
  linarith

/-- **Without a target the pitch motor is driven against its stop.** As long as the thread has had
no valid center of mass and the pitch motor stays at its begin stop, the first word of the run is
full reverse, and so is every word from iteration 1432 on. -/
theorem without_target {th : ControlThread} (hstart : Started th) (hstop : AtBeginStop pitch th)
    {coms : List (Option COM)} (hcoms : NoTarget coms)
    (hn : coms.length = 1 ∨ 1432 ≤ coms.length) :
    ∃ th', ControlThread.run pl (answers pitch yaw) th coms = some th' ∧ th'.pitchPwm = 1542 := by
  obtain ⟨n, hlength⟩ : ∃ n, coms.length = n + 1 := ⟨coms.length - 1, by omega⟩
  obtain ⟨th', hrun, hwait, hword⟩ := waiting_run yaw pl hstart hstop hcoms
  have hword := hword (List.ne_nil_of_length_eq_add_one hlength)
  rw [hwait.pitchState.state, hlength, output_stop (by omega), pitchPwm_full] at hword
  exact ⟨th', hrun, (Option.some_injective _ hword).symm⟩

end WithoutTarget

/-- A thread that starts on the settings of `homing_sequence`. -/
def homedThread (pl : Platform) (answer : ℕ → BitVec 32) : ControlThread :=
  start (execAll pl answer noTransfer homingSequence) 0 0 0 0

/-- That thread, with a pitch motor that stays at its stop and a yaw motor that moves, dequeues
nothing in its first iteration, or in two thousand. -/
theorem without_target_homed :
    let answer := answers (fun _ => 31000) (BitVec.ofNat 16)
    let th := homedThread .rpi answer
    (∃ th', ControlThread.run .rpi answer th [none] = some th' ∧ th'.pitchPwm = 1542) ∧
      ∃ th', ControlThread.run .rpi answer th (List.replicate 2000 none) = some th' ∧
        th'.pitchPwm = 1542 := by
  intro answer th
  have hstart : Started th := by
    simp only [th, homedThread, Started, start]
    rfl
  have hstop : AtBeginStop (fun _ => 31000) th := by
    intro k
    simp only [th, homedThread, start, answer, execAll_homingSequence]
    rfl
  have hnone : ∀ n, NoTarget (List.replicate n none) := by
    intro n com hcom
    rw [List.eq_of_mem_replicate hcom]
    exact nofun
  have hlong : 1432 ≤ (List.replicate 2000 (none : Option COM)).length := by
    rw [List.length_replicate]
    decide
  exact ⟨without_target _ .rpi hstart hstop (hnone 1) (.inl rfl),
    without_target _ .rpi hstart hstop (hnone 2000) (.inr hlong)⟩

end PanTilt.System
