import PanTilt.System.ControlRun
import PanTilt.System.Session

/-!
The control loop closed through either design.

`Loop` is what the program is for, in terms of the motors alone: set points from centers of mass,
and two PID controllers on the angles at which the motors are. The control thread runs as this loop
(`follows_run`), when its positions come from encoders that were homed, through transfers of one
clock each; and the pins are driven by the limited outputs of the loop as long as the words of its
iteration stand.

`session_controls` and `bus_session_controls` are this for the two designs, from the counts on the
pins of the encoders to the pins of the motors.
-/

namespace PanTilt.System

open App App.ControlThread App.Submodel Fpga Lib Lib.Interpolate Lib.Quadrature Lib.Spi

/-! ### The loop on angles -/

/-- The control loop in terms of the angles of the motors: its set points and last angles, and the
states of its two controllers. -/
structure Loop where
  locals : LoopState
  yaw : Pid.State ℚ
  pitch : Pid.State ℚ

namespace Loop

/-- A wake-up at the angles `a`. -/
def wake (setPoint a : Angles) : Loop where
  locals := { setPoint, positionCurrent := a }
  yaw := .rest
  pitch := .rest

/-- One iteration: both controllers are stepped with the distances of the last angles from the set
points, and after it the motors are at the angles `a`. -/
def step (l : Loop) (com : Option COM) (a : Angles) : Loop :=
  let locals := App.iterate l.locals { com, position := a }
  { locals
    yaw := Pid.step yawParameters.pid l.yaw
      (locals.setPoint.yaw - l.locals.positionCurrent.yaw)
    pitch := Pid.step pitchParameters.pid l.pitch
      (locals.setPoint.pitch - l.locals.positionCurrent.pitch) }

/-- The loop after `n` iterations, when the motors are at the angles `a k` after `k` of them. -/
def run (setPoint : Angles) (a : ℕ → Angles) (com : ℕ → Option COM) : ℕ → Loop
  | 0 => wake setPoint (a 0)
  | n + 1 => (run setPoint a com n).step (com n) (a (n + 1))

end Loop

/-- The angle of an axis at clock `n`, on the scale of the stops captured at clocks `b` and `e`. -/
def angle (minRad maxRad : ℚ) (m : Motion) (b e n : ℕ) : ℚ :=
  if m.displacement b = m.displacement e then minRad
  else interpolate minRad maxRad (m.displacement b : ℚ) (m.displacement e) (m.displacement n)

/-- The angles of both axes. -/
def angles (pitch yaw : Motion) (b e n : ℕ) : Angles where
  yaw := angle YAW_MIN_RAD YAW_MAX_RAD yaw b e n
  pitch := angle PITCH_MIN_RAD PITCH_MAX_RAD pitch b e n

/-! ### Homed settings -/

/-- The stops of one axis are the counts of clocks `b` and `e`. -/
structure AtStops (m : Motion) (b e : ℕ) (settings : Slot → BitVec 16) : Prop where
  beginStop : settings .beginStop = m.count b
  endStop : settings .endStop = m.count e

lemma AtStops.update {m : Motion} {b e : ℕ} {settings : Slot → BitVec 16}
    (h : AtStops m b e settings) (v : BitVec 16) :
    AtStops m b e (Function.update settings .current v) := by
  refine ⟨?_, ?_⟩
  · rw [Function.update_of_ne (by decide)]
    exact h.beginStop
  · rw [Function.update_of_ne (by decide)]
    exact h.endStop

theorem AtStops.radFromCounts {m : Motion} {b e n : ℕ} {settings : Slot → BitVec 16}
    (h : AtStops m b e settings) (hn : settings .current = m.count n) (minRad maxRad : ℚ) :
    radFromCounts minRad maxRad settings = angle minRad maxRad m b e n := by
  rw [angle]
  split_ifs with heq
  · have hcount : m.count b = m.count e := by
      have hb := m.count_eq b
      have he := m.count_eq e
      exact BitVec.eq_of_toNat_eq (by omega)
    rw [App.radFromCounts, h.beginStop, h.endStop, if_pos hcount]
  · exact m.radFromCounts_eq minRad maxRad settings h.beginStop h.endStop hn heq

/-- The settings of a program that has homed both motors. -/
structure Homed (pitch yaw : Motion) (b e : ℕ) (s : Settings) : Prop where
  pitch : AtStops pitch b e s.pitch
  yaw : AtStops yaw b e s.yaw

section Thread

variable (pl : Platform) (pitch yaw : Motion) (clock : ℕ → ℕ)

/-- The answers of an FPGA whose transfer number `k` reads the counts of clock `clock k`. -/
def answersAt (k : ℕ) : BitVec 32 := pitch.count (clock k) ++ yaw.count (clock k)

variable {pitch yaw} in
/-- **A transfer of the control loop reads the angles of its clock**, and keeps the stops. -/
theorem Homed.readWrite {b e : ℕ} {c : Cpu} (h : Homed pitch yaw b e c.settings)
    (p y : BitVec 16) :
    let c' := exec pl (answersAt pitch yaw clock) c (.readWrite p y .current)
    Homed pitch yaw b e c'.settings ∧ c'.position = angles pitch yaw b e (clock c.transfers) ∧
      c'.transfers = c.transfers + 1 := by
  intro c'
  have hc' : c' = Cpu.mk (c.settings.capture (fun k => pitch.count (clock k))
      (fun k => yaw.count (clock k)) .current c.transfers) (c.transfers + 1) :=
    exec_readWrite pl (fun k => pitch.count (clock k)) (fun k => yaw.count (clock k)) c p y .current
  have hhomed : Homed pitch yaw b e c'.settings := by
    rw [hc']
    exact ⟨h.pitch.update _, h.yaw.update _⟩
  have hpitch : c'.settings.pitch .current = pitch.count (clock c.transfers) := by
    simp only [hc', Settings.capture, Function.update_self]
  have hyaw : c'.settings.yaw .current = yaw.count (clock c.transfers) := by
    simp only [hc', Settings.capture, Function.update_self]
  refine ⟨hhomed, ?_, by rw [hc']⟩
  rw [Cpu.position, getRadFromEncoder, angles, hhomed.pitch.radFromCounts hpitch,
    hhomed.yaw.radFromCounts hyaw]

/-- **`homing_sequence` homes**, and the transfers of the control loop after it keep the stops. -/
theorem homed_of_homing (c : Cpu) {ops : List HwOp} (hops : Into .current ops) :
    Homed pitch yaw (beginClock clock c) (endClock clock c)
      (execAll pl (answersAt pitch yaw clock) c (homingSequence ++ ops)).settings := by
  induction ops using List.reverseRecOn with
  | nil =>
    have hhoming := execAll_homingSequence pl (fun k => pitch.count (clock k))
      (fun k => yaw.count (clock k)) c
    rw [List.append_nil]
    refine ⟨⟨?_, ?_⟩, ⟨?_, ?_⟩⟩ <;>
    · rw [show answersAt pitch yaw clock = answers _ _ from rfl, hhoming]
      rfl
  | append_singleton ops op ih =>
    obtain ⟨p, y, rfl⟩ := hops op (List.mem_append_right _ (List.mem_singleton_self op))
    have hhomed := ih fun o ho => hops o (List.mem_append_left _ ho)
    rw [← List.append_assoc, execAll_append]
    exact (hhomed.readWrite pl clock p y).1

/-! ### The thread runs as the loop -/

/-- The thread is where the loop is. -/
structure Follows (l : Loop) (th : ControlThread) : Prop where
  locals : th.loop = l.locals
  states : InState l.yaw l.pitch th

/-- The words of a thread encode the limited outputs of the loop. -/
structure Sends (l : Loop) (th : ControlThread) : Prop where
  yaw : Encodes 2048 (output l.yaw) th.yawPwm
  pitch : Encodes 512 (output l.pitch) th.pitchPwm

/-- The runs `th' n` of a thread follow the loop `l n`. -/
structure RunsAs (answer : ℕ → BitVec 32) (th : ControlThread) (com : ℕ → Option COM)
    (l : ℕ → Loop) (th' : ℕ → ControlThread) : Prop where
  run : ∀ n, ControlThread.run pl answer th ((List.range n).map com) = some (th' n)
  follows : ∀ n, Follows (l n) (th' n)
  sends : ∀ n, 0 < n → Sends (l n) (th' n)

variable {pitch yaw}

theorem follows_activate {b e : ℕ} {th : ControlThread}
    (h : Homed pitch yaw b e th.cpu.settings) :
    let th' := activate pl (answersAt pitch yaw clock) th
    Follows (Loop.wake th.loop.setPoint (angles pitch yaw b e (clock th.cpu.transfers))) th' ∧
      Homed pitch yaw b e th'.cpu.settings ∧ th'.cpu.transfers = th.cpu.transfers + 1 := by
  intro th'
  obtain ⟨hstate, hset, hposition, hcpu⟩ := activate_spec pl (answersAt pitch yaw clock) th
  obtain ⟨hhomed, hangles, htransfers⟩ := h.readWrite pl clock th.pitchPwm th.yawPwm
  rw [← hcpu] at hhomed hangles htransfers
  refine ⟨⟨?_, hstate⟩, hhomed, htransfers⟩
  show LoopState.mk th'.loop.setPoint th'.loop.positionCurrent = _
  rw [hset, hposition, hangles]
  rfl

theorem Follows.iterate {l : Loop} {th : ControlThread} (hfollows : Follows l th) {b e : ℕ}
    (h : Homed pitch yaw b e th.cpu.settings) (com : Option COM) :
    ∃ th', ControlThread.iterate pl (answersAt pitch yaw clock) th com = some th' ∧
      Follows (l.step com (angles pitch yaw b e (clock th.cpu.transfers))) th' ∧
      Sends (l.step com (angles pitch yaw b e (clock th.cpu.transfers))) th' ∧
      Homed pitch yaw b e th'.cpu.settings ∧ th'.cpu.transfers = th.cpu.transfers + 1 := by
  obtain ⟨th', hiter, hspec⟩ := iterate_spec pl (answersAt pitch yaw clock) hfollows.states com
  obtain ⟨hhomed, hangles, htransfers⟩ := h.readWrite pl clock th'.pitchPwm th'.yawPwm
  rw [← hspec.cpu] at hhomed hangles htransfers
  have hlocals :
      th'.loop = (l.step com (angles pitch yaw b e (clock th.cpu.transfers))).locals := by
    rw [hspec.loop, hangles, hfollows.locals]
    rfl
  have hstates := hspec.states
  rw [hlocals, hfollows.locals] at hstates
  obtain ⟨word, hword, hyaw⟩ := exists_yawPwm (output_mem_limited th'.yaw.R)
  obtain ⟨word', hword', hpitch⟩ := exists_pitchPwm (output_mem_limited th'.pitch.R)
  obtain rfl : word = th'.yawPwm := Option.some_injective _ (hword.symm.trans hspec.yawPwm)
  obtain rfl : word' = th'.pitchPwm := Option.some_injective _ (hword'.symm.trans hspec.pitchPwm)
  refine ⟨th', hiter, ⟨hlocals, hstates⟩, ⟨?_, ?_⟩, hhomed, htransfers⟩
  · rw [hstates.yaw.state] at hyaw
    exact hyaw
  · rw [hstates.pitch.state] at hpitch
    exact hpitch

theorem follows_run {b e : ℕ} {th : ControlThread} (h : Homed pitch yaw b e th.cpu.settings)
    (com : ℕ → Option COM) :
    ∃ th', RunsAs pl (answersAt pitch yaw clock) th com
      (Loop.run th.loop.setPoint
        (fun k => angles pitch yaw b e (clock (th.cpu.transfers + k))) com) th' := by
  set l := Loop.run th.loop.setPoint
    (fun k => angles pitch yaw b e (clock (th.cpu.transfers + k))) com with hl
  have hall : ∀ n, ∃ th',
      ControlThread.run pl (answersAt pitch yaw clock) th ((List.range n).map com) = some th' ∧
        Follows (l n) th' ∧ (0 < n → Sends (l n) th') ∧ Homed pitch yaw b e th'.cpu.settings ∧
        th'.cpu.transfers = th.cpu.transfers + n + 1 := by
    intro n
    induction n with
    | zero =>
      obtain ⟨hfollows, hhomed, htransfers⟩ := follows_activate pl clock h
      exact ⟨_, rfl, hfollows, fun h => absurd h (lt_irrefl 0), hhomed, htransfers⟩
    | succ n ih =>
      obtain ⟨th₀, hrun, hfollows, -, hhomed, htransfers⟩ := ih
      obtain ⟨th', hiter, hfollows', hsends, hhomed', htransfers'⟩ :=
        hfollows.iterate pl clock hhomed (com n)
      rw [htransfers, Nat.add_assoc] at hfollows' hsends htransfers'
      refine ⟨th', ?_, hfollows', fun _ => hsends, hhomed', htransfers'⟩
      rw [ControlThread.run] at hrun ⊢
      rw [List.range_succ, List.map_append, List.foldlM_append, hrun]
      simpa using hiter
  choose th' hrun hfollows hsends _ _ using hall
  exact ⟨th', hrun, hfollows, hsends⟩

/-- The loop on the angles at which the motors are read, after `homing_sequence` has started from
`c`. -/
def homedLoop (pitch yaw : Motion) (clock : ℕ → ℕ) (c : Cpu) (th : ControlThread)
    (com : ℕ → Option COM) : ℕ → Loop :=
  Loop.run th.loop.setPoint (fun k => angles pitch yaw (beginClock clock c) (endClock clock c)
    (clock (th.cpu.transfers + k))) com

end Thread

/-- **A device closes the loop**: with its answers the thread runs as the loop. -/
theorem Device.runsAs (pl : Platform) {pitch yaw : Motion} {pair : ℕ → BitVec 16 × BitVec 16}
    {received : ℕ → BitVec 32} {axes : ℕ → Axes}
    (D : Device pitch.level yaw.level pair received axes) {c : Cpu} {ops : List HwOp}
    (hops : Into .current ops) {th : ControlThread}
    (hth : th.cpu = execAll pl received c (homingSequence ++ ops)) (com : ℕ → Option COM) :
    ∃ th', RunsAs pl received th com (homedLoop pitch yaw D.clock c th com) th' := by
  have hreceived : received = answersAt pitch yaw D.clock := funext D.answer
  have hhomed := homed_of_homing pl pitch yaw D.clock c hops
  rw [← hreceived, ← hth] at hhomed
  obtain ⟨th', hruns⟩ := follows_run pl D.clock hhomed com
  rw [← hreceived] at hruns
  exact ⟨th', hruns⟩

lemma Sends.driven {l : Loop} {th : ControlThread} (h : Sends l th) {axes : ℕ → Axes} {n : ℕ}
    (hdriven : DrivenBy (th.pitchPwm, th.yawPwm) axes n) :
    Driven 2048 (output l.yaw) (fun m => (axes m).yawPwmGenerator) n ∧
      Driven 512 (output l.pitch) (fun m => (axes m).pitchPwmGenerator) n :=
  hdriven _ _ h.yaw h.pitch

/-- **The Raspberry Pi closes the loop.** After `homing_sequence` and any transfers of the control
loop, whatever motions the motors make without a wrap and whatever centers of mass come in, the
thread runs as the loop on the angles of the motors, read at one clock of each window. From the
third clock after the window of an iteration on both motors are driven by the limited outputs of the
loop, for as long as no other window starts. -/
theorem session_controls {v : Wires ℝ} (S : Session v) {pitch yaw : Motion} {poci : ℕ → ℕ → Bool}
    (h : S.Polls pitch.level yaw.level poci) :
    ∃ clock : ℕ → ℕ, StrictMono clock ∧
      (∀ j, S.start j + (S.window j).fall 0 + 1 ≤ clock j ∧
        clock j < S.start j + (S.window j).rise 0) ∧
      ∀ (c : Cpu) (ops : List HwOp) (th : ControlThread) (com : ℕ → Option COM),
        Into .current ops →
        th.cpu = execAll .rpi (Session.wordRead poci) c (homingSequence ++ ops) →
        let l := homedLoop pitch yaw clock c th com
        let axes := fun m => (TopEntity.run v.sampled pitch.level yaw.level m).axes
        ∃ th', RunsAs .rpi (Session.wordRead poci) th com l th' ∧
          ∀ k n : ℕ, 0 < k →
            S.pair (th.cpu.transfers + k) = ((th' k).pitchPwm, (th' k).yawPwm) →
            S.start (th.cpu.transfers + k) + (S.window (th.cpu.transfers + k)).csRise + 3 ≤ n →
            n + 2046 ≤ S.start (th.cpu.transfers + k + 1) +
              (S.window (th.cpu.transfers + k + 1)).fall 0 →
            Driven 2048 (output (l k).yaw) (fun m => (axes m).yawPwmGenerator) n ∧
              Driven 512 (output (l k).pitch) (fun m => (axes m).pitchPwmGenerator) n := by
  obtain ⟨D, hclock, hdrives⟩ := S.device_drives h
  refine ⟨D.clock, D.mono, hclock, fun c ops th com hops hth => ?_⟩
  obtain ⟨th', hruns⟩ := D.runsAs .rpi hops hth com
  refine ⟨th', hruns, fun k n hk hpair hlo hhi => (hruns.sends k hk).driven ?_⟩
  rw [← hpair]
  exact hdrives _ n hlo hhi

/-- **The DE10 closes the loop**, in the same way: the angles are those of the clock of the read,
and the motors are driven from the third clock after the write of an iteration on, until the next
write. -/
theorem bus_session_controls {cycle : ℕ → MemInterface.Cycle} (S : BusSession cycle)
    (m₀ : MemInterface) (pitch yaw : Motion) {c : Cpu} {ops : List HwOp} (hops : Into .current ops)
    {th : ControlThread}
    (hth : th.cpu =
      execAll .de10 (S.wordRead m₀ pitch.level yaw.level) c (homingSequence ++ ops))
    (com : ℕ → Option COM) :
    let l := homedLoop pitch yaw S.read c th com
    let axes := fun m => (De10NanoSoc.run m₀ cycle pitch.level yaw.level m).axes
    ∃ th', RunsAs .de10 (S.wordRead m₀ pitch.level yaw.level) th com l th' ∧
      ∀ k n, 0 < k →
        S.pair (th.cpu.transfers + k) = ((th' k).pitchPwm, (th' k).yawPwm) →
        S.write (th.cpu.transfers + k) + 4 ≤ n → n + 2046 ≤ S.write (th.cpu.transfers + k + 1) →
        Driven 2048 (output (l k).yaw) (fun m => (axes m).yawPwmGenerator) n ∧
          Driven 512 (output (l k).pitch) (fun m => (axes m).pitchPwmGenerator) n := by
  let D := S.device m₀ pitch.level yaw.level
  obtain ⟨th', hruns⟩ := D.runsAs .de10 hops hth com
  refine ⟨th', hruns, fun k n hk hpair hlo hhi => (hruns.sends k hk).driven ?_⟩
  rw [← hpair]
  refine D.driven ?_ ?_
  · show S.write (th.cpu.transfers + k) + 1 + 3 ≤ n
    omega
  · show n + 2047 ≤ S.write (th.cpu.transfers + k + 1) + 1
    omega

/-! ### The first iteration after `homing_sequence` -/

lemma angle_moveAt (minRad maxRad : ℚ) {N : ℕ} (hN : 0 < N) {l : Level}
    (h : Adjacent (false, false) l) (hl : move (false, false) l ≠ 0) {b e n : ℕ} (hb : b < N + 3)
    (he : N + 3 ≤ e) (hn : N + 3 ≤ n) : angle minRad maxRad (moveAt N hN l h) b e n = maxRad := by
  have hdisplacement : ∀ n, (moveAt N hN l h).displacement n =
      if n < N + 3 then 0 else move (false, false) l := displacement_moveLevel hN l
  have hcast : ((move (false, false) l : ℤ) : ℚ) ≠ 0 := Int.cast_ne_zero.2 hl
  rw [angle, hdisplacement b, hdisplacement e, hdisplacement n, if_pos hb,
    if_neg (not_lt.2 he), if_neg (not_lt.2 hn), if_neg hl.symm, interpolate, Int.cast_zero,
    sub_zero, div_self hcast]
  ring

lemma Encodes.unique {M : ℕ} {u : ℚ} {word word' : BitVec 16} (h : Encodes M u word)
    (h' : Encodes M u word') : word = word' :=
  BitVec.eq_of_toNat_eq (Int.ofNat_inj.1 (h.value.trans h'.value.symm))

lemma encodes_yaw_full : Encodes 2048 (-0.99) 21 := by
  have hsteps : steps 2048 (-0.99) = 2027 := by norm_num [steps, abs_of_neg, Nat.floor_eq_iff]
  exact ⟨by rw [hsteps]; norm_num [signed, PWM_MID_POINT]; rfl, by decide⟩

lemma encodes_pitch_full : Encodes 512 (-0.99) 1542 := by
  have hsteps : steps 512 (-0.99) = 506 := by norm_num [steps, abs_of_neg, Nat.floor_eq_iff]
  exact ⟨by rw [hsteps]; norm_num [signed, PWM_MID_POINT]; rfl, by decide⟩

/-- At the end stops, with the set points the thread starts with, both controllers are at their
limit in the first step. -/
lemma output_endStops :
    output (Pid.step yawParameters.pid .rest (0 - YAW_MAX_RAD)) = -0.99 ∧
      output (Pid.step pitchParameters.pid .rest (0 - PITCH_MAX_RAD)) = -0.99 := by
  refine ⟨Pid.limit_of_le (by norm_num) ?_, Pid.limit_of_le (by norm_num) ?_⟩
  · norm_num [Pid.step, Pid.State.rest, Pid.State.output, Pid.Params.factor, Parameters.pid,
      yawParameters, stepSize, YAW_MAX_RAD]
  · norm_num [Pid.step, Pid.State.rest, Pid.State.output, Pid.Params.factor, Parameters.pid,
      pitchParameters, stepSize, PITCH_MAX_RAD]

/-- A clock between the two stops of `homing_sequence`, with a transfer every 4000 clocks. -/
def moveClock : ℕ := 6000000

lemma moveClock_pos : 0 < moveClock := by decide

lemma adjacent_pitch : Adjacent (false, false) (false, true) := .inl rfl

lemma adjacent_yaw : Adjacent (false, false) (true, false) := .inr rfl

/-- A pitch motor and a yaw motor that make one move each at that clock. -/
def pitchMove : Motion := moveAt moveClock moveClock_pos (false, true) adjacent_pitch

def yawMove : Motion := moveAt moveClock moveClock_pos (true, false) adjacent_yaw

lemma homedLoop_one (clock : ℕ → ℕ) (th : ControlThread) (hset : th.loop.setPoint = ⟨0, 0⟩)
    (hbegin : clock 1002 < moveClock + 3) (hend : moveClock + 3 ≤ clock 2004)
    (hfirst : moveClock + 3 ≤ clock th.cpu.transfers) :
    let l := homedLoop pitchMove yawMove clock noTransfer th (fun _ => none) 1
    output l.yaw = -0.99 ∧ output l.pitch = -0.99 := by
  intro l
  have hbegin' : beginClock clock noTransfer < moveClock + 3 := hbegin
  have hend' : moveClock + 3 ≤ endClock clock noTransfer := hend
  have hangles : angles pitchMove yawMove (beginClock clock noTransfer) (endClock clock noTransfer)
      (clock (th.cpu.transfers + 0)) = ⟨YAW_MAX_RAD, PITCH_MAX_RAD⟩ := by
    rw [angles, pitchMove, yawMove, Nat.add_zero,
      angle_moveAt _ _ moveClock_pos adjacent_yaw (by decide) hbegin' hend' hfirst,
      angle_moveAt _ _ moveClock_pos adjacent_pitch (by decide) hbegin' hend' hfirst]
  have hl : l = (Loop.wake ⟨0, 0⟩ ⟨YAW_MAX_RAD, PITCH_MAX_RAD⟩).step none
      (angles pitchMove yawMove (beginClock clock noTransfer) (endClock clock noTransfer)
        (clock (th.cpu.transfers + 1))) := by
    show homedLoop pitchMove yawMove clock noTransfer th (fun _ => none) (0 + 1) = _
    rw [homedLoop, Loop.run, Loop.run, hangles, hset]
  rw [hl]
  exact output_endStops

/-- `homing_sequence` makes 2005 transfers, whatever the answers. -/
lemma transfers_homing (pl : Platform) (answer : ℕ → BitVec 32) (c : Cpu) :
    (execAll pl answer c homingSequence).transfers = c.transfers + 2005 := by
  have hanswer : answer = answers (fun k => (answer k).extractLsb 31 16)
      fun k => (answer k).extractLsb 15 0 := funext fun k => (SpiSlave.append_halves _).symm
  rw [hanswer, execAll_homingSequence]

lemma homedThread_cpu (pl : Platform) (answer : ℕ → BitVec 32) :
    (homedThread pl answer).cpu = execAll pl answer noTransfer (homingSequence ++ []) := by
  unfold homedThread start
  rw [List.append_nil]

lemma homedThread_transfers (pl : Platform) (answer : ℕ → BitVec 32) :
    (homedThread pl answer).cpu.transfers = 2005 :=
  (transfers_homing pl answer noTransfer).trans (Nat.zero_add _)

lemma into_nil (slot : Slot) : Into slot [] := fun _ h => absurd h List.not_mem_nil

lemma first_iteration {pl : Platform} {received : ℕ → BitVec 32} {clock : ℕ → ℕ}
    {th' : ℕ → ControlThread}
    (hruns : RunsAs pl received (homedThread pl received) (fun _ => none)
      (homedLoop pitchMove yawMove clock noTransfer (homedThread pl received) fun _ => none) th')
    (hbegin : clock 1002 < moveClock + 3) (hend : moveClock + 3 ≤ clock 2004)
    (hfirst : moveClock + 3 ≤ clock 2005) :
    ControlThread.run pl received (homedThread pl received) [none] = some (th' 1) ∧
      (th' 1).yawPwm = 21 ∧ (th' 1).pitchPwm = 1542 := by
  obtain ⟨hyaw, hpitch⟩ := homedLoop_one clock (homedThread pl received) rfl hbegin hend
    (by rwa [homedThread_transfers])
  have hsends := hruns.sends 1 Nat.one_pos
  have hyawPwm := hsends.yaw
  have hpitchPwm := hsends.pitch
  rw [hyaw] at hyawPwm
  rw [hpitch] at hpitchPwm
  exact ⟨hruns.run 1, hyawPwm.unique encodes_yaw_full, hpitchPwm.unique encodes_pitch_full⟩

theorem session_controls_move :
    let received := Session.wordRead (everyPoci pitchMove yawMove)
    ∃ th', ControlThread.run .rpi received (homedThread .rpi received) [none] = some th' ∧
      th'.yawPwm = 21 ∧ th'.pitchPwm = 1542 := by
  intro received
  obtain ⟨S, hstart, hwindow⟩ := exists_session 2304 1920
  have hpolls : S.Polls pitchMove.level yawMove.level (everyPoci pitchMove yawMove) := by
    refine ⟨fun j i _ => ?_⟩
    rw [hwindow, hstart]
    exact readAt_fivePeriods (fun n => (TopEntity.run (everyWires 2304 1920).sampled
      pitchMove.level yawMove.level (4000 * j + n)).spiInterface.spiPoci) 32 i
  obtain ⟨clock, hmono, hclock, hcontrols⟩ := session_controls S hpolls
  obtain ⟨th', hruns, -⟩ := hcontrols noTransfer [] (homedThread .rpi received) (fun _ => none)
    (into_nil .current) (homedThread_cpu .rpi received)
  -- the clocks of the transfers are in their windows
  have hlo : ∀ j, 4000 * j ≤ clock j := by
    intro j
    have hclock := (hclock j).1
    rw [hstart, hwindow] at hclock
    have hle : ((4000 * j : ℕ) : ℝ) ≤ clock j := by
      linarith [steadyWindow.fall_nonneg (by norm_num) (Nat.zero_le 32)]
    exact_mod_cast hle
  have hhi : ∀ j, clock j < 4000 * j + 330 := by
    intro j
    have hclock := (hclock j).2
    have hrise : steadyWindow.rise 0 ≤ steadyWindow.csRise := by
      linarith [steadyWindow.high 0 (by decide),
        steadyWindow.le_csRise (by norm_num) (i := 1) (by decide)]
    rw [hstart, hwindow] at hclock
    rw [steadyWindow_csRise] at hrise
    have hlt : (clock j : ℝ) < ((4000 * j + 330 : ℕ) : ℝ) := by
      rw [Nat.cast_add, Nat.cast_ofNat]
      linarith
    exact_mod_cast hlt
  exact ⟨th' 1, first_iteration hruns ((hhi 1002).trans (by decide))
    (le_trans (by decide) (hlo 2004)) (le_trans (by decide) (hlo 2005))⟩

theorem bus_session_controls_move :
    let received := (everyBusSession 1542 21).wordRead MemInterface.reset pitchMove.level
      yawMove.level
    let axes := fun n => (De10NanoSoc.run MemInterface.reset (everyCycle 1542 21) pitchMove.level
      yawMove.level n).axes
    ∃ th', ControlThread.run .de10 received (homedThread .de10 received) [none] = some th' ∧
      Driven 2048 (-0.99) (fun n => (axes n).yawPwmGenerator) 8024100 ∧
      Driven 512 (-0.99) (fun n => (axes n).pitchPwmGenerator) 8024100 := by
  intro received axes
  obtain ⟨th', hruns, hdriven⟩ := bus_session_controls (everyBusSession 1542 21) MemInterface.reset
    pitchMove yawMove (into_nil .current) (homedThread_cpu .de10 received) fun _ => none
  obtain ⟨hrun, hyaw, hpitch⟩ := first_iteration hruns (by decide) (by decide) (by decide)
  obtain ⟨hyawOutput, hpitchOutput⟩ := homedLoop_one (everyBusSession 1542 21).read
    (homedThread .de10 received) rfl (by decide) (by decide)
    (by rw [homedThread_transfers]; decide)
  have hfirst := hdriven 1 8024100 Nat.one_pos
  rw [homedThread_transfers, hyaw, hpitch, hyawOutput, hpitchOutput] at hfirst
  exact ⟨th' 1, hrun, hfirst rfl (by decide) (by decide)⟩

end PanTilt.System
