import PanTilt.System.Device
import PanTilt.System.SpiTransfer

/-!
The two designs as devices: whole sessions of transfers after a reset.

On the Raspberry Pi the transfers are windows of the serial lines one after another (`Session`), on
the DE10 they are a write and a read on the bus (`BusSession`). `Session.device` and
`BusSession.device` show that the program meets the same device through both, and
`session_serves` and `bus_session_serves` what it reports and drives. When no transfer comes any
more, the words of the last frame drive the motors for ever (`drives_on_silent_lines`).
-/

namespace PanTilt.System

open App Fpga Lib.Clocked Lib.Quadrature Lib.Words Lib.Spi

/-! ### Windows on the serial lines -/

/-- The transfers of a program on the serial lines `v`, whose clock 0 comes with the end of a reset.
The times of transfer `j` are counted from clock `start j`, at which the line is idle. -/
structure Session (v : Wires ℝ) where
  start : ℕ → ℕ
  window : ℕ → Window (5 : ℝ) 32
  pair : ℕ → BitVec 16 × BitVec 16
  drives : ∀ j, Mode0 (window j) (v.after (start j : ℝ))
  pico : ∀ j, Holds (window j) (v.after (start j : ℝ)) (wireBits (txBuf (pair j).1 (pair j).2))
  apart : ∀ j, start j + (window j).csRise + 1 < start (j + 1)
  first : ∀ t : ℝ, 0 ≤ t → t < start 0 → v.cs t = true
  quiet : ∀ j, ∀ t : ℝ, start j + (window j).csRise < t → t < start (j + 1) → v.cs t = true

namespace Session

variable {v : Wires ℝ} (S : Session v) (pitchEnc yawEnc : ℕ → Level)

lemma idle_start (j : ℕ) :
    (TopEntity.run v.sampled pitchEnc yawEnc (S.start j)).spiInterface.idle = true := by
  rcases hstart : S.start j with _ | n
  · show (SpiSlave.reset TopEntity.MAX_COUNT).idle = true
    decide
  · have hlt : (n : ℝ) < S.start j := by rw [hstart]; exact_mod_cast n.lt_succ_self
    have hcs : v.cs n = true := by
      rcases j with _ | j
      · exact S.first n n.cast_nonneg hlt
      · have happart := S.apart j
        rw [hstart] at happart
        push_cast at happart
        exact S.quiet j n (by linarith) hlt
    rw [TopEntity.spi_run]
    exact (SpiSlave.shift3 _ _).1.trans hcs

lemma high_after {j : ℕ} {t : ℝ} (h : S.start j + (S.window j).csRise < t)
    (h' : t < S.start (j + 1) + (S.window (j + 1)).fall 0) : v.cs t = true := by
  rcases lt_or_ge t (S.start (j + 1)) with hlt | hge
  · exact S.quiet j t h hlt
  · have hbefore := (S.drives (j + 1)).before (t - S.start (j + 1)) (by linarith) (by linarith)
    simpa [Wires.after] using hbefore

lemma spi_run_after (j n : ℕ) :
    SpiSlave.run TopEntity.MAX_COUNT
        (TopEntity.run v.sampled pitchEnc yawEnc (S.start j)).spiInterface
        (v.after (S.start j : ℝ)).sampled
        (fun m => TopEntity.positions pitchEnc yawEnc (S.start j + m)) n =
      (TopEntity.run v.sampled pitchEnc yawEnc (S.start j + n)).spiInterface := by
  have hlines : (v.after (S.start j : ℝ)).sampled = fun m => v.sampled (S.start j + m) :=
    funext fun m => v.sampled_after (S.start j) m
  rw [TopEntity.spi_run, TopEntity.spi_run, hlines]
  exact (trace_add (SpiSlave.step TopEntity.MAX_COUNT) (SpiSlave.reset TopEntity.MAX_COUNT)
    (fun m => SpiSlave.Pins.of (v.sampled m) (TopEntity.positions pitchEnc yawEnc m))
    (S.start j) n).symm

/-- What the master reads at the rises of all transfers. -/
structure Polls (poci : ℕ → ℕ → Bool) : Prop where
  poci : ∀ j, ∀ i < 32, ReadAt (fun n =>
    (TopEntity.run v.sampled pitchEnc yawEnc (S.start j + n)).spiInterface.spiPoci)
    ((S.window j).rise i) (poci j i)

variable {pitchEnc yawEnc}

lemma transfer {poci : ℕ → ℕ → Bool} (h : S.Polls pitchEnc yawEnc poci) (j : ℕ) :
    Transfer TopEntity.MAX_COUNT
      (TopEntity.run v.sampled pitchEnc yawEnc (S.start j)).spiInterface (S.pair j).1 (S.pair j).2
      (fun m => TopEntity.positions pitchEnc yawEnc (S.start j + m)) (S.window j)
      (v.after (S.start j : ℝ)) (poci j) := by
  refine ⟨S.drives j, S.pico j, fun i hi => ?_⟩
  simp only [S.spi_run_after]
  exact h.poci j i hi

/-- What the driver receives in transfer `j`, as one word. -/
def wordRead (poci : ℕ → ℕ → Bool) (j : ℕ) : BitVec 32 := wordOf 32 ((List.range 32).map (poci j))

lemma wordOf_of_decodeRx {bits : List Bool} (hlength : bits.length = 32) {d : BitVec 16 × BitVec 16}
    (h : decodeRx (rxBuf bits) = d) : wordOf 32 bits = d.1 ++ d.2 := by
  have hword :=
    decodeRx_rxBuf ((wordOf 32 bits).extractLsb 31 16) ((wordOf 32 bits).extractLsb 15 0)
  rw [SpiSlave.append_halves, bitsOf_wordOf hlength, h] at hword
  rw [hword]
  exact (SpiSlave.append_halves _).symm

/-- **The driver reads the positions of one clock** in every transfer, between the fall of `SPI_CS`
and the first rise of `SPI_CLK`. -/
lemma exists_clock {poci : ℕ → ℕ → Bool} (h : S.Polls pitchEnc yawEnc poci) (j : ℕ) :
    ∃ n : ℕ, S.start j + (S.window j).fall 0 + 1 ≤ n ∧ n < S.start j + (S.window j).rise 0 ∧
      wordRead poci j = (Encoder.run pitchEnc n).count ++ (Encoder.run yawEnc n).count := by
  obtain ⟨n, hlo, hhi, hdecoded⟩ := (S.transfer h j).decoded (S.idle_start pitchEnc yawEnc j)
  refine ⟨S.start j + n, ?_, ?_, ?_⟩
  · push_cast
    linarith
  · push_cast
    linarith
  · have hlength : ((List.range 32).map (poci j)).length = 32 := by
      rw [List.length_map, List.length_range]
    rw [wordRead, wordOf_of_decodeRx hlength hdecoded, TopEntity.positions]

lemma held {poci : ℕ → ℕ → Bool} (h : S.Polls pitchEnc yawEnc poci) {j n : ℕ}
    (hlo : S.start j + (S.window j).csRise ≤ n)
    (hhi : n ≤ S.start (j + 1) + (S.window (j + 1)).fall 0) :
    TopEntity.pitchPwm v.sampled pitchEnc yawEnc n = (S.pair j).1 ∧
      TopEntity.yawPwm v.sampled pitchEnc yawEnc n = (S.pair j).2 := by
  have hend := (S.window j).le_csRise (by norm_num) (Nat.zero_le 32)
  have hstart := (S.window j).start
  obtain ⟨i, rfl⟩ : ∃ i, n = S.start j + i := Nat.exists_eq_add_of_le (by
    exact_mod_cast (show (S.start j : ℝ) ≤ n by linarith))
  push_cast at hlo hhi
  have hreceived := (S.transfer h j).received (S.idle_start pitchEnc yawEnc j) (n := i)
    (by linarith) fun t ht ht' => S.high_after (j := j) (t := S.start j + t) (by linarith)
      (by linarith)
  rwa [S.spi_run_after] at hreceived

theorem device {poci : ℕ → ℕ → Bool} (h : S.Polls pitchEnc yawEnc poci) :
    ∃ D : Device pitchEnc yawEnc S.pair (wordRead poci)
        (fun n => (TopEntity.run v.sampled pitchEnc yawEnc n).axes),
      (∀ j, S.start j + (S.window j).fall 0 + 1 ≤ D.clock j ∧
        D.clock j < S.start j + (S.window j).rise 0) ∧
      (∀ j, D.since j = ⌈S.start j + (S.window j).csRise⌉₊) ∧
      ∀ j, D.til j = ⌊S.start (j + 1) + (S.window (j + 1)).fall 0⌋₊ + 1 := by
  choose clock hlo hhi hanswer using S.exists_clock h
  refine ⟨{
    clock := clock
    mono := strictMono_nat_of_lt_succ fun j => ?_
    answer := hanswer
    since := fun j => ⌈S.start j + (S.window j).csRise⌉₊
    til := fun j => ⌊S.start (j + 1) + (S.window (j + 1)).fall 0⌋₊ + 1
    pitchPwm := TopEntity.pitchPwm v.sampled pitchEnc yawEnc
    yawPwm := TopEntity.yawPwm v.sampled pitchEnc yawEnc
    run := TopEntity.axes_run v.sampled pitchEnc yawEnc
    held := fun j n hsince htil => S.held h (Nat.ceil_le.1 hsince) ?_ },
    fun j => ⟨hlo j, hhi j⟩, fun _ => rfl, fun _ => rfl⟩
  · -- the first rise of a window is before its end, which is before the next one
    have hrise : (S.window j).rise 0 ≤ (S.window j).csRise := by
      linarith [(S.window j).high 0 (by decide),
        (S.window j).le_csRise (by norm_num) (i := 1) (by decide)]
    have hstart := (S.window (j + 1)).start
    have hlt : (clock j : ℝ) < clock (j + 1) := by
      linarith [hhi j, hlo (j + 1), S.apart j]
    exact_mod_cast hlt
  · have hstart := (S.window (j + 1)).start
    exact (Nat.le_floor_iff (by positivity)).1 (Nat.lt_succ_iff.1 htil)

theorem device_drives {poci : ℕ → ℕ → Bool} (h : S.Polls pitchEnc yawEnc poci) :
    ∃ D : Device pitchEnc yawEnc S.pair (wordRead poci)
        (fun n => (TopEntity.run v.sampled pitchEnc yawEnc n).axes),
      (∀ j, S.start j + (S.window j).fall 0 + 1 ≤ D.clock j ∧
        D.clock j < S.start j + (S.window j).rise 0) ∧
      ∀ j n : ℕ, S.start j + (S.window j).csRise + 3 ≤ n →
        n + 2046 ≤ S.start (j + 1) + (S.window (j + 1)).fall 0 →
        DrivenBy (S.pair j) (fun m => (TopEntity.run v.sampled pitchEnc yawEnc m).axes) n := by
  obtain ⟨D, hclock, hsince, htil⟩ := S.device h
  refine ⟨D, hclock, fun j n hlo hhi => D.driven ?_ ?_⟩
  · have hceil : ⌈S.start j + (S.window j).csRise + 3⌉₊ ≤ n := Nat.ceil_le.2 hlo
    have hstart : (0 : ℝ) ≤ S.start j := Nat.cast_nonneg _
    have hpos : (0 : ℝ) ≤ S.start j + (S.window j).csRise := by
      linarith [(S.window j).tail, (S.window j).fall_nonneg (by norm_num) le_rfl]
    rw [hsince]
    rwa [Nat.ceil_add_ofNat hpos] at hceil
  · have hfloor : n + 2046 ≤ ⌊S.start (j + 1) + (S.window (j + 1)).fall 0⌋₊ :=
      Nat.le_floor (by exact_mod_cast hhi)
    rw [htil]
    omega

end Session

/-- **What a session on the serial lines does**, whatever windows it is made of and for all motions
on which no count wraps. Its transfers read both positions of one clock in their own window, so that
the angles of the program are linear in the displacements of the motors. From the third clock after
a window on the pins of both motors are driven as the outputs in its words ask, for as long as no
other window starts. -/
theorem session_serves {v : Wires ℝ} (S : Session v) {pitch yaw : Motion} {poci : ℕ → ℕ → Bool}
    (h : S.Polls pitch.level yaw.level poci) :
    ∃ clock : ℕ → ℕ, StrictMono clock ∧
      (∀ j, S.start j + (S.window j).fall 0 + 1 ≤ clock j ∧
        clock j < S.start j + (S.window j).rise 0) ∧
      (∀ c, Reports (settingsOf .rpi (Session.wordRead poci) c) pitch yaw clock c) ∧
      ∀ j n : ℕ, S.start j + (S.window j).csRise + 3 ≤ n →
        n + 2046 ≤ S.start (j + 1) + (S.window (j + 1)).fall 0 →
        DrivenBy (S.pair j) (fun m => (TopEntity.run v.sampled pitch.level yaw.level m).axes)
          n := by
  obtain ⟨D, hclock, hdrives⟩ := S.device_drives h
  exact ⟨D.clock, D.mono, hclock, D.reports .rpi, hdrives⟩

/-! ### Silent lines -/

/-- Once `SPI_CS` stays high, the halves of the last complete frame stand. -/
lemma words_on_silent_lines {x : ℕ → Sample} (pitchEnc yawEnc : ℕ → Level) {N : ℕ}
    (hsilent : ∀ m, N ≤ m → (x m).cs = true) {m : ℕ} (hm : N + 3 ≤ m) :
    TopEntity.pitchPwm x pitchEnc yawEnc m = (TopEntity.lastPair x N).extractLsb 31 16 ∧
      TopEntity.yawPwm x pitchEnc yawEnc m = (TopEntity.lastPair x N).extractLsb 15 0 := by
  obtain ⟨k, hk⟩ : ∃ k, m - 3 = N + k := ⟨m - 3 - N, by omega⟩
  obtain ⟨hpitch, hyaw⟩ := TopEntity.words_run x pitchEnc yawEnc m
  rw [hk, TopEntity.lastPair_of_high hsilent] at hpitch hyaw
  exact ⟨hpitch, hyaw⟩

/-- **The design for the Raspberry Pi goes on driving.** Once `SPI_CS` stays high, whatever came
before, the halves of the last complete frame command both motors for ever, whatever words they
are: one above `MAX_COUNT` drives as `MAX_COUNT` does. -/
theorem drives_on_silent_lines {x : ℕ → Sample} (pitchEnc yawEnc : ℕ → Level) {N : ℕ}
    (hsilent : ∀ m, N ≤ m → (x m).cs = true) {n : ℕ} (hn : N + 6 ≤ n) :
    Commanded ((TopEntity.lastPair x N).extractLsb 31 16)
        (fun m => (TopEntity.run x pitchEnc yawEnc m).axes.pitchPwmGenerator) n ∧
      Commanded ((TopEntity.lastPair x N).extractLsb 15 0)
        (fun m => (TopEntity.run x pitchEnc yawEnc m).axes.yawPwmGenerator) n := by
  have hwords := fun m (hm : N + 3 ≤ m) => words_on_silent_lines pitchEnc yawEnc hsilent hm
  obtain ⟨hpitchGen, hyawGen⟩ := generators_eq (TopEntity.axes_run x pitchEnc yawEnc)
  rw [hpitchGen, hyawGen]
  exact ⟨commanded_of_stands (a := N + 3) hn fun m hm _ => (hwords m hm).1,
    commanded_of_stands (a := N + 3) hn fun m hm _ => (hwords m hm).2⟩

lemma lastPair_pulses (pair : BitVec 32) {n : ℕ} (hn : 65 ≤ n) :
    TopEntity.lastPair (pulses (bitsOf pair)) n = pair := by
  rw [TopEntity.lastPair, lastFrame_pulses (length_bitsOf pair) (by decide) _ hn, wordOf_bitsOf]

lemma cs_pulses (pair : BitVec 32) {n : ℕ} (hn : 65 ≤ n) : (pulses (bitsOf pair) n).cs = true := by
  simp only [pulses, length_bitsOf, Bool.or_eq_true, decide_eq_true_eq]
  exact .inr (by omega)

lemma encodes_half : Encodes 2048 (1 / 2) 3072 := by
  have hsteps : steps 2048 (1 / 2) = 1024 := by norm_num [steps, abs_of_pos]
  exact ⟨by rw [hsteps]; norm_num [signed, PWM_MID_POINT]; rfl, by decide⟩

lemma encodes_quarter : Encodes 512 (-1 / 4) 1920 := by
  have hsteps : steps 512 (-1 / 4) = 128 := by norm_num [steps, abs_of_neg]
  exact ⟨by rw [hsteps]; norm_num [signed, PWM_MID_POINT]; rfl, by decide⟩

/-- One window with a quarter backwards for the pitch motor and a word above `MAX_COUNT` for the yaw
motor, which is driven forwards all the time. -/
theorem drives_on_silent_lines_once :
    let axes := fun n => (TopEntity.run (pulses (bitsOf (1920#16 ++ 5000#16)))
      (fun _ => (false, false)) (fun _ => (false, false)) n).axes
    ((axes 71).pitchPwmGenerator.dirA = false ∧ (axes 71).pitchPwmGenerator.dirB = true ∧
        ((Finset.Ico 71 2119).filter fun m => (axes m).pitchPwmGenerator.pwmOut).card = 128) ∧
      (axes 71).yawPwmGenerator.dirA = true ∧ (axes 71).yawPwmGenerator.dirB = false ∧
        ((Finset.Ico 71 2119).filter fun m => (axes m).yawPwmGenerator.pwmOut).card = 2048 := by
  have hdrives := drives_on_silent_lines (fun _ => (false, false)) (fun _ => (false, false))
    (fun _ hm => cs_pulses (1920#16 ++ 5000#16) hm) (show 65 + 6 ≤ 71 by decide)
  obtain ⟨hpitch, hyaw⟩ := SpiSlave.halves_append 1920#16 5000#16
  rw [lastPair_pulses _ le_rfl, hpitch, hyaw] at hdrives
  obtain ⟨⟨hpitchA, hpitchB, hpitchPulses⟩, ⟨hyawA, hyawB, hyawPulses⟩⟩ := hdrives
  refine ⟨⟨?_, hpitchB.2 (by decide), hpitchPulses⟩, hyawA.2 (by decide), ?_, hyawPulses⟩
  · exact Bool.eq_false_iff.2 fun h => absurd (hpitchA.1 h) (by decide)
  · exact Bool.eq_false_iff.2 fun h => absurd (hyawB.1 h) (by decide)

/-! ### A transfer every 4000 clocks -/

/-- The lines of `v` up to `P`, again and again. -/
noncomputable def every (P : ℝ) (v : Wires ℝ) : Wires ℝ where
  cs t := v.cs (t - ⌊t / P⌋₊ * P)
  clk t := v.clk (t - ⌊t / P⌋₊ * P)
  pico t := v.pico (t - ⌊t / P⌋₊ * P)

lemma levels_after_every {P : ℝ} (hP : 0 < P) (v : Wires ℝ) (j : ℕ) {t : ℝ} (ht : 0 ≤ t)
    (ht' : t < P) : ((every P v).after (j * P)).levels t = v.levels t := by
  have hfloor : ⌊(j * P + t) / P⌋₊ = j := by
    rw [add_div, mul_div_cancel_right₀ _ hP.ne', add_comm, Nat.floor_add_natCast (by positivity),
      Nat.floor_eq_zero.2 ((div_lt_one hP).2 ht'), Nat.zero_add]
  simp [Wires.levels, Wires.after, every, hfloor]

/-- The steady window with the words of a pair, every 4000 clocks. -/
noncomputable def everyWires (pitchPwm yawPwm : BitVec 16) : Wires ℝ :=
  every 4000 (steadyWires pitchPwm yawPwm)

lemma levels_everyWires (pitchPwm yawPwm : BitVec 16) (j : ℕ) {t : ℝ} (ht : 0 ≤ t)
    (ht' : t < 4000) : ((everyWires pitchPwm yawPwm).after ((4000 * j : ℕ) : ℝ)).levels t =
      (steadyWires pitchPwm yawPwm).levels t := by
  rw [show ((4000 * j : ℕ) : ℝ) = j * 4000 by push_cast; ring]
  exact levels_after_every (by norm_num) _ j ht ht'

lemma steadyWindow_csRise : steadyWindow.csRise = 330 := by
  rw [steadyWindow]
  exact (fivePeriods_csRise 32).trans (by norm_num)

lemma exists_session (pitchPwm yawPwm : BitVec 16) :
    ∃ S : Session (everyWires pitchPwm yawPwm),
      (∀ j, S.start j = 4000 * j) ∧ ∀ j, S.window j = steadyWindow := by
  have hlevels : ∀ j t, 0 ≤ t → t ≤ steadyWindow.csRise →
      ((everyWires pitchPwm yawPwm).after ((4000 * j : ℕ) : ℝ)).levels t =
        (steadyWires pitchPwm yawPwm).levels t := by
    intro j t ht ht'
    rw [steadyWindow_csRise] at ht'
    exact levels_everyWires pitchPwm yawPwm j ht (by linarith)
  refine ⟨{
    start := fun j => 4000 * j
    window := fun _ => steadyWindow
    pair := fun _ => (pitchPwm, yawPwm)
    drives := fun j => (mode0_fivePeriods 32 _).congr (by norm_num) (hlevels j)
    pico := fun j => (holds_fivePeriods 32 _).congr (by norm_num) (hlevels j)
    apart := fun j => ?_
    first := fun t ht ht' => absurd ht (not_le.2 (by simpa using ht'))
    quiet := fun j t ht ht' => ?_ }, fun _ => rfl, fun _ => rfl⟩
  · rw [steadyWindow_csRise]
    push_cast
    linarith
  · rw [steadyWindow_csRise] at ht
    push_cast at ht ht'
    have hcs := congrArg Sample.cs
      (levels_everyWires pitchPwm yawPwm j (t := t - 4000 * j) (by linarith) (by linarith))
    have hphase : 66 ≤ phase (5 : ℝ) (t - 4000 * j) := by
      rw [le_phase_iff (by norm_num) (by linarith)]
      push_cast
      linarith
    have hhigh : (steadyWires pitchPwm yawPwm).cs (t - 4000 * j) = true := by
      simp [steadyWires, Wires.steady, hphase]
    simpa [Wires.levels, Wires.after, hhigh] using hcs

/-- What the master reads in that session, on two motors that make one move each. -/
noncomputable def everyPoci (pitch yaw : Motion) (j i : ℕ) : Bool :=
  (TopEntity.run (everyWires 2304 1920).sampled pitch.level yaw.level
    (4000 * j + (10 * i + 10))).spiInterface.spiPoci

theorem session_serves_every :
    let pitch := once (false, true) (.inl rfl)
    let yaw := once (true, false) (.inr rfl)
    ∃ clock : ℕ → ℕ, StrictMono clock ∧
      ∀ c, Reports (settingsOf .rpi (Session.wordRead (everyPoci pitch yaw)) c) pitch yaw
        clock c := by
  intro pitch yaw
  obtain ⟨S, hstart, hwindow⟩ := exists_session 2304 1920
  have hpolls : S.Polls pitch.level yaw.level (everyPoci pitch yaw) := by
    refine ⟨fun j i _ => ?_⟩
    rw [hwindow, hstart]
    exact readAt_fivePeriods (fun n => (TopEntity.run (everyWires 2304 1920).sampled
      pitch.level yaw.level (4000 * j + n)).spiInterface.spiPoci) 32 i
  obtain ⟨clock, hmono, -, hreports, -⟩ := session_serves S hpolls
  exact ⟨clock, hmono, hreports⟩

/-! ### Accesses on the bus -/

/-- The cycles between a read on the bus and the one in which the master takes the word. -/
def readLatency : ℕ := 3

/-- The transfers of a program on the bus of the DE10: transfer `j` writes its words in one cycle
and reads in a later one, and the next one starts when the read has been answered. From the first
transfer on nothing else happens on the bus. -/
structure BusSession (cycle : ℕ → MemInterface.Cycle) where
  write : ℕ → ℕ
  read : ℕ → ℕ
  pair : ℕ → BitVec 16 × BitVec 16
  order : ∀ j, write j < read j
  next : ∀ j, read j + readLatency ≤ write (j + 1)
  written : ∀ n, write 0 ≤ n → ((cycle n).slaveWrite = true ↔ ∃ j, n = write j)
  reading : ∀ n, write 0 ≤ n → ((cycle n).slaveRead = true ↔ ∃ j, n = read j)
  data : ∀ j, (cycle (write j)).slaveWritedata = pwmRegister (pair j).1 (pair j).2

namespace BusSession

variable {cycle : ℕ → MemInterface.Cycle} (S : BusSession cycle) (m₀ : MemInterface)
  (pitchEnc yawEnc : ℕ → Level)

lemma write_strictMono : StrictMono S.write := strictMono_nat_of_lt_succ fun j => by
  have horder := S.order j
  have hnext := S.next j
  omega

lemma read_strictMono : StrictMono S.read := strictMono_nat_of_lt_succ fun j => by
  have horder := S.order (j + 1)
  have hnext := S.next j
  omega

/-- What the driver receives in transfer `j`. -/
def wordRead (j : ℕ) : BitVec 32 :=
  (De10NanoSoc.run m₀ cycle pitchEnc yawEnc (S.read j + readLatency)).memInterface.slaveReaddata

/-- **The driver reads the positions of the clock of its read.** -/
lemma wordRead_eq (j : ℕ) : S.wordRead m₀ pitchEnc yawEnc j =
    (Encoder.run pitchEnc (S.read j)).count ++ (Encoder.run yawEnc (S.read j)).count := by
  have hfirst := S.write_strictMono.monotone (Nat.zero_le j)
  have horder := S.order j
  refine De10NanoSoc.readdata_run m₀ cycle pitchEnc yawEnc (Nat.lt_add_of_pos_right (by decide))
    ((S.reading _ (by omega)).2 ⟨j, rfl⟩) fun m hm hm' => ?_
  by_contra hread
  obtain ⟨i, rfl⟩ := (S.reading m (by omega)).1 (by simpa using hread)
  have hlt := S.read_strictMono.lt_iff_lt.1 hm
  have hle := S.read_strictMono.monotone (show j + 1 ≤ i from hlt)
  have hnext := S.next j
  have horder' := S.order (j + 1)
  omega

lemma held {j n : ℕ} (hlo : S.write j < n) (hhi : n ≤ S.write (j + 1)) :
    De10NanoSoc.pitchPwm m₀ cycle pitchEnc yawEnc n = (S.pair j).1 ∧
      De10NanoSoc.yawPwm m₀ cycle pitchEnc yawEnc n = (S.pair j).2 := by
  have hfirst := S.write_strictMono.monotone (Nat.zero_le j)
  have hvals := De10NanoSoc.pwmVals_run m₀ cycle pitchEnc yawEnc hlo
    ((S.written _ hfirst).2 ⟨j, rfl⟩) fun m hm hm' => by
      by_contra hwrite
      obtain ⟨i, rfl⟩ := (S.written m (by omega)).1 (by simpa using hwrite)
      have hlt := S.write_strictMono.lt_iff_lt.1 hm
      have hlt' := S.write_strictMono.lt_iff_lt.1 (hm'.trans_le hhi)
      omega
  rw [S.data, pwmRegister_eq] at hvals
  rw [De10NanoSoc.pitchPwm, De10NanoSoc.yawPwm, hvals]
  exact SpiSlave.halves_append _ _

/-- **The design for the DE10 is a device.** -/
def device : Device pitchEnc yawEnc S.pair (S.wordRead m₀ pitchEnc yawEnc)
    (fun n => (De10NanoSoc.run m₀ cycle pitchEnc yawEnc n).axes) where
  clock := S.read
  mono := S.read_strictMono
  answer := S.wordRead_eq m₀ pitchEnc yawEnc
  since j := S.write j + 1
  til j := S.write (j + 1) + 1
  pitchPwm := De10NanoSoc.pitchPwm m₀ cycle pitchEnc yawEnc
  yawPwm := De10NanoSoc.yawPwm m₀ cycle pitchEnc yawEnc
  run := De10NanoSoc.axes_run m₀ cycle pitchEnc yawEnc
  held _ _ hsince htil := S.held m₀ pitchEnc yawEnc hsince (Nat.lt_succ_iff.1 htil)

end BusSession

/-- **What a session on the bus does**, whatever the bus slave holds at first and for all motions on
which no count wraps. Its transfers read both positions of the clock of the read, so that the angles
of the program are linear in the displacements of the motors, and from the third clock after a write
on the pins of both motors are driven as the outputs in its words ask, until the next write. -/
theorem bus_session_serves {cycle : ℕ → MemInterface.Cycle} (S : BusSession cycle)
    (m₀ : MemInterface) (pitch yaw : Motion) :
    (∀ c, Reports (settingsOf .de10 (S.wordRead m₀ pitch.level yaw.level) c) pitch yaw S.read c) ∧
      ∀ j n, S.write j + 4 ≤ n → n + 2046 ≤ S.write (j + 1) →
        DrivenBy (S.pair j)
          (fun m => (De10NanoSoc.run m₀ cycle pitch.level yaw.level m).axes) n := by
  refine ⟨(S.device m₀ pitch.level yaw.level).reports .de10, fun j n hlo hhi =>
    (S.device m₀ pitch.level yaw.level).driven ?_ ?_⟩
  · show S.write j + 1 + 3 ≤ n
    omega
  · show n + 2047 ≤ S.write (j + 1) + 1
    omega

/-! ### A transfer every 4000 cycles -/

/-- A write every 4000 cycles, and a read ten cycles after it. -/
def everyCycle (pitchPwm yawPwm : BitVec 16) (n : ℕ) : MemInterface.Cycle where
  slaveAddress := if n % 4000 = 0 then 0 else 4
  slaveRead := n % 4000 = 10
  slaveWrite := n % 4000 = 0
  slaveWritedata := pwmRegister pitchPwm yawPwm
  slaveByteenable := 0b1111

/-- The session of these accesses. -/
def everyBusSession (pitchPwm yawPwm : BitVec 16) : BusSession (everyCycle pitchPwm yawPwm) where
  write j := 4000 * j
  read j := 4000 * j + 10
  pair _ := (pitchPwm, yawPwm)
  order j := by omega
  next j := by
    unfold readLatency
    omega
  written n _ := by
    simp only [everyCycle, decide_eq_true_eq]
    exact ⟨fun h => ⟨n / 4000, by omega⟩, fun ⟨j, hj⟩ => by omega⟩
  reading n _ := by
    simp only [everyCycle, decide_eq_true_eq]
    exact ⟨fun h => ⟨n / 4000, by omega⟩, fun ⟨j, hj⟩ => by omega⟩
  data _ := rfl

theorem bus_session_serves_every :
    let pitch := once (false, true) (.inl rfl)
    let yaw := once (true, false) (.inr rfl)
    let axes := fun n => (De10NanoSoc.run MemInterface.reset (everyCycle 1920 3072) pitch.level
      yaw.level n).axes
    Driven 2048 (1 / 2) (fun n => (axes n).yawPwmGenerator) 100 ∧
      Driven 512 (-1 / 4) (fun n => (axes n).pitchPwmGenerator) 100 :=
  (bus_session_serves (everyBusSession 1920 3072) MemInterface.reset _ _).2 0 100
    (by show 4000 * 0 + 4 ≤ 100; decide) (by show 100 + 2046 ≤ 4000 * (0 + 1); decide)
    (1 / 2) (-1 / 4) encodes_half encodes_quarter

end PanTilt.System
