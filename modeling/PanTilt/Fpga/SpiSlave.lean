import PanTilt.Lib.Spi

/-!
`SPI_Slave` of `spi_slave_32bit.v`: the interface between the driver on the CPU and the two motors.

Every register of the module is a field, every `always` block one field (or one group of fields)
of `step`. `synced` splits the state into the two synchroniser stages and the serial slave behind
them, and `synced_step` says that the module is exactly that slave, two edges late.

`only_complete_frames` is the law of the receiving side: the pair of PWM registers is, three clocks
late, the last complete group of 32 bits of any window.
-/

namespace PanTilt.Fpga

open Lib.Clocked Lib.Words Lib.Spi

/-- The registers of `SPI_Slave`. -/
structure SpiSlave where
  spiClkr : BitVec 3
  spiCsr : BitVec 3
  spiPicor : BitVec 2
  bitcnt : BitVec 5
  bytesReceived : Bool
  bytesDataReceived : BitVec 32
  pitchPwm : BitVec 16
  yawPwm : BitVec 16
  byteDataSent : BitVec 32
  deriving DecidableEq

namespace SpiSlave

/-- The input pins. -/
structure Pins where
  rst : Bool
  spiClk : Bool
  spiPico : Bool
  spiCs : Bool
  pitchData : BitVec 16
  yawData : BitVec 16

variable (MAX_COUNT : BitVec 16)

def spiClkRisingedge (s : SpiSlave) : Bool := s.spiClkr.extractLsb 2 1 == 0b01#2
def spiClkFallingedge (s : SpiSlave) : Bool := s.spiClkr.extractLsb 2 1 == 0b10#2
def spiCsActive (s : SpiSlave) : Bool := !s.spiCsr[1]
def spiCsStartmessage (s : SpiSlave) : Bool := s.spiCsr.extractLsb 2 1 == 0b10#2
def spiPicoData (s : SpiSlave) : Bool := s.spiPicor[1]

/-- The data line back to the master. -/
def spiPoci (s : SpiSlave) : Bool := s.byteDataSent[31]

/-- The registers after a clock with `rst`. -/
def reset : SpiSlave where
  spiClkr := 0b000
  spiCsr := 0b111
  spiPicor := 0b00
  bitcnt := 0
  bytesReceived := false
  bytesDataReceived := 0
  pitchPwm := MAX_COUNT >>> 1
  yawPwm := MAX_COUNT >>> 1
  byteDataSent := 0

/-- One rising edge of `clk`. A shift register `{r[n-2:0], b}` is `r.shiftConcat b`. -/
def step (s : SpiSlave) (i : Pins) : SpiSlave :=
  if i.rst then reset MAX_COUNT
  else
    { spiClkr := s.spiClkr.shiftConcat i.spiClk
      spiCsr := s.spiCsr.shiftConcat i.spiCs
      spiPicor := s.spiPicor.shiftConcat i.spiPico
      bitcnt :=
        if !s.spiCsActive then 0
        else if s.spiClkRisingedge then s.bitcnt + 1
        else s.bitcnt
      bytesDataReceived :=
        if !s.spiCsActive then s.bytesDataReceived
        else if s.spiClkRisingedge then s.bytesDataReceived.shiftConcat s.spiPicoData
        else s.bytesDataReceived
      bytesReceived := s.spiCsActive && s.spiClkRisingedge && s.bitcnt == 31
      pitchPwm := if s.bytesReceived then s.bytesDataReceived.extractLsb 31 16 else s.pitchPwm
      yawPwm := if s.bytesReceived then s.bytesDataReceived.extractLsb 15 0 else s.yawPwm
      byteDataSent :=
        if s.spiCsActive then
          if s.spiCsStartmessage then i.pitchData ++ i.yawData
          else if s.spiClkFallingedge then s.byteDataSent.shiftConcat false
          else s.byteDataSent
        else 0 }

lemma step_rst (s : SpiSlave) (i : Pins) (h : i.rst = true) :
    step MAX_COUNT s i = reset MAX_COUNT := by
  simp [step, h]

/-- No window is under way: the newest sample of `SPI_CS` is high. Nothing else is asked of the
registers. -/
def idle (s : SpiSlave) : Bool := s.spiCsr[0]

/-! ### The module is a synchronised serial slave -/

/-- What the synchronisers sample. -/
def Pins.sample (i : Pins) : Sample := ⟨i.spiCs, i.spiClk, i.spiPico⟩

/-- The stages of the synchronisers and the slave behind them. -/
def synced (s : SpiSlave) : Synced Sample (Slave 32) where
  stage₀ := ⟨s.spiCsr[0], s.spiClkr[0], s.spiPicor[0]⟩
  stage₁ := ⟨s.spiCsr[1], s.spiClkr[1], s.spiPicor[1]⟩
  core :=
    { clk := s.spiClkr[2]
      cs := s.spiCsr[2]
      cnt := s.bitcnt.toNat
      shift := s.bytesDataReceived
      got := s.bytesReceived
      word := s.pitchPwm ++ s.yawPwm
      sent := s.byteDataSent }

lemma edge_rising : ∀ r : BitVec 3, (r.extractLsb 2 1 == 0b01#2) = (!r[2] && r[1]) := by decide
lemma edge_falling : ∀ r : BitVec 3, (r.extractLsb 2 1 == 0b10#2) = (r[2] && !r[1]) := by decide

lemma shift3 : ∀ (r : BitVec 3) (b : Bool),
    (r.shiftConcat b)[0] = b ∧ (r.shiftConcat b)[1] = r[0] ∧ (r.shiftConcat b)[2] = r[1] := by
  decide

lemma shift2 : ∀ (r : BitVec 2) (b : Bool),
    (r.shiftConcat b)[0] = b ∧ (r.shiftConcat b)[1] = r[0] := by
  decide

lemma append_halves (v : BitVec 32) : v.extractLsb 31 16 ++ v.extractLsb 15 0 = v :=
  @BitVec.extractLsb'_append_extractLsb' 16 16 v

lemma halves_append (p y : BitVec 16) :
    (p ++ y).extractLsb 31 16 = p ∧ (p ++ y).extractLsb 15 0 = y :=
  ⟨BitVec.extractLsb'_append_eq_left, BitVec.extractLsb'_append_eq_right⟩

/-- **The module refines the synchronised serial slave.** -/
theorem synced_step (s : SpiSlave) (i : Pins) (h : i.rst = false) :
    (step MAX_COUNT s i).synced =
      sync2 Lib.Spi.step s.synced (i.sample, i.pitchData ++ i.yawData) := by
  obtain ⟨hk₀, hk₁, hk₂⟩ := shift3 s.spiClkr i.spiClk
  obtain ⟨hc₀, hc₁, hc₂⟩ := shift3 s.spiCsr i.spiCs
  obtain ⟨hp₀, hp₁⟩ := shift2 s.spiPicor i.spiPico
  have hcnt : (s.bitcnt + 1).toNat = (s.bitcnt.toNat + 1) % 32 := by simp [BitVec.toNat_add]
  have h31 : (s.bitcnt == 31) = (s.bitcnt.toNat == 31) := by
    rw [Bool.eq_iff_iff, beq_iff_eq, beq_iff_eq, ← BitVec.toNat_inj]
    rfl
  unfold step
  rw [if_neg (by simp [h])]
  simp only [synced, sync2, Pins.sample, Lib.Spi.step, hk₀, hk₁, hk₂, hc₀, hc₁, hc₂, hp₀, hp₁,
    spiCsActive, spiClkRisingedge, spiClkFallingedge, spiCsStartmessage, spiPicoData, edge_rising,
    edge_falling]
  congr 2
  · by_cases hc : s.spiCsr[1]
    · simp [hc]
    · by_cases hk : !s.spiClkr[2] && s.spiClkr[1]
      · simp only [hc, hk, Bool.not_false, Bool.false_eq_true, Bool.not_true, if_true, if_false,
          hcnt]
      · simp [hc, hk]
  · by_cases hc : s.spiCsr[1] <;> simp [hc]
  · rw [h31]
  · by_cases hg : s.bytesReceived
    · simp only [hg, if_true]
      exact append_halves _
    · simp [hg]
  · by_cases hc : s.spiCsr[1] <;> simp [hc]

/-- The pins outside a reset. -/
def Pins.of (x : Sample) (d : BitVec 16 × BitVec 16) : Pins where
  rst := false
  spiClk := x.clk
  spiPico := x.pico
  spiCs := x.cs
  pitchData := d.1
  yawData := d.2

section Run

variable (s : SpiSlave) (x : ℕ → Sample) (d : ℕ → BitVec 16 × BitVec 16)

/-- The registers before clock `n` of a run without reset. -/
def run (n : ℕ) : SpiSlave := trace (step MAX_COUNT) s (fun m => Pins.of (x m) (d m)) n

/-- The samples the slave behind the synchronisers sees. -/
def late (n : ℕ) : Sample := late2 s.synced.stage₀ s.synced.stage₁ x n

theorem core_run (n : ℕ) :
    (run MAX_COUNT s x d n).synced.core =
      trace Lib.Spi.step s.synced.core (fun m => (late s x m, (d m).1 ++ (d m).2)) n := by
  have hstep : ∀ (s : SpiSlave) (n : ℕ), (step MAX_COUNT s (Pins.of (x n) (d n))).synced =
      sync2 Lib.Spi.step s.synced (x n, (d n).1 ++ (d n).2) :=
    fun s n => synced_step MAX_COUNT s _ rfl
  have h := trace_map synced (fun i : Pins => (i.sample, i.pitchData ++ i.yawData)) hstep s n
  rw [run, h]
  exact congrArg Synced.core
    (trace_sync2 Lib.Spi.step s.synced x (fun m => (d m).1 ++ (d m).2) n)

end Run

/-! ### Only complete frames take effect -/

/-- After a reset the synchronisers hold two samples of an idle line, and the slave is idle. -/
lemma synced_reset : (reset MAX_COUNT).synced =
    { stage₀ := ⟨true, false, false⟩
      stage₁ := ⟨true, false, false⟩
      core := ⟨false, true, 0, 0, false, MAX_COUNT >>> 1 ++ MAX_COUNT >>> 1, 0⟩ } := by
  simp [synced, reset]

theorem pwm_run (x : ℕ → Sample) (d : ℕ → BitVec 16 × BitVec 16) (n : ℕ) :
    (run MAX_COUNT (reset MAX_COUNT) x d n).pitchPwm ++
        (run MAX_COUNT (reset MAX_COUNT) x d n).yawPwm =
      lastFrame (MAX_COUNT >>> 1 ++ MAX_COUNT >>> 1) false (samples x (n - 3)) := by
  have hcore := core_run MAX_COUNT (reset MAX_COUNT) x d n
  have hidle : Idle (reset MAX_COUNT).synced.core := by rw [synced_reset]; exact ⟨rfl, rfl, rfl⟩
  have hword : (run MAX_COUNT (reset MAX_COUNT) x d n).pitchPwm ++
      (run MAX_COUNT (reset MAX_COUNT) x d n).yawPwm =
        (run MAX_COUNT (reset MAX_COUNT) x d n).synced.core.word := rfl
  rw [hword, hcore]
  rcases n with _ | n
  · rfl
  · have hlate : frames 32 false (samples (late (reset MAX_COUNT) x) n) =
        frames 32 false (samples x (n - 2)) := by
      unfold late
      rw [synced_reset]
      exact frames_late2 rfl rfl false rfl x n
    rw [word_trace _ _ (by decide) hidle, synced_reset, lastFrame, lastFrame, hlate,
      show n + 1 - 3 = n - 2 by omega]

/-- **Only complete frames take effect.** After a reset, for every stream of sampled lines: the
pair of PWM registers is, three clocks late, the last complete group of 32 bits, or the midpoint
twice if there is none; if it changes, one group was completed and both halves are loaded from it;
and after a sample with high `SPI_CS` the groups are cut anew, whatever came before. -/
theorem only_complete_frames (x : ℕ → Sample) (d : ℕ → BitVec 16 × BitVec 16) :
    (∀ n, (run MAX_COUNT (reset MAX_COUNT) x d n).pitchPwm ++
        (run MAX_COUNT (reset MAX_COUNT) x d n).yawPwm =
      lastFrame (MAX_COUNT >>> 1 ++ MAX_COUNT >>> 1) false (samples x (n - 3))) ∧
    (∀ n, ((run MAX_COUNT (reset MAX_COUNT) x d (n + 1)).pitchPwm =
          (run MAX_COUNT (reset MAX_COUNT) x d n).pitchPwm ∧
        (run MAX_COUNT (reset MAX_COUNT) x d (n + 1)).yawPwm =
          (run MAX_COUNT (reset MAX_COUNT) x d n).yawPwm) ∨
      ∃ g, frames 32 false (samples x (n + 1 - 3)) =
          frames 32 false (samples x (n - 3)) ++ [g] ∧
        (run MAX_COUNT (reset MAX_COUNT) x d (n + 1)).pitchPwm = (wordOf 32 g).extractLsb 31 16 ∧
        (run MAX_COUNT (reset MAX_COUNT) x d (n + 1)).yawPwm = (wordOf 32 g).extractLsb 15 0) ∧
    (∀ m k, (x m).cs = true →
      frames 32 false (samples x (m + 1 + k)) = frames 32 false (samples x m) ++
        frames 32 (x m).clk (samples (fun j => x (m + 1 + j)) k)) := by
  refine ⟨pwm_run MAX_COUNT x d, ?_, ?_⟩
  · intro n
    have hnow := pwm_run MAX_COUNT x d n
    have hnext := pwm_run MAX_COUNT x d (n + 1)
    obtain ⟨hp, hy⟩ := halves_append (run MAX_COUNT (reset MAX_COUNT) x d n).pitchPwm
      (run MAX_COUNT (reset MAX_COUNT) x d n).yawPwm
    obtain ⟨hp', hy'⟩ := halves_append (run MAX_COUNT (reset MAX_COUNT) x d (n + 1)).pitchPwm
      (run MAX_COUNT (reset MAX_COUNT) x d (n + 1)).yawPwm
    have hcase : frames 32 false (samples x (n + 1 - 3)) = frames 32 false (samples x (n - 3)) ∨
        ∃ g, frames 32 false (samples x (n + 1 - 3)) =
          frames 32 false (samples x (n - 3)) ++ [g] := by
      rcases Nat.lt_or_ge n 3 with h | h
      · exact .inl (by rw [show n + 1 - 3 = n - 3 by omega])
      · rw [show n + 1 - 3 = n - 3 + 1 by omega, samples_succ]
        exact frames_append (by decide) false _ _
    rcases hcase with h | ⟨g, h⟩
    · rw [lastFrame, h, ← lastFrame, ← hnow] at hnext
      rw [hnext] at hp' hy'
      exact .inl ⟨hp'.symm.trans hp, hy'.symm.trans hy⟩
    · rw [lastFrame, h, List.getLast?_append, List.getLast?_singleton] at hnext
      rw [hnext] at hp' hy'
      exact .inr ⟨g, h, hp'.symm, hy'.symm⟩
  · intro m k hm
    rw [samples_add]
    exact frames_append_cons _ _ hm _

end SpiSlave

end PanTilt.Fpga
