import PanTilt.Fpga.SpiSlave
import PanTilt.Lib.Lanes

/-!
`SPI_Slave` of `spi_slave.v`: the interface that takes and gives one byte at a time.

The received bytes go to the four halves of the two PWM registers in turn, counted since the last
reset, and each window sends the byte of the encoder counts that is due, counted in windows. Neither
count starts anew with a window.

* `Sim.step`: up to the words, the module is the serial slave of the library, two edges late.
* `lanes_run`: the PWM registers after any stream of samples are the received bytes dealt to the
  four halves, and `frame_stored_iff` says which frames of four bytes are stored as they were sent.
* `readState_run`: the byte that is due, by the number of windows that have ended.
* `agrees_with_frames`: the registers are those of `spi_slave_32bit.v` while all frames are whole.
-/

namespace PanTilt.Fpga

open Lib Lib.Clocked Lib.Words Lib.Spi

/-- The states of the two state machines (`WRITE_PITCH1` and so on): the byte that is due. -/
inductive ByteState
  | pitch1
  | pitch2
  | yaw1
  | yaw2
  deriving DecidableEq

namespace ByteState

/-- The state after the byte. -/
def next : ByteState → ByteState
  | pitch1 => pitch2
  | pitch2 => yaw1
  | yaw1 => yaw2
  | yaw2 => pitch1

/-- The byte of a pair of words that is due. -/
def select : ByteState → BitVec 16 → BitVec 16 → BitVec 8
  | pitch1, pitch, _ => pitch.extractLsb 15 8
  | pitch2, pitch, _ => pitch.extractLsb 7 0
  | yaw1, _, yaw => yaw.extractLsb 15 8
  | yaw2, _, yaw => yaw.extractLsb 7 0

/-- The number of the state. -/
def place : ByteState → ZMod 4
  | pitch1 => (0 : ℕ)
  | pitch2 => (1 : ℕ)
  | yaw1 => (2 : ℕ)
  | yaw2 => (3 : ℕ)

/-- The state with a number. -/
def ofPlace (j : ZMod 4) : ByteState :=
  if j = (0 : ℕ) then pitch1
  else if j = (1 : ℕ) then pitch2
  else if j = (2 : ℕ) then yaw1
  else yaw2

lemma place_next (q : ByteState) : q.next.place = q.place + 1 := by cases q <;> rfl

lemma ofPlace_eq_iff : ∀ (j : ZMod 4) (q : ByteState), ofPlace j = q ↔ j = q.place := by
  intro j q
  cases q <;> revert j <;> decide

end ByteState

/-- The registers of `SPI_Slave`. -/
structure SpiSlaveBytes where
  spiClkr : BitVec 3
  spiCsr : BitVec 3
  spiPicor : BitVec 2
  bitcnt : BitVec 3
  byteReceived : Bool
  byteDataReceived : BitVec 8
  currentWriteState : ByteState
  currentReadState : ByteState
  pitchPwm : BitVec 16
  yawPwm : BitVec 16
  byteDataSent : BitVec 8
  deriving DecidableEq

namespace SpiSlaveBytes

open SpiSlave (Pins edge_rising edge_falling shift3 shift2)

variable (MAX_COUNT : BitVec 16)

def spiClkRisingedge (s : SpiSlaveBytes) : Bool := s.spiClkr.extractLsb 2 1 == 0b01#2
def spiClkFallingedge (s : SpiSlaveBytes) : Bool := s.spiClkr.extractLsb 2 1 == 0b10#2
def spiCsActive (s : SpiSlaveBytes) : Bool := !s.spiCsr.getLsbD 1
def spiCsStartmessage (s : SpiSlaveBytes) : Bool := s.spiCsr.extractLsb 2 1 == 0b10#2
def spiCsEndmessage (s : SpiSlaveBytes) : Bool := s.spiCsr.extractLsb 2 1 == 0b01#2
def spiPicoData (s : SpiSlaveBytes) : Bool := s.spiPicor.getLsbD 1

/-- The data line back to the master. -/
def spiPoci (s : SpiSlaveBytes) : Bool := s.byteDataSent.getLsbD 7

def nextWriteState (s : SpiSlaveBytes) : ByteState :=
  if s.byteReceived then s.currentWriteState.next else s.currentWriteState

def nextReadState (s : SpiSlaveBytes) : ByteState :=
  if s.spiCsEndmessage then s.currentReadState.next else s.currentReadState

/-- One rising edge of `clk`. A reset leaves the synchronisers and the received bits alone. -/
def step (s : SpiSlaveBytes) (i : Pins) : SpiSlaveBytes where
  spiClkr := s.spiClkr.shiftConcat i.spiClk
  spiCsr := s.spiCsr.shiftConcat i.spiCs
  spiPicor := s.spiPicor.shiftConcat i.spiPico
  bitcnt :=
    if !s.spiCsActive then 0
    else if s.spiClkRisingedge then s.bitcnt + 1
    else s.bitcnt
  byteDataReceived :=
    if !s.spiCsActive then s.byteDataReceived
    else if s.spiClkRisingedge then s.byteDataReceived.shiftConcat s.spiPicoData
    else s.byteDataReceived
  byteReceived := s.spiCsActive && s.spiClkRisingedge && s.bitcnt == 7
  currentWriteState :=
    if i.rst then .pitch1
    else if s.byteReceived then s.nextWriteState
    else s.currentWriteState
  pitchPwm :=
    if i.rst then MAX_COUNT >>> 1
    else if s.byteReceived then
      match s.currentWriteState with
      | .pitch1 => s.byteDataReceived ++ s.pitchPwm.extractLsb 7 0
      | .pitch2 => s.pitchPwm.extractLsb 15 8 ++ s.byteDataReceived
      | .yaw1 => s.pitchPwm
      | .yaw2 => s.pitchPwm
    else s.pitchPwm
  yawPwm :=
    if i.rst then MAX_COUNT >>> 1
    else if s.byteReceived then
      match s.currentWriteState with
      | .pitch1 => s.yawPwm
      | .pitch2 => s.yawPwm
      | .yaw1 => s.byteDataReceived ++ s.yawPwm.extractLsb 7 0
      | .yaw2 => s.yawPwm.extractLsb 15 8 ++ s.byteDataReceived
    else s.yawPwm
  currentReadState :=
    if i.rst then .pitch1
    else if s.spiCsEndmessage then s.nextReadState
    else s.currentReadState
  byteDataSent :=
    if s.spiCsActive then
      if s.spiCsStartmessage then s.currentReadState.select i.pitchData i.yawData
      else if s.spiClkFallingedge then s.byteDataSent.shiftConcat false
      else s.byteDataSent
    else s.byteDataSent

/-! ### The module simulates the serial slave -/

/-- The two stages of the synchronisers. -/
def stages (s : SpiSlaveBytes) : Synced Sample Unit where
  stage₀ := ⟨s.spiCsr.getLsbD 0, s.spiClkr.getLsbD 0, s.spiPicor.getLsbD 0⟩
  stage₁ := ⟨s.spiCsr.getLsbD 1, s.spiClkr.getLsbD 1, s.spiPicor.getLsbD 1⟩
  core := ()

/-- The registers behind the synchronisers are those of the serial slave, whose word the module does
not keep. What it sends is that of the slave inside a window. -/
structure Sim (s : SpiSlaveBytes) (c : Slave 8) : Prop where
  clk : c.clk = s.spiClkr.getLsbD 2
  cs : c.cs = s.spiCsr.getLsbD 2
  cnt : c.cnt = s.bitcnt.toNat
  shift : c.shift = s.byteDataReceived
  got : c.got = s.byteReceived
  sent : c.cs = false → c.sent = s.byteDataSent

lemma stages_step (s : SpiSlaveBytes) (i : Pins) :
    (step MAX_COUNT s i).stages =
      sync2 (fun (u : Unit) (_ : Sample × Unit) => u) s.stages (i.sample, ()) := by
  obtain ⟨hk₀, hk₁, -⟩ := shift3 s.spiClkr i.spiClk
  obtain ⟨hc₀, hc₁, -⟩ := shift3 s.spiCsr i.spiCs
  obtain ⟨hp₀, hp₁⟩ := shift2 s.spiPicor i.spiPico
  simp only [stages, step, sync2, Pins.sample, BitVec.getLsbD_eq_getElem, Nat.reduceLT, hk₀, hk₁,
    hc₀, hc₁, hp₀, hp₁]

/-- **One edge of the module is one edge of the serial slave**, on the older stage of the
synchronisers and with the byte that is due. -/
theorem Sim.step {s : SpiSlaveBytes} {c : Slave 8} (h : Sim s c) (i : Pins) :
    Sim (s.step MAX_COUNT i) (Lib.Spi.step c (s.stages.stage₁,
      s.currentReadState.select i.pitchData i.yawData)) := by
  obtain ⟨-, -, hk₂⟩ := shift3 s.spiClkr i.spiClk
  obtain ⟨-, -, hc₂⟩ := shift3 s.spiCsr i.spiCs
  have h7 : (s.bitcnt == 7) = (s.bitcnt.toNat == 7) := by
    rw [Bool.eq_iff_iff, beq_iff_eq, beq_iff_eq, ← BitVec.toNat_inj]
    rfl
  have hk : c.clk = s.spiClkr[2] := h.clk
  have hc : c.cs = s.spiCsr[2] := h.cs
  refine ⟨hk₂.symm, hc₂.symm, ?_, ?_, ?_, ?_⟩
  · simp only [Lib.Spi.step, SpiSlaveBytes.step, stages, spiCsActive, spiClkRisingedge, edge_rising,
      BitVec.getLsbD_eq_getElem, Nat.reduceLT, hk, h.cnt]
    generalize (!s.spiClkr[2] && s.spiClkr[1]) = rising
    rcases s.spiCsr[1] with _ | _
    · rcases rising with _ | _
      · simp
      · simp
    · simp
  · simp only [Lib.Spi.step, SpiSlaveBytes.step, stages, spiCsActive, spiClkRisingedge, edge_rising,
      spiPicoData, BitVec.getLsbD_eq_getElem, Nat.reduceLT, hk, h.shift]
    rcases s.spiCsr[1] with _ | _ <;> simp
  · simp only [Lib.Spi.step, SpiSlaveBytes.step, stages, spiCsActive, spiClkRisingedge, edge_rising,
      BitVec.getLsbD_eq_getElem, Nat.reduceLT, hk, h.cnt, h7]
  · intro hcs
    have hlow : s.spiCsr[1] = false := hcs
    simp only [Lib.Spi.step, SpiSlaveBytes.step, stages, spiCsActive, spiCsStartmessage,
      spiClkFallingedge, edge_falling, BitVec.getLsbD_eq_getElem, Nat.reduceLT, hk, hc, hlow]
    rcases hprev : s.spiCsr[2] with _ | _
    · simp [h.sent (hc.trans hprev)]
    · simp

section Run

variable (s : SpiSlaveBytes) (x : ℕ → Sample) (d : ℕ → BitVec 16 × BitVec 16)

/-- The registers before clock `n` of a run without reset. -/
def run (n : ℕ) : SpiSlaveBytes := trace (step MAX_COUNT) s (fun m => Pins.of (x m) (d m)) n

lemma run_succ (n : ℕ) : run MAX_COUNT s x d (n + 1) =
    (run MAX_COUNT s x d n).step MAX_COUNT (Pins.of (x n) (d n)) := rfl

/-- The samples the slave behind the synchronisers sees. -/
def late (n : ℕ) : Sample := late2 s.stages.stage₀ s.stages.stage₁ x n

/-- The byte that would be loaded at clock `n`. -/
def due (n : ℕ) : BitVec 8 := (run MAX_COUNT s x d n).currentReadState.select (d n).1 (d n).2

lemma stage_run (n : ℕ) : (run MAX_COUNT s x d n).stages.stage₁ = late s x n := by
  have hstep : ∀ s n, (step MAX_COUNT s (Pins.of (x n) (d n))).stages =
      sync2 (fun (u : Unit) (_ : Sample × Unit) => u) s.stages (x n, ()) :=
    fun s n => stages_step MAX_COUNT s _
  have hstages := trace_map stages (fun i : Pins => (i.sample, ())) hstep s n
  have hlate := trace_sync2 (fun (u : Unit) (_ : Sample × Unit) => u) s.stages x (fun _ => ()) n
  rw [run, hstages]
  exact congrArg Synced.stage₁ hlate

variable {s}

theorem sim_run {c : Slave 8} (h : Sim s c) (n : ℕ) :
    Sim (run MAX_COUNT s x d n)
      (trace Lib.Spi.step c (fun m => (late s x m, due MAX_COUNT s x d m)) n) := by
  induction n with
  | zero => exact h
  | succ n ih =>
    have hstep := ih.step MAX_COUNT (Pins.of (x n) (d n))
    rw [stage_run] at hstep
    exact hstep

end Run

/-! ### Rest -/

/-- A line at rest after a reset. -/
structure AtRest (s : SpiSlaveBytes) : Prop where
  spiCsr : s.spiCsr = 0b111
  spiClkr : s.spiClkr = 0b000
  bitcnt : s.bitcnt = 0
  byteReceived : s.byteReceived = false
  currentWriteState : s.currentWriteState = .pitch1
  currentReadState : s.currentReadState = .pitch1
  pitchPwm : s.pitchPwm = MAX_COUNT >>> 1
  yawPwm : s.yawPwm = MAX_COUNT >>> 1

lemma shift_fill : ∀ (r : BitVec 3) (b : Bool),
    ((r.shiftConcat b).shiftConcat b).shiftConcat b = if b then 0b111 else 0b000 := by
  decide

/-- **A reset over four clocks with an idle line brings the module to rest**, from any content. -/
theorem atRest_of_reset (s : SpiSlaveBytes) {i : ℕ → Pins} (hrst : ∀ n, (i n).rst = true)
    (hcs : ∀ n, (i n).spiCs = true) (hclk : ∀ n, (i n).spiClk = false) (n : ℕ) :
    AtRest MAX_COUNT (trace (step MAX_COUNT) s i (n + 4)) := by
  have hsucc : ∀ n, trace (step MAX_COUNT) s i (n + 1) =
      (trace (step MAX_COUNT) s i n).step MAX_COUNT (i n) := fun n => rfl
  have hcsr : ∀ n, (trace (step MAX_COUNT) s i (n + 3)).spiCsr = 0b111 := by
    intro n
    rw [hsucc, hsucc, hsucc]
    simp only [step, hcs]
    exact shift_fill _ true
  have hclkr : ∀ n, (trace (step MAX_COUNT) s i (n + 3)).spiClkr = 0b000 := by
    intro n
    rw [hsucc, hsucc, hsucc]
    simp only [step, hclk]
    exact shift_fill _ false
  have hinactive : (trace (step MAX_COUNT) s i (n + 3)).spiCsActive = false := by
    simp [spiCsActive, hcsr]
  refine ⟨hcsr (n + 1), hclkr (n + 1), ?_, ?_, ?_, ?_, ?_, ?_⟩
  · rw [hsucc]
    simp [step, hinactive]
  · rw [hsucc]
    simp [step, hinactive]
  · rw [hsucc]
    simp [step, hrst]
  · rw [hsucc]
    simp [step, hrst]
  · rw [hsucc]
    simp [step, hrst]
  · rw [hsucc]
    simp [step, hrst]

/-! ### Received bytes -/

/-- The four halves of the PWM registers, and the one that is due. -/
def lanes (s : SpiSlaveBytes) : Lanes 4 (BitVec 8) where
  place := s.currentWriteState.place
  lane j := (ByteState.ofPlace j).select s.pitchPwm s.yawPwm

lemma lane_lanes (s : SpiSlaveBytes) (j : ZMod 4) :
    s.lanes.lane j = (ByteState.ofPlace j).select s.pitchPwm s.yawPwm := rfl

lemma high_append (hi lo : BitVec 8) : (hi ++ lo).extractLsb 15 8 = hi :=
  BitVec.extractLsb'_append_eq_left

lemma low_append (hi lo : BitVec 8) : (hi ++ lo).extractLsb 7 0 = lo :=
  BitVec.extractLsb'_append_eq_right

lemma append_bytes (v : BitVec 16) : v.extractLsb 15 8 ++ v.extractLsb 7 0 = v :=
  @BitVec.extractLsb'_append_extractLsb' 8 8 v

/-- A received byte changes the half that is due, and no other. -/
lemma select_step {s : SpiSlaveBytes} {i : Pins} (h : i.rst = false) (hgot : s.byteReceived = true)
    (q : ByteState) :
    q.select (s.step MAX_COUNT i).pitchPwm (s.step MAX_COUNT i).yawPwm =
      if q = s.currentWriteState then s.byteDataReceived else q.select s.pitchPwm s.yawPwm := by
  simp only [step, h, hgot, if_true, Bool.false_eq_true, if_false]
  cases s.currentWriteState <;> cases q <;>
    simp only [ByteState.select, reduceCtorEq, if_true, if_false] <;>
    first | exact high_append _ _ | exact low_append _ _

theorem lanes_step (s : SpiSlaveBytes) (i : Pins) (h : i.rst = false) :
    (s.step MAX_COUNT i).lanes =
      if s.byteReceived then s.lanes.put s.byteDataReceived else s.lanes := by
  by_cases hgot : s.byteReceived = true
  · rw [if_pos hgot]
    have hplace : (s.step MAX_COUNT i).currentWriteState = s.currentWriteState.next := by
      simp [step, h, hgot, nextWriteState]
    refine Lanes.ext ?_ (funext fun j => ?_)
    · rw [lanes, hplace, ByteState.place_next]
      rfl
    · have hdue : ByteState.ofPlace j = s.currentWriteState ↔ j = s.lanes.place :=
        ByteState.ofPlace_eq_iff j s.currentWriteState
      rw [Lanes.lane_put, lane_lanes, select_step MAX_COUNT h hgot]
      by_cases hj : j = s.lanes.place
      · rw [if_pos (hdue.2 hj), hj, Function.update_self]
      · rw [if_neg (mt hdue.1 hj), Function.update_of_ne hj, lane_lanes]
  · simp only [lanes, step, h, hgot, Bool.false_eq_true, if_false]

section Bytes

variable {MAX_COUNT} {s : SpiSlaveBytes} (hs : AtRest MAX_COUNT s) (x : ℕ → Sample)
  (d : ℕ → BitVec 16 × BitVec 16)

/-- The complete bytes of a stream of samples before sample `n`. -/
def bytes (x : ℕ → Sample) (n : ℕ) : List (BitVec 8) :=
  (frames 8 false (samples x n)).map (wordOf 8)

/-- The serial slave that a module at rest simulates. -/
def restSlave (s : SpiSlaveBytes) : Slave 8 where
  clk := false
  cs := true
  cnt := 0
  shift := s.byteDataReceived
  got := false
  word := 0
  sent := 0

include hs

lemma AtRest.sim : Sim s (restSlave s) := by
  refine ⟨?_, ?_, ?_, rfl, hs.byteReceived.symm, fun h => ?_⟩
  · rw [hs.spiClkr]
    rfl
  · rw [hs.spiCsr]
    rfl
  · rw [hs.bitcnt]
    rfl
  · exact absurd h (by simp [restSlave])

lemma AtRest.stages : s.stages.stage₀.cs = true ∧ s.stages.stage₁.cs = true ∧
    s.stages.stage₀.clk = false := by
  simp [SpiSlaveBytes.stages, hs.spiCsr, hs.spiClkr]

/-- **The PWM registers after any stream of samples**, three clocks late: all complete bytes since
the reset, dealt to the four halves in turn, whatever the windows are in which they came. -/
theorem lanes_run (n : ℕ) :
    (run MAX_COUNT s x d n).lanes = s.lanes.deal (bytes x (n - 3)) := by
  have hsim := sim_run MAX_COUNT x d hs.sim
  obtain ⟨hcs₀, hcs₁, hclk⟩ := hs.stages
  have hidle : Idle (restSlave s) := ⟨rfl, rfl, rfl⟩
  have hput : ∀ n, (run MAX_COUNT s x d (n + 1)).lanes =
      if (trace Lib.Spi.step (restSlave s)
        (fun m => (late s x m, due MAX_COUNT s x d m)) n).got
      then (run MAX_COUNT s x d n).lanes.put (trace Lib.Spi.step (restSlave s)
        (fun m => (late s x m, due MAX_COUNT s x d m)) n).shift
      else (run MAX_COUNT s x d n).lanes := by
    intro n
    rw [run_succ, lanes_step MAX_COUNT _ _ rfl, (hsim n).got, (hsim n).shift]
  rcases n with _ | n
  · simp [run, bytes, frames, windows, withPrev, bitsAt]
  · have hconsumed := consumed_trace Lanes.put (late s x) (due MAX_COUNT s x d) (by decide) hidle
      (b := fun n => (run MAX_COUNT s x d n).lanes) hput n
    have hlate : frames 8 false (samples (late s x) n) = frames 8 false (samples x (n - 2)) :=
      frames_late2 hcs₀ hcs₁ false hclk x n
    rw [show (restSlave s).clk = false from rfl, hlate] at hconsumed
    rw [show n + 1 - 3 = n - 2 by omega]
    exact hconsumed

/-- The PWM registers that a frame of four bytes leaves after `k` other bytes. -/
def dealt (k : ℕ) (b₀ b₁ b₂ b₃ : BitVec 8) : BitVec 16 × BitVec 16 :=
  match k % 4 with
  | 0 => (b₀ ++ b₁, b₂ ++ b₃)
  | 1 => (b₃ ++ b₀, b₁ ++ b₂)
  | 2 => (b₂ ++ b₃, b₀ ++ b₁)
  | _ => (b₁ ++ b₂, b₃ ++ b₀)

omit hs in
lemma pair_eq_of_lanes {t : SpiSlaveBytes} {c₀ c₁ c₂ c₃ : BitVec 8} (h₀ : t.lanes.lane 0 = c₀)
    (h₁ : t.lanes.lane 1 = c₁) (h₂ : t.lanes.lane 2 = c₂) (h₃ : t.lanes.lane 3 = c₃) :
    (t.pitchPwm, t.yawPwm) = (c₀ ++ c₁, c₂ ++ c₃) := by
  rw [← h₀, ← h₁, ← h₂, ← h₃]
  exact Prod.ext (append_bytes t.pitchPwm).symm (append_bytes t.yawPwm).symm

/-- **A frame of four bytes is stored rotated** by the number of bytes before it. -/
theorem frame_dealt {n : ℕ} {as : List (BitVec 8)} {b₀ b₁ b₂ b₃ : BitVec 8}
    (hbytes : bytes x (n - 3) = as ++ [b₀, b₁, b₂, b₃]) :
    ((run MAX_COUNT s x d n).pitchPwm, (run MAX_COUNT s x d n).yawPwm) =
      dealt as.length b₀ b₁ b₂ b₃ := by
  have hplace : s.lanes.place = 0 := by
    rw [lanes, hs.currentWriteState]
    rfl
  have hlane : ∀ i (hi : i < [b₀, b₁, b₂, b₃].length),
      (run MAX_COUNT s x d n).lanes.lane ((as.length + i : ℕ) : ZMod 4) = [b₀, b₁, b₂, b₃][i] := by
    intro i hi
    have hdeal := Lanes.lane_deal_append s.lanes as rfl hi
    rw [hplace, zero_add, ← hbytes, ← lanes_run hs x d n] at hdeal
    rw [← hdeal]
    push_cast
    rfl
  have hcast : ∀ i j, as.length % 4 = i →
      ((as.length + j : ℕ) : ZMod 4) = ((i + j : ℕ) : ZMod 4) := by
    intro i j hi
    rw [ZMod.natCast_eq_natCast_iff']
    omega
  have h₀ := hlane 0 (by simp)
  have h₁ := hlane 1 (by simp)
  have h₂ := hlane 2 (by simp)
  have h₃ := hlane 3 (by simp)
  unfold dealt
  have hcases : as.length % 4 = 0 ∨ as.length % 4 = 1 ∨ as.length % 4 = 2 ∨ as.length % 4 = 3 := by
    omega
  rcases hcases with hk | hk | hk | hk <;>
    rw [hcast _ _ hk] at h₀ h₁ h₂ h₃ <;> simp only [hk]
  · exact pair_eq_of_lanes h₀ h₁ h₂ h₃
  · exact pair_eq_of_lanes h₃ h₀ h₁ h₂
  · exact pair_eq_of_lanes h₂ h₃ h₀ h₁
  · exact pair_eq_of_lanes h₁ h₂ h₃ h₀

omit hs in
lemma dealt_of_dvd {k : ℕ} (hk : 4 ∣ k) (b₀ b₁ b₂ b₃ : BitVec 8) :
    dealt k b₀ b₁ b₂ b₃ = (b₀ ++ b₁, b₂ ++ b₃) := by
  simp only [dealt, Nat.mod_eq_zero_of_dvd hk]

/-- **When a frame is stored as it was sent**: the number of complete bytes before it, since the
reset and over all windows, is a multiple of four, or the rotation does not move its bytes. A byte
too many or too few is never made good, as every later frame is preceded by it. -/
theorem frame_stored_iff {n : ℕ} {as : List (BitVec 8)} {b₀ b₁ b₂ b₃ : BitVec 8}
    (hbytes : bytes x (n - 3) = as ++ [b₀, b₁, b₂, b₃]) :
    ((run MAX_COUNT s x d n).pitchPwm = b₀ ++ b₁ ∧ (run MAX_COUNT s x d n).yawPwm = b₂ ++ b₃) ↔
      4 ∣ as.length ∨ (2 ∣ as.length ∧ b₀ = b₂ ∧ b₁ = b₃) ∨ (b₀ = b₁ ∧ b₁ = b₂ ∧ b₂ = b₃) := by
  have hpair := frame_dealt hs x d hbytes
  have happend : ∀ a b a' b' : BitVec 8, a ++ b = a' ++ b' ↔ a = a' ∧ b = b' := by
    intro a b a' b'
    refine ⟨fun h => ⟨?_, ?_⟩, fun h => by rw [h.1, h.2]⟩
    · rw [← high_append a b, h, high_append]
    · rw [← low_append a b, h, low_append]
  rw [← Prod.mk.injEq, hpair]
  unfold dealt
  have hcases : as.length % 4 = 0 ∨ as.length % 4 = 1 ∨ as.length % 4 = 2 ∨ as.length % 4 = 3 := by
    omega
  have h4 : 4 ∣ as.length ↔ as.length % 4 = 0 := Nat.dvd_iff_mod_eq_zero
  have h2 : 2 ∣ as.length ↔ as.length % 4 = 0 ∨ as.length % 4 = 2 := by omega
  rw [h4, h2]
  rcases hcases with hk | hk | hk | hk <;>
    simp only [hk, Prod.mk.injEq, happend]
  · simp
  · constructor
    · rintro ⟨⟨rfl, rfl⟩, rfl, -⟩
      simp
    · intro h
      simp_all
  · constructor
    · rintro ⟨⟨rfl, rfl⟩, -, -⟩
      simp
    · intro h
      rcases h with h | h | h
      · simp at h
      · exact ⟨⟨h.2.1.symm, h.2.2.symm⟩, h.2.1, h.2.2⟩
      · simp [h.1, h.2.1, h.2.2]
  · constructor
    · rintro ⟨⟨rfl, rfl⟩, rfl, -⟩
      simp
    · intro h
      simp_all

/-! ### Sent bytes -/

omit hs in
theorem readState_run (hcsr : s.spiCsr = 0b111) (n : ℕ) :
    (run MAX_COUNT s x d n).currentReadState.place =
      s.currentReadState.place + (ends true (samples x (n - 2)) : ℕ) := by
  obtain ⟨hcs₀, hcs₁⟩ : s.stages.stage₀.cs = true ∧ s.stages.stage₁.cs = true := by
    simp [SpiSlaveBytes.stages, hcsr]
  -- the samples behind the synchroniser, and the register of the one before
  have hlate : ∀ n, ends true (samples (late s x) n) = ends true (samples x (n - 2)) := by
    intro n
    rcases n with _ | _ | n
    · rfl
    · simp [samples, ends, late, late2, hcs₁]
    · have hcut : samples (late s x) (n + 2) =
          s.stages.stage₁ :: s.stages.stage₀ :: samples x n := samples_late2 _ _ x n
      rw [Nat.add_assoc, hcut]
      simp [ends, hcs₀, hcs₁]
  have hprev : ∀ n, (run MAX_COUNT s x d n).spiCsr[2] = lastCs true (samples (late s x) n) := by
    intro n
    cases n with
    | zero =>
      show s.spiCsr[2] = true
      simp [hcsr]
    | succ n =>
      rw [samples_succ, lastCs_append, ← stage_run MAX_COUNT s x d n, run_succ]
      exact (shift3 _ _).2.2
  rw [← hlate]
  induction n with
  | zero =>
    simp [run, ends]
  | succ n ih =>
    have hstage : (run MAX_COUNT s x d n).spiCsr[1] = (late s x n).cs :=
      congrArg Sample.cs (stage_run MAX_COUNT s x d n)
    have hend : (run MAX_COUNT s x d n).spiCsEndmessage =
        ((late s x n).cs && !lastCs true (samples (late s x) n)) := by
      rw [spiCsEndmessage, edge_rising, hprev, hstage, Bool.and_comm]
    have hstep : (run MAX_COUNT s x d (n + 1)).currentReadState =
        if (run MAX_COUNT s x d n).spiCsEndmessage
        then (run MAX_COUNT s x d n).currentReadState.next
        else (run MAX_COUNT s x d n).currentReadState := by
      rw [run_succ]
      by_cases h : (run MAX_COUNT s x d n).spiCsEndmessage <;>
        simp [step, nextReadState, h, Pins.of]
    rw [samples_succ, ends_append, hstep, hend]
    split
    · rw [ByteState.place_next, ih]
      push_cast
      rw [add_assoc]
    · rw [ih, Nat.add_zero]

/-! ### The two versions of the module -/

omit hs in
lemma exists_four_bytes {g : List Bool} (hg : g.length = 32) :
    ∃ b₀ b₁ b₂ b₃ : BitVec 8, (groups 8 g).map (wordOf 8) = [b₀, b₁, b₂, b₃] ∧
      wordOf 32 g = (b₀ ++ b₁) ++ (b₂ ++ b₃) := by
  obtain ⟨g₀, g₁, g₂, g₃, h₀, h₁, h₂, h₃, rfl⟩ : ∃ g₀ g₁ g₂ g₃ : List Bool, g₀.length = 8 ∧
      g₁.length = 8 ∧ g₂.length = 8 ∧ g₃.length = 8 ∧ g = (g₀ ++ g₁) ++ (g₂ ++ g₃) := by
    refine ⟨g.take 8, (g.drop 8).take 8, ((g.drop 8).drop 8).take 8, ((g.drop 8).drop 8).drop 8,
      ?_, ?_, ?_, ?_, ?_⟩
    · simp [hg]
    · simp [hg]
    · simp [hg]
    · simp [hg]
    · rw [List.append_assoc, ← List.append_assoc (List.take 8 (g.drop 8)), List.append_assoc,
        List.take_append_drop, List.take_append_drop, List.take_append_drop]
  refine ⟨wordOf 8 g₀, wordOf 8 g₁, wordOf 8 g₂, wordOf 8 g₃, ?_, ?_⟩
  · have hone : ∀ {a : List Bool}, a.length = 8 → groups 8 a = [a] := groups_of_length (by decide)
    have htwo : ∀ {a : List Bool} (b : List Bool), a.length = 8 →
        groups 8 (a ++ b) = a :: groups 8 b := fun b ha => by
      rw [groups_append (by decide) ⟨1, ha⟩, hone ha, List.singleton_append]
    rw [List.append_assoc, htwo _ h₀, htwo _ h₁, htwo _ h₂, hone h₃]
    rfl
  · have hleft := wordOf_append h₀ h₁
    have hright := wordOf_append h₂ h₃
    have hl : (g₀ ++ g₁).length = 16 := by rw [List.length_append, h₀, h₁]
    have hr : (g₂ ++ g₃).length = 16 := by rw [List.length_append, h₂, h₃]
    rw [← hleft, ← hright]
    exact wordOf_append hl hr

omit hs in
/-- In windows of complete frames the complete bytes are those of the frames. -/
lemma bytes_eq_frames {k : ℕ} (h : ∀ W ∈ windows false (samples x k), 32 ∣ W.length) :
    bytes x k =
      (frames 32 false (samples x k)).flatMap fun g => (groups 8 g).map (wordOf 8) := by
  have hgroups : ∀ W ∈ windows false (samples x k), groups 8 W = (groups 32 W).flatMap (groups 8) :=
    fun W hW => @groups_mul 8 4 (by decide) (by decide) W (h W hW)
  rw [bytes, frames, frames, List.flatMap_congr hgroups]
  simp only [List.map_flatMap, List.flatMap_assoc]

/-- **The two versions agree on complete frames.** As long as every window brings whole groups of
32 bits, the registers of this module are those of `spi_slave_32bit.v` on the same lines. -/
theorem agrees_with_frames (d' : ℕ → BitVec 16 × BitVec 16) {n : ℕ}
    (h : ∀ W ∈ windows false (samples x (n - 3)), 32 ∣ W.length) :
    (run MAX_COUNT s x d n).pitchPwm =
        (SpiSlave.run MAX_COUNT (SpiSlave.reset MAX_COUNT) x d' n).pitchPwm ∧
      (run MAX_COUNT s x d n).yawPwm =
        (SpiSlave.run MAX_COUNT (SpiSlave.reset MAX_COUNT) x d' n).yawPwm := by
  have hwords := SpiSlave.pwm_run MAX_COUNT x d' n
  have hbytes := bytes_eq_frames x h
  have hhalves : ∀ (t : SpiSlave) (p y : BitVec 16), t.pitchPwm ++ t.yawPwm = p ++ y →
      t.pitchPwm = p ∧ t.yawPwm = y := by
    intro t p y ht
    obtain ⟨hp, hy⟩ := SpiSlave.halves_append p y
    rw [← ht] at hp hy
    exact ⟨(SpiSlave.halves_append _ _).1.symm.trans hp,
      (SpiSlave.halves_append _ _).2.symm.trans hy⟩
  rcases List.eq_nil_or_concat (frames 32 false (samples x (n - 3))) with hnil | ⟨gs, g, hlast⟩
  · -- no frame yet: both hold the midpoint twice
    have hlanes := lanes_run hs x d n
    rw [hbytes, hnil, List.flatMap_nil, Lanes.deal_nil] at hlanes
    have hpair := pair_eq_of_lanes (t := run MAX_COUNT s x d n)
      (congrFun (congrArg Lanes.lane hlanes) 0) (congrFun (congrArg Lanes.lane hlanes) 1)
      (congrFun (congrArg Lanes.lane hlanes) 2) (congrFun (congrArg Lanes.lane hlanes) 3)
    rw [← pair_eq_of_lanes (t := s) rfl rfl rfl rfl, Prod.mk.injEq, hs.pitchPwm, hs.yawPwm] at hpair
    rw [lastFrame, hnil] at hwords
    obtain ⟨hp, hy⟩ := hhalves _ _ _ hwords
    exact ⟨hpair.1.trans hp.symm, hpair.2.trans hy.symm⟩
  · have hg : ∀ g ∈ frames 32 false (samples x (n - 3)), g.length = 32 := by
      intro g hg
      obtain ⟨W, -, hW⟩ := List.mem_flatMap.1 hg
      exact length_of_mem_groups hW
    rw [List.concat_eq_append] at hlast
    rw [hlast] at hg hbytes
    obtain ⟨b₀, b₁, b₂, b₃, hfour, hword⟩ := exists_four_bytes (hg g (by simp))
    rw [List.flatMap_append, List.flatMap_singleton, hfour] at hbytes
    have hlength : 4 ∣ (gs.flatMap fun g => (groups 8 g).map (wordOf 8)).length := by
      rw [List.length_flatMap]
      apply List.dvd_sum
      intro l hl
      obtain ⟨g', hg', rfl⟩ := List.mem_map.1 hl
      obtain ⟨c₀, c₁, c₂, c₃, hfour', -⟩ := exists_four_bytes (hg g' (by simp [hg']))
      rw [hfour']
      exact ⟨1, rfl⟩
    have hpair := frame_dealt hs x d hbytes
    rw [dealt_of_dvd hlength, Prod.mk.injEq] at hpair
    rw [lastFrame, hlast, List.getLast?_append, List.getLast?_singleton] at hwords
    obtain ⟨hp, hy⟩ := hhalves _ _ _ (hwords.trans hword)
    exact ⟨hpair.1.trans hp.symm, hpair.2.trans hy.symm⟩

end Bytes

/-! ### A window after a reset -/

/-- The module after a reset on an idle line. -/
def bytesAtRest : SpiSlaveBytes where
  spiClkr := 0b000
  spiCsr := 0b111
  spiPicor := 0b00
  bitcnt := 0
  byteReceived := false
  byteDataReceived := 0
  currentWriteState := .pitch1
  currentReadState := .pitch1
  pitchPwm := 2048
  yawPwm := 2048
  byteDataSent := 0

lemma atRest_bytesAtRest : AtRest 4096 bytesAtRest := by
  constructor <;> rfl

/-- Five bytes in one window: the last of them takes the place of the first. -/
def fiveBytes : List (BitVec 8) := [0x01, 0x02, 0x03, 0x04, 0x05]

/-- The registers some clocks after that window. -/
def afterFiveBytes : SpiSlaveBytes :=
  run 4096 bytesAtRest (pulses (fiveBytes.flatMap bitsOf)) (fun _ => (0#16, 0#16)) 90

theorem frame_stored_iff_after_one :
    ¬(afterFiveBytes.pitchPwm = 0x02#8 ++ 0x03#8 ∧
      afterFiveBytes.yawPwm = 0x04#8 ++ 0x05#8) := by
  have hbytes : bytes (pulses (fiveBytes.flatMap bitsOf)) (90 - 3) =
      [0x01#8] ++ [0x02#8, 0x03#8, 0x04#8, 0x05#8] := by decide +kernel
  have hiff := frame_stored_iff atRest_bytesAtRest _ (fun _ => (0#16, 0#16)) hbytes
  rw [afterFiveBytes, hiff]
  decide

theorem agrees_with_frames_pair :
    let x := pulses (bitsOf (0x0900#16 ++ 0x0780#16))
    (run 4096 bytesAtRest x (fun _ => (0#16, 0#16)) 80).pitchPwm =
        (SpiSlave.run 4096 (SpiSlave.reset 4096) x (fun _ => (0#16, 0#16)) 80).pitchPwm ∧
      (run 4096 bytesAtRest x (fun _ => (0#16, 0#16)) 80).yawPwm =
        (SpiSlave.run 4096 (SpiSlave.reset 4096) x (fun _ => (0#16, 0#16)) 80).yawPwm :=
  agrees_with_frames atRest_bytesAtRest (pulses (bitsOf (0x0900#16 ++ 0x0780#16)))
    (fun _ => (0#16, 0#16))
    (fun _ => (0#16, 0#16)) (by decide +kernel)

end SpiSlaveBytes

end PanTilt.Fpga
