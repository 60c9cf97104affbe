import PanTilt.Fpga.SpiSlave

/-!
`SPI_Slave` of `spi_slave_64bit.v`: the interface between the host and the arithmetic unit.

The module is the slave of the motors with words of 64 bits, and refines the same synchronised
serial slave (`synced_step`). What differs is the word: a frame is `{operand2, operand1}`.
-/

namespace PanTilt.Alu

open Lib.Clocked Lib.Words Lib.Spi
open Fpga.SpiSlave (edge_rising edge_falling shift3 shift2)

/-- The registers of `SPI_Slave`. -/
structure SpiSlave where
  spiClkr : BitVec 3
  spiCsr : BitVec 3
  spiPicor : BitVec 2
  bitcnt : BitVec 6
  bytesReceived : Bool
  bytesDataReceived : BitVec 64
  operand1 : BitVec 32
  operand2 : BitVec 32
  byteDataSent : BitVec 64
  deriving DecidableEq

namespace SpiSlave

/-- The input pins. -/
structure Pins where
  rst : Bool
  spiClk : Bool
  spiPico : Bool
  spiCs : Bool
  aluResults : BitVec 64

def spiClkRisingedge (s : SpiSlave) : Bool := s.spiClkr.extractLsb 2 1 == 0b01#2
def spiClkFallingedge (s : SpiSlave) : Bool := s.spiClkr.extractLsb 2 1 == 0b10#2
def spiCsActive (s : SpiSlave) : Bool := !s.spiCsr.getLsbD 1
def spiCsStartmessage (s : SpiSlave) : Bool := s.spiCsr.extractLsb 2 1 == 0b10#2
def spiPicoData (s : SpiSlave) : Bool := s.spiPicor.getLsbD 1

/-- The data line back to the host. -/
def spiPoci (s : SpiSlave) : Bool := s.byteDataSent[63]

/-- The registers after a clock with `rst`. -/
def reset : SpiSlave where
  spiClkr := 0b000
  spiCsr := 0b111
  spiPicor := 0b00
  bitcnt := 0
  bytesReceived := false
  bytesDataReceived := 0
  operand1 := 0
  operand2 := 0
  byteDataSent := 0

/-- One rising edge of `clk`. A shift register `{r[n-2:0], b}` is `r.shiftConcat b`. -/
def step (s : SpiSlave) (i : Pins) : SpiSlave :=
  if i.rst then reset
  else
    { spiClkr := s.spiClkr.shiftConcat i.spiClk
      spiCsr := s.spiCsr.shiftConcat i.spiCs
      spiPicor := s.spiPicor.shiftConcat i.spiPico
      bitcnt :=
        if !s.spiCsActive then 0
        else if s.spiClkRisingedge then s.bitcnt + 1
        else s.bitcnt
      bytesDataReceived :=
        if !s.spiCsActive then s.bytesDataReceived
        else if s.spiClkRisingedge then s.bytesDataReceived.shiftConcat s.spiPicoData
        else s.bytesDataReceived
      bytesReceived := s.spiCsActive && s.spiClkRisingedge && s.bitcnt == 63
      -- `{operand2, operand1} <= bytes_data_received`
      operand2 := if s.bytesReceived then s.bytesDataReceived.extractLsb 63 32 else s.operand2
      operand1 := if s.bytesReceived then s.bytesDataReceived.extractLsb 31 0 else s.operand1
      byteDataSent :=
        if s.spiCsActive then
          if s.spiCsStartmessage then i.aluResults
          else if s.spiClkFallingedge then s.byteDataSent.shiftConcat false
          else s.byteDataSent
        else 0 }

/-- No window is under way: the newest sample of `SPI_CS` is high. Nothing else is asked of the
registers. -/
def idle (s : SpiSlave) : Bool := s.spiCsr.getLsbD 0

/-! ### The module is a synchronised serial slave -/

/-- What the synchronisers sample. -/
def Pins.sample (i : Pins) : Sample := ⟨i.spiCs, i.spiClk, i.spiPico⟩

/-- The stages of the synchronisers and the slave behind them. -/
def synced (s : SpiSlave) : Synced Sample (Slave 64) where
  stage₀ := ⟨s.spiCsr.getLsbD 0, s.spiClkr.getLsbD 0, s.spiPicor.getLsbD 0⟩
  stage₁ := ⟨s.spiCsr.getLsbD 1, s.spiClkr.getLsbD 1, s.spiPicor.getLsbD 1⟩
  core :=
    { clk := s.spiClkr.getLsbD 2
      cs := s.spiCsr.getLsbD 2
      cnt := s.bitcnt.toNat
      shift := s.bytesDataReceived
      got := s.bytesReceived
      word := s.operand2 ++ s.operand1
      sent := s.byteDataSent }

lemma append_operands (v : BitVec 64) : v.extractLsb 63 32 ++ v.extractLsb 31 0 = v :=
  @BitVec.extractLsb'_append_extractLsb' 32 32 v

/-- The first word of a frame is `operand2`. -/
lemma operands_eq {s : SpiSlave} {a b : BitVec 32} (h : s.synced.core.word = a ++ b) :
    s.operand2 = a ∧ s.operand1 = b := by
  have h₂ := congrArg (BitVec.extractLsb' 32 32) h
  have h₁ := congrArg (BitVec.extractLsb' 0 32) h
  rw [BitVec.extractLsb'_append_eq_left] at h₂
  rw [BitVec.extractLsb'_append_eq_right] at h₁
  exact ⟨BitVec.extractLsb'_append_eq_left.symm.trans h₂,
    BitVec.extractLsb'_append_eq_right.symm.trans h₁⟩

theorem synced_step (s : SpiSlave) (i : Pins) (h : i.rst = false) :
    (step s i).synced = sync2 Lib.Spi.step s.synced (i.sample, i.aluResults) := by
  obtain ⟨hk₀, hk₁, hk₂⟩ := shift3 s.spiClkr i.spiClk
  obtain ⟨hc₀, hc₁, hc₂⟩ := shift3 s.spiCsr i.spiCs
  obtain ⟨hp₀, hp₁⟩ := shift2 s.spiPicor i.spiPico
  have hcnt : (s.bitcnt + 1).toNat = (s.bitcnt.toNat + 1) % 64 := by simp [BitVec.toNat_add]
  have h63 : (s.bitcnt == 63) = (s.bitcnt.toNat == 63) := by
    rw [Bool.eq_iff_iff, beq_iff_eq, beq_iff_eq, ← BitVec.toNat_inj]
    rfl
  unfold step
  rw [if_neg (by simp [h])]
  simp only [synced, sync2, Pins.sample, Lib.Spi.step, BitVec.getLsbD_eq_getElem, Nat.reduceLT, hk₀,
    hk₁, hk₂, hc₀, hc₁, hc₂, hp₀, hp₁, spiCsActive, spiClkRisingedge, spiClkFallingedge,
    spiCsStartmessage, spiPicoData, edge_rising, edge_falling]
  congr 2
  · by_cases hc : s.spiCsr[1]
    · simp [hc]
    · by_cases hk : !s.spiClkr[2] && s.spiClkr[1]
      · simp only [hc, hk, Bool.not_false, Bool.false_eq_true, Bool.not_true, if_true, if_false,
          hcnt]
      · simp [hc, hk]
  · by_cases hc : s.spiCsr[1] <;> simp [hc]
  · rw [h63]
  · by_cases hg : s.bytesReceived
    · simp only [hg, if_true]
      exact append_operands _
    · simp [hg]
  · by_cases hc : s.spiCsr[1] <;> simp [hc]

end SpiSlave

end PanTilt.Alu
