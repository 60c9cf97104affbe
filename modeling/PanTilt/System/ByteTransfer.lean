import PanTilt.Fpga.SpiSlaveBytes
import PanTilt.System.SpiTransfer

/-!
The driver against the interface that sends one byte a window.

`read_write_encoder_pwm` makes one window of 32 pulses, and `spi_slave.v` loads its byte at the
start of a window: the driver reads that one byte, and zeros for the other three
(`driver_reads_one_byte`).
-/

namespace PanTilt.System

open App Fpga Lib.Clocked Lib.Words Lib.Spi

/-- The serial slave that the module simulates, from any content. -/
def slaveOf (s : SpiSlaveBytes) : Slave 8 where
  clk := s.spiClkr.getLsbD 2
  cs := s.spiCsr.getLsbD 2
  cnt := s.bitcnt.toNat
  shift := s.byteDataReceived
  got := s.byteReceived
  word := 0#8
  sent := s.byteDataSent

lemma sim_slaveOf (s : SpiSlaveBytes) : SpiSlaveBytes.Sim s (slaveOf s) :=
  ⟨rfl, rfl, rfl, rfl, rfl, fun _ => rfl⟩

lemma ends_eq_zero {x : ℕ → Sample} {k : ℕ}
    (h : ∀ j < k, (x j).cs = true → ∀ i ≤ j, (x i).cs = true) :
    ends true (samples x k) = 0 := by
  induction k with
  | zero => rfl
  | succ k ih =>
    have hlast : (x k).cs = true → lastCs true (samples x k) = true := by
      intro hk
      cases k with
      | zero => rfl
      | succ j =>
        rw [samples_succ, lastCs_append]
        exact h (j + 1) (Nat.lt_succ_self _) hk j (Nat.le_succ j)
    rw [samples_succ, ends_append, ih fun j hj => h j (Nat.lt_succ_of_lt hj)]
    by_cases hk : (x k).cs = true
    · simp [hlast hk]
    · simp [hk]

section ByteTransfer

variable {MAX_COUNT : BitVec 16} {s : SpiSlaveBytes} {d : ℕ → BitVec 16 × BitVec 16} {k : ℕ}
  {W : Window (5 : ℝ) k} {v : Wires ℝ} {poci : ℕ → Bool}

lemma readState_of_lt (hdrive : Mode0 W v) (hk : 0 < k) (hcsr : s.spiCsr = 0b111) {n : ℕ}
    (hn : (n : ℝ) < W.rise 0) :
    (SpiSlaveBytes.run MAX_COUNT s v.sampled d n).currentReadState = s.currentReadState := by
  have hends : ends true (samples v.sampled (n - 2)) = 0 := by
    apply ends_eq_zero
    intro j hj hhigh i hi
    have hjn : (j : ℝ) < W.rise 0 := by
      refine lt_trans ?_ hn
      exact_mod_cast (show j < n by omega)
    have hend : (j : ℝ) < W.csRise := by
      have := W.high 0 hk
      have := W.le_csRise (by norm_num) (i := 1) hk
      linarith
    -- a high sample is not after the fall
    have hle : (j : ℝ) ≤ W.fall 0 := by
      by_contra hlt
      have hlow := hdrive.select j (not_le.1 hlt) hend
      exact absurd (hhigh.symm.trans hlow) (by decide)
    rcases hi.lt_or_eq with hlt | rfl
    · refine hdrive.before i i.cast_nonneg (lt_of_lt_of_le ?_ hle)
      exact_mod_cast hlt
    · exact hhigh
  have hplace : (SpiSlaveBytes.run MAX_COUNT s v.sampled d n).currentReadState.place = _ :=
    SpiSlaveBytes.readState_run v.sampled d hcsr n
  rw [hends, Nat.cast_zero, add_zero] at hplace
  rw [← (ByteState.ofPlace_eq_iff _ _).2 hplace.symm]
  exact (ByteState.ofPlace_eq_iff _ _).2 rfl

lemma selected_at_rise (hdrive : Mode0 W v) {i : ℕ} (hi : i < k) {c : Slave 8}
    {b : ℕ → BitVec 8} {m : ℕ} (hm : W.rise i ≤ m) (hm' : (m : ℝ) ≤ W.rise i + 1) :
    (trace step c (fun m => (SpiSlaveBytes.late s v.sampled m, b m)) m).cs = false := by
  have hstart := W.start
  have hfall := W.fall_mono (by norm_num) (Nat.zero_le i) hi.le
  have hlow := W.low i hi
  have hhigh := W.high i hi
  have hend := W.le_csRise (by norm_num) (Nat.succ_le_of_lt hi)
  have hthree : (3 : ℝ) ≤ m := by linarith
  obtain ⟨j, rfl⟩ : ∃ j, m = j + 3 := Nat.exists_eq_add_of_le' (by exact_mod_cast hthree)
  push_cast at hm hm'
  show (v.sampled j).cs = false
  apply hdrive.select
  · linarith
  · linarith

/-- What the master reads in a window of any number of pulses: the bits of the byte that is due, and
zeros after them. -/
theorem poci_eq (hdrive : Mode0 W v) (hk : 0 < k) (hcsr : s.spiCsr = 0b111)
    (hpoci : ∀ i < k, ReadAt (fun n => (SpiSlaveBytes.run MAX_COUNT s v.sampled d n).spiPoci)
      (W.rise i) (poci i)) :
    ∃ n : ℕ, W.fall 0 + 1 ≤ n ∧ n < W.rise 0 ∧
      ∀ i < k, poci i = (s.currentReadState.select (d n).1 (d n).2).getMsbD i := by
  have hstage : s.stages.stage₀.cs = true := by simp [SpiSlaveBytes.stages, hcsr]
  have hsim := SpiSlaveBytes.sim_run MAX_COUNT v.sampled d (sim_slaveOf s)
  obtain ⟨n, hlo, hhi, hsent⟩ := hdrive.sent (by norm_num) hk (slaveOf s)
    (SpiSlaveBytes.due MAX_COUNT s v.sampled d) s.stages.stage₁ (a := s.stages.stage₀) hstage
  have hdue : SpiSlaveBytes.due MAX_COUNT s v.sampled d n =
      s.currentReadState.select (d n).1 (d n).2 := by
    rw [SpiSlaveBytes.due, readState_of_lt hdrive hk hcsr hhi]
  refine ⟨n, hlo, hhi, fun i hi => ?_⟩
  rw [← hdue]
  obtain ⟨m, hm, hm', hread⟩ := hpoci i hi
  have htop : (SpiSlaveBytes.run MAX_COUNT s v.sampled d m).byteDataSent =
      shiftAll (SpiSlaveBytes.due MAX_COUNT s v.sampled d n) (List.replicate i false) := by
    rw [← hsent i hi m hm' (by linarith)]
    exact ((hsim m).sent (selected_at_rise hdrive hi hm' (by linarith))).symm
  have hbit : poci i = (shiftAll (SpiSlaveBytes.due MAX_COUNT s v.sampled d n)
      (List.replicate i false)).getMsbD 0 := by
    rw [← htop]
    exact hread.symm
  rw [hbit]
  rcases Nat.lt_or_ge i 8 with h8 | h8
  · have hfew : (List.replicate i false).length < 8 := by rwa [List.length_replicate]
    have hmove := getMsbD_shiftAll (SpiSlaveBytes.due MAX_COUNT s v.sampled d n) hfew
    rwa [List.length_replicate] at hmove
  · -- nothing of the byte is left
    rw [BitVec.getMsbD_of_ge _ i h8, BitVec.getMsbD_eq_getLsbD, getLsbD_shiftAll,
      List.length_replicate, if_pos (by omega)]
    simp

end ByteTransfer

/-- **The driver reads one byte of the counts.** Whatever the module holds while its line is idle,
whatever the counts are and in every window of the driver: of the two counts it decodes, the high
byte of the first is the byte that was due, at one clock of the start of the window, and all else is
zero. -/
theorem driver_reads_one_byte {MAX_COUNT : BitVec 16} {s : SpiSlaveBytes}
    {d : ℕ → BitVec 16 × BitVec 16} {W : Window (5 : ℝ) 32} {v : Wires ℝ} {poci : ℕ → Bool}
    (hdrive : Mode0 W v) (hcsr : s.spiCsr = 0b111)
    (hpoci : ∀ i < 32, ReadAt (fun n => (SpiSlaveBytes.run MAX_COUNT s v.sampled d n).spiPoci)
      (W.rise i) (poci i)) :
    ∃ n : ℕ, W.fall 0 + 1 ≤ n ∧ n < W.rise 0 ∧
      decodeRx (rxBuf ((List.range 32).map poci)) =
        (s.currentReadState.select (d n).1 (d n).2 ++ (0 : BitVec 8), 0) := by
  obtain ⟨n, hlo, hhi, hbits⟩ := poci_eq hdrive (by decide) hcsr hpoci
  refine ⟨n, hlo, hhi, ?_⟩
  generalize s.currentReadState.select (d n).1 (d n).2 = byte at hbits ⊢
  have hword : (List.range 32).map poci = bitsOf ((byte ++ (0 : BitVec 8)) ++ (0 : BitVec 16)) := by
    apply map_range_eq_bitsOf
    intro i hi
    rw [hbits i hi, BitVec.getMsbD_append, BitVec.getMsbD_append]
    rcases Nat.lt_or_ge i 8 with h8 | h8
    · simp [show ¬ 16 ≤ i by omega, show ¬ 8 ≤ i by omega]
    · simp [BitVec.getMsbD_of_ge byte i h8]
  rw [hword, decodeRx_rxBuf]

/-! ### A transfer after a reset -/

theorem driver_reads_one_byte_at_rest :
    ∃ n : ℕ, (fivePeriods 32).fall 0 + 1 ≤ n ∧ n < (fivePeriods 32).rise 0 ∧
      decodeRx (rxBuf ((List.range 32).map fun i =>
        (SpiSlaveBytes.run 4096 SpiSlaveBytes.bytesAtRest (fivePeriodsWires 32 []).sampled countsAt
          (10 * i + 10)).spiPoci)) =
        (ByteState.pitch1.select (countsAt n).1 (countsAt n).2 ++ (0 : BitVec 8), 0) :=
  driver_reads_one_byte (s := SpiSlaveBytes.bytesAtRest) (mode0_fivePeriods 32 []) rfl fun i _ =>
    readAt_fivePeriods (fun n => (SpiSlaveBytes.run 4096 SpiSlaveBytes.bytesAtRest
      (fivePeriodsWires 32 []).sampled countsAt n).spiPoci) 32 i

end PanTilt.System
