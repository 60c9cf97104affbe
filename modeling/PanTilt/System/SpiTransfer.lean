import Mathlib.Algebra.Order.Archimedean.Real.Basic
import PanTilt.App.HwInterface
import PanTilt.Fpga.SpiSlave
import PanTilt.Lib.Waveform

/-!
One call of `read_write_encoder_pwm` on the Raspberry Pi, down to the registers of `SPI_Slave`.

Between the two stands one window of 32 pulses, in real time; its unit is a period of `clk`, whose
edges are the whole numbers, so that the phase of the window is that of its times. The driver's
bytes go out bit by bit on `SPI_PICO`, and the bits it reads on `SPI_POCI` come back as bytes.
-/

namespace PanTilt.System

open App Fpga Lib.Clocked Lib.Words Lib.Spi

/-- A line of the FPGA read at time `t`: its value is that before edge `n` since edge `n - 1`, and
at an edge it can be either. -/
def ReadAt (line : ℕ → Bool) (t : ℝ) (b : Bool) : Prop :=
  ∃ n : ℕ, (n : ℝ) - 1 ≤ t ∧ t ≤ n ∧ line n = b

lemma ReadAt.bit {w i : ℕ} (hi : i < w) {u : BitVec w} {sent : ℕ → BitVec w} {t : ℝ} {b : Bool}
    (h : ReadAt (fun n => (sent n).getMsbD 0) t b)
    (hsent : ∀ m : ℕ, t ≤ m → m ≤ t + 1 → sent m = shiftAll u (List.replicate i false)) :
    b = u.getMsbD i := by
  obtain ⟨m, hm, hm', hline⟩ := h
  have hlength : (List.replicate i false).length < w := by rwa [List.length_replicate]
  have htop := getMsbD_shiftAll u hlength
  rw [List.length_replicate, ← hsent m hm' (by linarith)] at htop
  exact hline.symm.trans htop

/-- One transfer of the driver: the bytes of the pair go out in a window with phases of at least
five periods, and `poci` is what the master reads at the rises, of an FPGA that starts in `s` with
the encoder counts `d n` before edge `n`. -/
structure Transfer (MAX_COUNT : BitVec 16) (s : SpiSlave) (pitchPwm yawPwm : BitVec 16)
    (d : ℕ → BitVec 16 × BitVec 16) (W : Window (5 : ℝ) 32) (v : Wires ℝ) (poci : ℕ → Bool) :
    Prop where
  drives : Mode0 W v
  pico : Holds W v (wireBits (txBuf pitchPwm yawPwm))
  poci : ∀ i < 32, ReadAt (fun n => (SpiSlave.run MAX_COUNT s v.sampled d n).spiPoci)
    (W.rise i) (poci i)

section Transfer

variable {MAX_COUNT : BitVec 16} {s : SpiSlave} {pitchPwm yawPwm : BitVec 16}
  {d : ℕ → BitVec 16 × BitVec 16} {W : Window (5 : ℝ) 32} {v : Wires ℝ} {poci : ℕ → Bool}

theorem Transfer.received (h : Transfer MAX_COUNT s pitchPwm yawPwm d W v poci)
    (hs : s.idle = true) {n : ℕ} (hn : W.csRise ≤ n)
    (hcs : ∀ t, W.csRise < t → t < n → v.cs t = true) :
    (SpiSlave.run MAX_COUNT s v.sampled d n).pitchPwm = pitchPwm ∧
      (SpiSlave.run MAX_COUNT s v.sampled d n).yawPwm = yawPwm := by
  have hcore := SpiSlave.core_run MAX_COUNT s v.sampled d n
  have hword := h.drives.received (by norm_num) (by norm_num)
    (by rw [wireBits_txBuf, length_bitsOf]) h.pico s.synced.core (fun m => (d m).1 ++ (d m).2)
    s.synced.stage₁ (a := s.synced.stage₀) hs hn hcs
  rw [wireBits_txBuf, wordOf_bitsOf] at hword
  have hpair : (SpiSlave.run MAX_COUNT s v.sampled d n).pitchPwm ++
      (SpiSlave.run MAX_COUNT s v.sampled d n).yawPwm = pitchPwm ++ yawPwm :=
    (congrArg Slave.word hcore).trans hword
  obtain ⟨hp, hy⟩ := SpiSlave.halves_append pitchPwm yawPwm
  rw [← hpair] at hp hy
  rw [(SpiSlave.halves_append _ _).1] at hp
  rw [(SpiSlave.halves_append _ _).2] at hy
  exact ⟨hp, hy⟩

theorem Transfer.decoded (h : Transfer MAX_COUNT s pitchPwm yawPwm d W v poci)
    (hs : s.idle = true) :
    ∃ n : ℕ, W.fall 0 + 1 ≤ n ∧ n < W.rise 0 ∧
      decodeRx (rxBuf ((List.range 32).map poci)) = d n := by
  obtain ⟨n, hlo, hhi, hsent⟩ := h.drives.sent (by norm_num) (by norm_num) s.synced.core
    (fun m => (d m).1 ++ (d m).2) s.synced.stage₁ (a := s.synced.stage₀) hs
  refine ⟨n, hlo, hhi, ?_⟩
  have hbits : (List.range 32).map poci = bitsOf ((d n).1 ++ (d n).2) := by
    apply map_range_eq_bitsOf
    intro i hi
    refine ReadAt.bit hi (h.poci i hi) fun m hm hm' => ?_
    have hcore := SpiSlave.core_run MAX_COUNT s v.sampled d m
    exact (congrArg Slave.sent hcore).trans (hsent i hi m hm hm')
  rw [hbits, decodeRx_rxBuf]

/-- **One transfer, end to end.** From every idle state of the module, for every pair of PWM words,
every stream of encoder counts and every window: after the window the registers hold the pair, and
the driver has decoded the counts that were present together in one clock period between the fall of
`SPI_CS` and the first rise of `SPI_CLK`. -/
theorem transfer_end_to_end (hs : s.idle = true)
    (h : Transfer MAX_COUNT s pitchPwm yawPwm d W v poci) :
    (∀ n : ℕ, W.csRise ≤ n → (∀ t, W.csRise < t → t < n → v.cs t = true) →
      (SpiSlave.run MAX_COUNT s v.sampled d n).pitchPwm = pitchPwm ∧
        (SpiSlave.run MAX_COUNT s v.sampled d n).yawPwm = yawPwm) ∧
    ∃ n : ℕ, W.fall 0 + 1 ≤ n ∧ n < W.rise 0 ∧
      decodeRx (rxBuf ((List.range 32).map poci)) = d n :=
  ⟨fun _ hn hcs => h.received hs hn hcs, h.decoded hs⟩

end Transfer

/-! ### A transfer after a reset -/

/-- Encoder counts that move at every clock. -/
def countsAt (n : ℕ) : BitVec 16 × BitVec 16 := (BitVec.ofNat 16 n, BitVec.ofNat 16 (2 * n))

/-- The window of `k` pulses with phases of five periods. -/
noncomputable def fivePeriods (k : ℕ) : Window (5 : ℝ) k := Window.steady 5 (by norm_num) k

/-- The lines in that window, with the bits of a list. -/
noncomputable def fivePeriodsWires (k : ℕ) (bits : List Bool) : Wires ℝ := Wires.steady 5 k bits

lemma mode0_fivePeriods (k : ℕ) (bits : List Bool) :
    Mode0 (fivePeriods k) (fivePeriodsWires k bits) := mode0_steady _ k bits

lemma holds_fivePeriods (k : ℕ) (bits : List Bool) :
    Holds (fivePeriods k) (fivePeriodsWires k bits) bits := holds_steady _ (by norm_num) k bits

lemma fivePeriods_fall (k i : ℕ) : (fivePeriods k).fall i = (10 * i + 5 : ℕ) := by
  show ((2 * i + 1 : ℕ) : ℝ) * 5 = _
  push_cast
  ring

lemma fivePeriods_rise (k i : ℕ) : (fivePeriods k).rise i = (10 * i + 10 : ℕ) := by
  show ((2 * i + 2 : ℕ) : ℝ) * 5 = _
  push_cast
  ring

lemma fivePeriods_csRise (k : ℕ) : (fivePeriods k).csRise = (10 * k + 10 : ℕ) := by
  show ((2 * k + 2 : ℕ) : ℝ) * 5 = _
  push_cast
  ring

lemma readAt_fivePeriods (line : ℕ → Bool) (k i : ℕ) :
    ReadAt line ((fivePeriods k).rise i) (line (10 * i + 10)) := by
  rw [fivePeriods_rise]
  exact ⟨10 * i + 10, by linarith, le_rfl, rfl⟩

/-- Phases of five periods: `SPI_CS` falls at 5 and rises at 330, and pulse `i` rises at
`10 * i + 10`. -/
noncomputable def steadyWindow : Window (5 : ℝ) 32 := Window.steady 5 (by norm_num) 32

/-- The lines in that window, with the bytes of a pair. -/
noncomputable def steadyWires (pitchPwm yawPwm : BitVec 16) : Wires ℝ :=
  Wires.steady 5 32 (wireBits (txBuf pitchPwm yawPwm))

/-- The FPGA over that window, from reset. -/
noncomputable def steadyRun (pitchPwm yawPwm : BitVec 16) (n : ℕ) : SpiSlave :=
  SpiSlave.run 4096 (SpiSlave.reset 4096) (steadyWires pitchPwm yawPwm).sampled countsAt n

/-- What the master reads at the rises. -/
noncomputable def steadyPoci (pitchPwm yawPwm : BitVec 16) (i : ℕ) : Bool :=
  (steadyRun pitchPwm yawPwm (10 * i + 10)).spiPoci

lemma steadyTransfer (pitchPwm yawPwm : BitVec 16) :
    Transfer 4096 (SpiSlave.reset 4096) pitchPwm yawPwm countsAt steadyWindow
      (steadyWires pitchPwm yawPwm) (steadyPoci pitchPwm yawPwm) := by
  refine ⟨mode0_fivePeriods 32 _, holds_fivePeriods 32 _, ?_⟩
  intro i _
  exact readAt_fivePeriods (fun n => (steadyRun pitchPwm yawPwm n).spiPoci) 32 i

theorem transfer_from_reset :
    ((steadyRun 2304 1920 330).pitchPwm = 2304 ∧ (steadyRun 2304 1920 330).yawPwm = 1920) ∧
    ∃ n : ℕ, 6 ≤ n ∧ n < 10 ∧
      decodeRx (rxBuf ((List.range 32).map (steadyPoci 2304 1920))) = countsAt n := by
  obtain ⟨hpair, n, hlo, hhi, hcounts⟩ :=
    transfer_end_to_end (s := SpiSlave.reset 4096) (by decide) (steadyTransfer 2304 1920)
  have hend : steadyWindow.csRise = (330 : ℕ) := fivePeriods_csRise 32
  have hfall : steadyWindow.fall 0 = (5 : ℕ) := fivePeriods_fall 32 0
  have hrise : steadyWindow.rise 0 = (10 : ℕ) := fivePeriods_rise 32 0
  rw [hfall] at hlo
  rw [hrise] at hhi
  refine ⟨hpair 330 hend.le ?_, n, by exact_mod_cast hlo, by exact_mod_cast hhi,
    hcounts⟩
  intro t h h'
  rw [hend] at h
  exact absurd h' (not_lt.2 h.le)

end PanTilt.System
