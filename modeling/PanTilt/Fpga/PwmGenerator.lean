import PanTilt.Lib.Clocked
import PanTilt.Lib.Window

/-!
`PWM_Generator` of `pwm_module.v`: one command word becomes a direction and a pulse width.

The command is clamped to `MAX_COUNT` and split at the midpoint: above it the motor runs forwards,
below it backwards, and the distance from the midpoint is the number of clocks in every
`MAX_COUNT / 2` for which the pulse is high. `steady` is that law for a command held constant, and
`duty_law` adds the range of the counter, the full drive and the standstill.
-/

namespace PanTilt.Fpga

open Lib.Clocked Lib.Window

/-- The registers of `PWM_Generator`. -/
structure PwmGenerator where
  counter : BitVec 16
  localDuty : BitVec 16
  counterSetPoint : BitVec 16
  pwmOut : Bool
  dirA : Bool
  dirB : Bool
  deriving DecidableEq

namespace PwmGenerator

/-- The input pins. -/
structure Pins where
  rst : Bool
  dutyCycle : BitVec 16

section Module

variable (MAX_COUNT : BitVec 16)

/-- The local parameter `MIDPOINT`. -/
def midpoint : BitVec 16 := MAX_COUNT >>> 1

/-- The registers after a clock with `rst`. -/
def reset : PwmGenerator where
  counter := 0
  localDuty := midpoint MAX_COUNT
  counterSetPoint := midpoint MAX_COUNT
  pwmOut := false
  dirA := false
  dirB := false

/-- One rising edge of `clk`. `MIDPOINT - 1` is computed at 32 bits, the width of the literal. -/
def step (s : PwmGenerator) (i : Pins) : PwmGenerator :=
  if i.rst then reset MAX_COUNT
  else
    { counter :=
        if s.counter.setWidth 32 ≥ (midpoint MAX_COUNT).setWidth 32 - 1 then 0
        else s.counter + 1
      localDuty := if i.dutyCycle > MAX_COUNT then MAX_COUNT else i.dutyCycle
      counterSetPoint :=
        if s.localDuty < midpoint MAX_COUNT then midpoint MAX_COUNT - s.localDuty
        else s.localDuty - midpoint MAX_COUNT
      pwmOut := s.counter < s.counterSetPoint
      dirA := if s.localDuty > midpoint MAX_COUNT then true else false
      dirB :=
        if s.localDuty > midpoint MAX_COUNT then false
        else if s.localDuty < midpoint MAX_COUNT then true
        else false }

/-- The registers before clock `n` of a run without reset in which the command is `duty`
throughout. -/
def hold (s : PwmGenerator) (duty : BitVec 16) (n : ℕ) : PwmGenerator :=
  trace (step MAX_COUNT) s (fun _ => { rst := false, dutyCycle := duty }) n

lemma step_rst (s : PwmGenerator) (i : Pins) (h : i.rst = true) :
    step MAX_COUNT s i = reset MAX_COUNT := by
  simp [step, h]

/-- The period of the counter. A midpoint of zero never turns it around. -/
def period : ℕ := if midpoint MAX_COUNT = 0 then 65536 else (midpoint MAX_COUNT).toNat

lemma period_pos : 0 < period MAX_COUNT := by
  unfold period
  split
  · omega
  · next h => exact BitVec.toNat_pos_of_ne_zero h

end Module

lemma counter_turn {MAX_COUNT : BitVec 16} (c : BitVec 16) :
    c.setWidth 32 ≥ (midpoint MAX_COUNT).setWidth 32 - 1 ↔
      midpoint MAX_COUNT ≠ 0 ∧ (midpoint MAX_COUNT).toNat - 1 ≤ c.toNat := by
  have hM := (midpoint MAX_COUNT).isLt
  have hc := c.isLt
  have hzero : midpoint MAX_COUNT ≠ 0 ↔ 0 < (midpoint MAX_COUNT).toNat :=
    ⟨BitVec.toNat_pos_of_ne_zero, fun h h0 => by simp [h0] at h⟩
  rw [hzero, ge_iff_le, BitVec.le_def, BitVec.toNat_sub, BitVec.toNat_setWidth,
    BitVec.toNat_setWidth]
  simp
  omega

theorem counter_step_period {MAX_COUNT : BitVec 16} {s : PwmGenerator} {i : Pins}
    (hr : i.rst = false) (hc : s.counter.toNat < period MAX_COUNT) :
    (step MAX_COUNT s i).counter.toNat = (s.counter.toNat + 1) % period MAX_COUNT := by
  have hone : (s.counter + 1).toNat = (s.counter.toNat + 1) % 65536 := BitVec.toNat_add ..
  have hlt := s.counter.isLt
  have hmid := (midpoint MAX_COUNT).isLt
  simp only [step, hr, Bool.false_eq_true, if_false]
  unfold period at hc ⊢
  by_cases h0 : midpoint MAX_COUNT = 0
  · rw [if_pos h0, if_neg (by rw [counter_turn]; exact fun e => e.1 h0), hone]
  · rw [if_neg h0] at hc ⊢
    rcases Nat.lt_or_ge s.counter.toNat ((midpoint MAX_COUNT).toNat - 1) with hm | hm
    · rw [if_neg (by rw [counter_turn]; omega), hone, Nat.mod_eq_of_lt (by omega),
        Nat.mod_eq_of_lt (by omega)]
    · rw [if_pos ((counter_turn _).2 ⟨h0, hm⟩),
        show s.counter.toNat + 1 = (midpoint MAX_COUNT).toNat by omega, Nat.mod_self]
      rfl

/-! ### What a command asks for -/

/-- The command after the clamp. -/
def clamped (M duty : ℕ) : ℕ := min duty (2 * M)

/-- The number of clocks in `M` for which the pulse is high. -/
def magnitude (M duty : ℕ) : ℕ := clamped M duty - M + (M - clamped M duty)

lemma magnitude_le (M duty : ℕ) : magnitude M duty ≤ M := by unfold magnitude clamped; omega

section Steady

variable {MAX_COUNT : BitVec 16} {M : ℕ}

/-- `MAX_COUNT` is `2 * M`, and not zero. -/
structure Even (MAX_COUNT : BitVec 16) (M : ℕ) : Prop where
  max : MAX_COUNT.toNat = 2 * M
  pos : 0 < M

lemma Even.midpoint (h : Even MAX_COUNT M) : (midpoint MAX_COUNT).toNat = M := by
  unfold PwmGenerator.midpoint
  rw [BitVec.toNat_ushiftRight, h.max, Nat.shiftRight_eq_div_pow]
  omega

lemma Even.lt (h : Even MAX_COUNT M) : 2 * M < 65536 := h.max ▸ MAX_COUNT.isLt

lemma Even.period (h : Even MAX_COUNT M) : period MAX_COUNT = M := by
  have hmid := h.midpoint
  rw [PwmGenerator.period, if_neg, hmid]
  intro h0
  rw [h0] at hmid
  exact h.pos.ne hmid

theorem counter_step (h : Even MAX_COUNT M) {s : PwmGenerator} {i : Pins} (hr : i.rst = false)
    (hc : s.counter.toNat < M) :
    (step MAX_COUNT s i).counter.toNat = (s.counter.toNat + 1) % M := by
  rw [← h.period] at hc ⊢
  exact counter_step_period hr hc

theorem counter_lt (h : Even MAX_COUNT M) {s : PwmGenerator}
    (hs : Reachable (step MAX_COUNT) (reset MAX_COUNT) s) : s.counter.toNat < M := by
  apply hs.invariant (P := fun s => s.counter.toNat < M) h.pos
  intro s i hc
  rcases hr : i.rst with _ | _
  · rw [counter_step h hr hc]
    exact Nat.mod_lt _ h.pos
  · rw [step_rst MAX_COUNT s i hr]
    exact h.pos

section Hold

variable {s : PwmGenerator} (duty : BitVec 16)

lemma hold_succ (n : ℕ) : hold MAX_COUNT s duty (n + 1) =
    step MAX_COUNT (hold MAX_COUNT s duty n) { rst := false, dutyCycle := duty } := rfl

theorem counter_hold (h : Even MAX_COUNT M) (hc : s.counter.toNat < M) (n : ℕ) :
    (hold MAX_COUNT s duty n).counter.toNat = (s.counter.toNat + n) % M := by
  induction n with
  | zero => exact (Nat.mod_eq_of_lt hc).symm
  | succ n ih =>
    have hlt : (hold MAX_COUNT s duty n).counter.toNat < M := ih ▸ Nat.mod_lt _ h.pos
    rw [hold_succ, counter_step h rfl hlt, ih, Nat.mod_add_mod, Nat.add_assoc]

theorem localDuty_hold (h : Even MAX_COUNT M) {n : ℕ} (hn : 1 ≤ n) :
    (hold MAX_COUNT s duty n).localDuty.toNat = clamped M duty.toNat := by
  obtain ⟨n, rfl⟩ := Nat.exists_eq_add_of_le' hn
  have hmax := h.max
  rw [hold_succ]
  simp only [step, clamped, Bool.false_eq_true, if_false, gt_iff_lt, BitVec.lt_def]
  split <;> omega

theorem setPoint_hold (h : Even MAX_COUNT M) {n : ℕ} (hn : 2 ≤ n) :
    (hold MAX_COUNT s duty n).counterSetPoint.toNat = magnitude M duty.toNat ∧
      ((hold MAX_COUNT s duty n).dirA = true ↔ M < clamped M duty.toNat) ∧
      ((hold MAX_COUNT s duty n).dirB = true ↔ clamped M duty.toNat < M) := by
  obtain ⟨n, rfl⟩ := Nat.exists_eq_add_of_le' hn
  have hlocal := localDuty_hold (s := s) duty h (n := n + 1) (by omega)
  have hmid := h.midpoint
  have hlt := h.lt
  have hcl : clamped M duty.toNat ≤ 2 * M := Nat.min_le_right _ _
  rw [show n + 2 = n + 1 + 1 from rfl, hold_succ]
  simp only [step, Bool.false_eq_true, if_false, gt_iff_lt, BitVec.lt_def, hlocal, hmid, magnitude]
  refine ⟨?_, by simp, ?_⟩
  · split
    · rw [BitVec.toNat_sub, hmid, hlocal]
      omega
    · rw [BitVec.toNat_sub, hmid, hlocal]
      omega
  · split
    · simp; omega
    · simp

theorem pwmOut_hold (h : Even MAX_COUNT M) (hc : s.counter.toNat < M) {n : ℕ} (hn : 3 ≤ n) :
    (hold MAX_COUNT s duty n).pwmOut = true ↔
      (s.counter.toNat + M - 1 + n) % M < magnitude M duty.toNat := by
  obtain ⟨n, rfl⟩ := Nat.exists_eq_add_of_le' hn
  have hset := (setPoint_hold (s := s) duty h (n := n + 2) (by omega)).1
  have hcount := counter_hold duty h hc (n + 2)
  have hpos := h.pos
  rw [show n + 3 = n + 2 + 1 from rfl, hold_succ,
    show s.counter.toNat + M - 1 + (n + 2 + 1) = s.counter.toNat + (n + 2) + M by omega,
    Nat.add_mod_right]
  simp only [step, Bool.false_eq_true, if_false, BitVec.lt_def, hset, hcount, decide_eq_true_eq]

end Hold

/-- **A command held constant.** From the third clock on the outputs are those of the command:
the direction by the side of the midpoint, and the pulse high in exactly as many of any `M`
consecutive clocks as the command is away from the midpoint. -/
theorem steady (h : Even MAX_COUNT M) {s : PwmGenerator}
    (hs : Reachable (step MAX_COUNT) (reset MAX_COUNT) s) (duty : BitVec 16) {n : ℕ} (hn : 3 ≤ n) :
    ((hold MAX_COUNT s duty n).dirA = true ↔ M < clamped M duty.toNat) ∧
      ((hold MAX_COUNT s duty n).dirB = true ↔ clamped M duty.toNat < M) ∧
      ((Finset.Ico n (n + M)).filter fun m => (hold MAX_COUNT s duty m).pwmOut).card =
        magnitude M duty.toNat := by
  obtain ⟨-, hA, hB⟩ := setPoint_hold (s := s) duty h (n := n) (by omega)
  refine ⟨hA, hB, ?_⟩
  rw [← card_window (magnitude_le M duty.toNat) (s.counter.toNat + M - 1) n]
  refine congrArg Finset.card (Finset.filter_congr ?_)
  intro m hm
  exact pwmOut_hold duty h (counter_lt h hs) (hn.trans (Finset.mem_Ico.1 hm).1)

lemma natAbs_eq_magnitude (h : Even MAX_COUNT M) (duty : ℕ) :
    (((min duty MAX_COUNT.toNat : ℕ) : ℤ) - M).natAbs = magnitude M duty := by
  rw [h.max]
  unfold magnitude clamped
  omega

/-- **The duty law.** Whatever the state and the command held since, the counter stays below
the midpoint, and from the third clock on the pulse is high in as many of any `M` consecutive clocks
as the command, cut to `MAX_COUNT`, is away from the midpoint, on the side of its direction. A
command out of range is full forward, and at the midpoint there is no drive at all. -/
theorem duty_law (h : Even MAX_COUNT M) {s : PwmGenerator}
    (hs : Reachable (step MAX_COUNT) (reset MAX_COUNT) s) (duty : BitVec 16) :
    (∀ n, (hold MAX_COUNT s duty n).counter.toNat ≤ M - 1) ∧ ∀ n, 3 ≤ n →
      ((Finset.Ico n (n + M)).filter fun m => (hold MAX_COUNT s duty m).pwmOut).card =
          (((min duty.toNat MAX_COUNT.toNat : ℕ) : ℤ) - M).natAbs ∧
        ((hold MAX_COUNT s duty n).dirA, (hold MAX_COUNT s duty n).dirB) =
          (if M < min duty.toNat MAX_COUNT.toNat then (true, false)
            else if min duty.toNat MAX_COUNT.toNat < M then (false, true) else (false, false)) ∧
        (MAX_COUNT.toNat ≤ duty.toNat → (hold MAX_COUNT s duty n).pwmOut = true ∧
          (hold MAX_COUNT s duty n).dirA = true ∧ (hold MAX_COUNT s duty n).dirB = false) ∧
        (duty.toNat = M → (hold MAX_COUNT s duty n).pwmOut = false) := by
  have hpos := h.pos
  have hmax := h.max
  refine ⟨?_, ?_⟩
  · intro n
    have hlt : (hold MAX_COUNT s duty n).counter.toNat < M := by
      rw [counter_hold duty h (counter_lt h hs)]
      exact Nat.mod_lt _ hpos
    omega
  · intro n hn
    obtain ⟨hA, hB, hcard⟩ := steady h hs duty hn
    have hpwm := pwmOut_hold duty h (counter_lt h hs) hn
    have hmod : (s.counter.toNat + M - 1 + n) % M < M := Nat.mod_lt _ hpos
    unfold clamped at hA hB
    rw [← hmax] at hA hB
    refine ⟨hcard.trans (natAbs_eq_magnitude h _).symm, ?_, ?_, ?_⟩
    · have hA' : (hold MAX_COUNT s duty n).dirA = false ↔ _ :=
        (Bool.not_eq_true _).symm.to_iff.trans (not_congr hA)
      have hB' : (hold MAX_COUNT s duty n).dirB = false ↔ _ :=
        (Bool.not_eq_true _).symm.to_iff.trans (not_congr hB)
      rcases lt_trichotomy M (min duty.toNat MAX_COUNT.toNat) with hlt | heq | hgt
      · rw [if_pos hlt, hA.mpr hlt, hB'.mpr (by omega)]
      · rw [if_neg heq.not_lt, if_neg heq.not_gt, hA'.mpr heq.not_lt, hB'.mpr heq.not_gt]
      · rw [if_neg (by omega), if_pos hgt, hA'.mpr (by omega), hB.mpr hgt]
    · intro hduty
      refine ⟨hpwm.mpr ?_, hA.mpr (by omega), ?_⟩
      · unfold magnitude clamped
        omega
      · rw [← Bool.not_eq_true, hB]
        omega
    · intro hduty
      rw [← Bool.not_eq_true, hpwm]
      unfold magnitude clamped
      omega

theorem duty_law_reverse :
    ((Finset.Ico 3 7).filter fun m => (hold 8 (reset 8) 3 m).pwmOut).card = 1 ∧
      ((hold 8 (reset 8) 3 3).dirA, (hold 8 (reset 8) 3 3).dirB) = (false, true) := by
  have h := (@duty_law 8 4 ⟨rfl, by omega⟩ (reset 8) .start 3).2 3 le_rfl
  exact ⟨h.1, h.2.1⟩

end Steady

end PwmGenerator

end PanTilt.Fpga
