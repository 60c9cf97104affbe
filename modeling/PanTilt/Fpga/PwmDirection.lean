import PanTilt.Fpga.PwmGenerator

/-!
`PWM_Generator`, the pulse against the direction.

A command needs one clock more to reach the pulse than to reach the direction. When it comes to
the midpoint the direction goes off first, and the pulse may be high for one clock without any; and
so it is at the first clock after a reset, since the set point is reset to the midpoint and not to
zero. `directed_iff` says for every run at which clocks this happens.
-/

namespace PanTilt.Fpga.PwmGenerator

open Lib.Clocked

/-- If the pulse is high, exactly one of the directions is set. -/
def Directed (s : PwmGenerator) : Prop :=
  s.pwmOut = true → (s.dirA = true ∧ s.dirB = false) ∨ (s.dirA = false ∧ s.dirB = true)

section Runs

variable (MAX_COUNT : BitVec 16)

/-- The registers before clock `n` of a run from reset. -/
def run (inp : ℕ → Pins) (n : ℕ) : PwmGenerator :=
  trace (step MAX_COUNT) (reset MAX_COUNT) inp n

/-- The clocks since the last reset, before clock `n`. -/
def elapsed (inp : ℕ → Pins) : ℕ → ℕ
  | 0 => 0
  | n + 1 => if (inp n).rst then 0 else elapsed inp n + 1

/-- A command cut to `MAX_COUNT`. -/
def command (duty : BitVec 16) : ℕ := min duty.toNat MAX_COUNT.toNat

/-- How far a command is from the midpoint. -/
def distance (duty : BitVec 16) : ℕ :=
  ((command MAX_COUNT duty : ℤ) - (midpoint MAX_COUNT).toNat).natAbs

/-- The pulse is high without a direction: at the first clock after a reset, and where the command
has come to the midpoint while the pulse of the command before was still high. -/
def Stray (inp : ℕ → Pins) (n : ℕ) : Prop :=
  (elapsed inp n = 1 ∧ 0 < (midpoint MAX_COUNT).toNat) ∨
    (3 ≤ elapsed inp n ∧
      command MAX_COUNT (inp (n - 2)).dutyCycle = (midpoint MAX_COUNT).toNat ∧
      (elapsed inp n - 1) % period MAX_COUNT < distance MAX_COUNT (inp (n - 3)).dutyCycle)

end Runs

variable {MAX_COUNT : BitVec 16} {s : PwmGenerator} {i : Pins}

/-! ### One clock -/

lemma localDuty_step (hr : i.rst = false) :
    (step MAX_COUNT s i).localDuty.toNat = command MAX_COUNT i.dutyCycle := by
  simp only [step, hr, Bool.false_eq_true, if_false, gt_iff_lt, BitVec.lt_def, command]
  split <;> omega

lemma setPoint_step (hr : i.rst = false) : (step MAX_COUNT s i).counterSetPoint.toNat =
    ((s.localDuty.toNat : ℤ) - (midpoint MAX_COUNT).toNat).natAbs := by
  have h₁ := s.localDuty.isLt
  have h₂ := (midpoint MAX_COUNT).isLt
  simp only [step, hr, Bool.false_eq_true, if_false, BitVec.lt_def]
  split <;> rw [BitVec.toNat_sub] <;> omega

/-- **The pulse is without a direction** exactly if it is high and the command is the midpoint. -/
lemma directed_step (hr : i.rst = false) : Directed (step MAX_COUNT s i) ↔
    ¬ (s.counter.toNat < s.counterSetPoint.toNat ∧
      s.localDuty.toNat = (midpoint MAX_COUNT).toNat) := by
  simp only [Directed, step, hr, Bool.false_eq_true, if_false, gt_iff_lt, BitVec.lt_def,
    decide_eq_true_eq]
  rcases lt_trichotomy s.localDuty.toNat (midpoint MAX_COUNT).toNat with h | h | h
  · simp [h, h.le, h.ne]
  · simp [h]
  · simp [h, h.ne']

/-! ### Runs -/

variable {inp : ℕ → Pins} {n k : ℕ}

lemma run_of_elapsed_zero (h : elapsed inp n = 0) : run MAX_COUNT inp n = reset MAX_COUNT := by
  cases n with
  | zero => rfl
  | succ n =>
    unfold elapsed at h
    rcases hr : (inp n).rst with _ | _
    · simp [hr] at h
    · exact step_rst MAX_COUNT _ _ hr

lemma exists_of_elapsed_succ (h : elapsed inp n = k + 1) :
    ∃ m, n = m + 1 ∧ (inp m).rst = false ∧ elapsed inp m = k := by
  cases n with
  | zero => exact absurd h (Nat.succ_ne_zero k).symm
  | succ n =>
    unfold elapsed at h
    rcases hr : (inp n).rst with _ | _
    · rw [hr] at h
      exact ⟨n, rfl, hr, Nat.succ.inj h⟩
    · simp [hr] at h

lemma run_succ : run MAX_COUNT inp (n + 1) = step MAX_COUNT (run MAX_COUNT inp n) (inp n) := rfl

/-- **The counter is the time since the reset**, modulo its period. -/
lemma counter_run : (run MAX_COUNT inp n).counter.toNat = elapsed inp n % period MAX_COUNT := by
  induction n with
  | zero => exact (Nat.zero_mod _).symm
  | succ n ih =>
    unfold elapsed
    rcases hr : (inp n).rst with _ | _
    · rw [run_succ, counter_step_period hr (ih ▸ Nat.mod_lt _ (period_pos MAX_COUNT)), ih,
        Nat.mod_add_mod]
      rfl
    · rw [run_succ, step_rst MAX_COUNT _ _ hr]
      exact (Nat.zero_mod _).symm

/-- **The pulse has a direction except where the inputs make it stray.** -/
theorem directed_iff (MAX_COUNT : BitVec 16) (inp : ℕ → Pins) (n : ℕ) :
    Directed (run MAX_COUNT inp n) ↔ ¬ Stray MAX_COUNT inp n := by
  unfold Stray
  rcases he : elapsed inp n with _ | _ | _ | k
  · -- at the reset itself
    rw [run_of_elapsed_zero he]
    refine iff_of_true (fun h => absurd h Bool.false_ne_true) ?_
    omega
  · -- the set point is still that of the reset
    obtain ⟨m, rfl, hr, hm⟩ := exists_of_elapsed_succ he
    rw [run_succ, directed_step hr, run_of_elapsed_zero hm]
    simp [reset]
  · -- the midpoint of the reset has come to the set point
    obtain ⟨m, rfl, hr, hm⟩ := exists_of_elapsed_succ he
    obtain ⟨l, rfl, hr', hl⟩ := exists_of_elapsed_succ hm
    have hset : (run MAX_COUNT inp (l + 1)).counterSetPoint.toNat = 0 := by
      rw [run_succ, setPoint_step hr', run_of_elapsed_zero hl]
      simp [reset]
    rw [run_succ, directed_step hr, hset]
    omega
  · -- the set point is that of one command and the direction that of the next
    obtain ⟨m, rfl, hr, hm⟩ := exists_of_elapsed_succ he
    obtain ⟨l, rfl, hr', hl⟩ := exists_of_elapsed_succ hm
    obtain ⟨j, rfl, hr'', -⟩ := exists_of_elapsed_succ hl
    have hset : (run MAX_COUNT inp (j + 1 + 1)).counterSetPoint.toNat =
        distance MAX_COUNT (inp j).dutyCycle := by
      rw [run_succ, setPoint_step hr', run_succ, localDuty_step hr'', distance]
    have hlocal : (run MAX_COUNT inp (j + 1 + 1)).localDuty.toNat =
        command MAX_COUNT (inp (j + 1)).dutyCycle := by
      rw [run_succ, localDuty_step hr']
    rw [run_succ, directed_step hr, hset, hlocal, counter_run, hm,
      show j + 1 + 1 + 1 - 2 = j + 1 from rfl, show j + 1 + 1 + 1 - 3 = j from rfl,
      show k + 1 + 1 + 1 - 1 = k + 1 + 1 from rfl]
    constructor
    · rintro h (⟨h1, -⟩ | ⟨-, hmid, hlt⟩)
      · omega
      · exact h ⟨hlt, hmid⟩
    · rintro h ⟨hlt, hmid⟩
      exact h (.inr ⟨by omega, hmid, hlt⟩)

/-- With the default parameter, the first clock after the reset drives without a direction. -/
theorem not_directed_after_reset :
    ¬ Directed (run 512 (fun _ => { rst := false, dutyCycle := 512 }) 1) := by
  intro h
  exact absurd (h rfl) (by decide)

end PanTilt.Fpga.PwmGenerator
