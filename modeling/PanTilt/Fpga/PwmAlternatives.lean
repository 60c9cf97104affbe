import PanTilt.Lib.Clocked
import PanTilt.Lib.Window

/-!
`edge_pwm.v` and `triangular_pwm.v`: the two pulse generators that `tb_compare_pwm.v` sets side by
side, for every width of the duty.

Both latch the duty while their counter is at zero and compare the counter with it one clock later,
with the two ends of the range apart (`DutyPwm.step`). They differ in the counter: the one of
`edge_pwm` runs up and starts again, the one of `triangular_pwm` turns around at both ends.
`alternatives_steady` counts the high clocks of each for a duty held from reset.
-/

namespace PanTilt.Fpga

open Lib.Clocked Lib.Window

/-- `max_val`, computed at 32 bits, the width of the literals, or at the width of the wire where
that is larger. -/
def maxVal (w : ℕ) : BitVec w := (1#(max w 32) <<< w - 1#(max w 32)).setWidth w

/-- The counter of a generator: its registers after a clock with `rst`, the one named `counter`, and
the registers after any other clock. -/
structure CounterLogic (w : ℕ) (C : Type) where
  reset : C
  counter : C → BitVec w
  next : C → C

/-- The registers of a generator. -/
structure DutyPwm (w : ℕ) (C : Type) where
  count : C
  localDuty : BitVec w
  pwmOut : Bool

namespace DutyPwm

/-- The input pins. -/
structure Pins (w : ℕ) where
  rst : Bool
  duty : BitVec w

section Module

variable {w : ℕ} {C : Type} (L : CounterLogic w C)

/-- The registers after a clock with `rst`. -/
def reset : DutyPwm w C where
  count := L.reset
  localDuty := 0
  pwmOut := false

/-- One rising edge of `clk`. -/
def step (s : DutyPwm w C) (i : Pins w) : DutyPwm w C :=
  if i.rst then reset L
  else
    { count := L.next s.count
      localDuty := if L.counter s.count = 0 then i.duty else s.localDuty
      pwmOut :=
        if s.localDuty = 0 then false
        else if s.localDuty = maxVal w then true
        else L.counter s.count < s.localDuty }

/-- The registers before clock `n` after a reset, when the duty is `duty` throughout. -/
def hold (duty : BitVec w) (n : ℕ) : DutyPwm w C :=
  trace (step L) (reset L) (fun _ => { rst := false, duty := duty }) n

end Module

end DutyPwm

/-- The counter of `edge_pwm`. -/
def edgePwm (w : ℕ) : CounterLogic w (BitVec w) where
  reset := 0
  counter counter := counter
  next counter := if counter = maxVal w then 0 else counter + 1

/-- The registers of the counter of `triangular_pwm`; `direction` is set on the way down. -/
structure Triangle (w : ℕ) where
  counter : BitVec w
  direction : Bool

/-- The counter of `triangular_pwm`. -/
def triangularPwm (w : ℕ) : CounterLogic w (Triangle w) where
  reset := { counter := 0, direction := false }
  counter c := c.counter
  next c :=
    if !c.direction then
      if c.counter = maxVal w then { direction := true, counter := c.counter - 1 }
      else { c with counter := c.counter + 1 }
    else
      if c.counter = 0 then { direction := false, counter := c.counter + 1 }
      else { c with counter := c.counter - 1 }

lemma toNat_maxVal (w : ℕ) : (maxVal w).toNat = 2 ^ w - 1 := by
  have hpos := Nat.two_pow_pos w
  obtain ⟨k, hk⟩ : 2 ^ w ∣ 2 ^ max w 32 := Nat.pow_dvd_pow 2 (Nat.le_max_left w 32)
  have hk₀ : 0 < k := by
    rcases Nat.eq_zero_or_pos k with rfl | h
    · exact absurd hk (Nat.two_pow_pos _).ne'
    · exact h
  have hone : 1 % 2 ^ max w 32 = 1 := Nat.mod_eq_of_lt (Nat.one_lt_two_pow (by omega))
  -- a word of whole turns, less one
  obtain ⟨j, hj⟩ : 2 ^ w ∣ 1 <<< w % 2 ^ max w 32 := by
    rw [Nat.one_shiftLeft, hk]
    exact (Nat.dvd_mod_iff (Dvd.intro k rfl)).2 dvd_rfl
  rw [maxVal, BitVec.toNat_setWidth, BitVec.toNat_sub, BitVec.toNat_shiftLeft, BitVec.toNat_ofNat,
    hone, hj, Nat.mod_mod_of_dvd _ ⟨k, hk⟩, hk]
  calc (2 ^ w * k - 1 + 2 ^ w * j) % 2 ^ w
      = (2 ^ w * (k - 1 + j) + (2 ^ w - 1)) % 2 ^ w := by
        obtain ⟨k, rfl⟩ := Nat.exists_eq_add_of_le' hk₀
        rw [Nat.add_sub_cancel, Nat.mul_add, Nat.mul_add, Nat.mul_one]
        congr 1
        omega
    _ = 2 ^ w - 1 := by rw [Nat.mul_add_mod, Nat.mod_eq_of_lt (by omega)]

lemma eq_maxVal_iff {w : ℕ} (x : BitVec w) : x = maxVal w ↔ x.toNat = 2 ^ w - 1 := by
  rw [← BitVec.toNat_inj, toNat_maxVal]

lemma eq_zero_iff_toNat {w : ℕ} (x : BitVec w) : x = 0 ↔ x.toNat = 0 := by
  rw [← BitVec.toNat_inj, BitVec.ofNat_eq_ofNat, BitVec.toNat_ofNat, Nat.zero_mod]

lemma toNat_add_one {w : ℕ} {x : BitVec w} (h : x.toNat ≠ 2 ^ w - 1) :
    (x + 1).toNat = x.toNat + 1 := by
  have hlt := x.isLt
  have hone : (1 : BitVec w).toNat = 1 % 2 ^ w := BitVec.toNat_ofNat 1 w
  rw [BitVec.toNat_add, hone, Nat.add_mod_mod, Nat.mod_eq_of_lt (by omega)]

lemma toNat_sub_one {w : ℕ} {x : BitVec w} (h : x.toNat ≠ 0) : (x - 1).toNat = x.toNat - 1 := by
  have hlt := x.isLt
  have hone : (1 : BitVec w).toNat = 1 :=
    (BitVec.toNat_ofNat 1 w).trans (Nat.mod_eq_of_lt (by omega))
  rw [BitVec.toNat_sub, hone, show 2 ^ w - 1 + x.toNat = x.toNat - 1 + 2 ^ w by omega,
    Nat.add_mod_right, Nat.mod_eq_of_lt (by omega)]

/-! ### A duty held from reset -/

namespace DutyPwm

section Hold

variable {w : ℕ} {C : Type} {L : CounterLogic w C} (duty : BitVec w)

lemma hold_succ (n : ℕ) :
    hold L duty (n + 1) = step L (hold L duty n) { rst := false, duty := duty } := rfl

lemma count_hold_succ (n : ℕ) :
    (hold L duty (n + 1)).count = L.next (hold L duty n).count := rfl

theorem localDuty_hold (h₀ : L.counter L.reset = 0) (n : ℕ) :
    (hold L duty (n + 1)).localDuty = duty := by
  induction n with
  | zero => exact if_pos h₀
  | succ n ih =>
    show (if L.counter (hold L duty (n + 1)).count = 0 then duty
      else (hold L duty (n + 1)).localDuty) = duty
    rw [ih, ite_self]

theorem pwmOut_hold (h₀ : L.counter L.reset = 0) (n : ℕ) :
    (hold L duty (n + 2)).pwmOut =
      if duty = 0 then false else if duty = maxVal w then true
        else decide (L.counter (hold L duty (n + 1)).count < duty) := by
  have hlocal := localDuty_hold duty h₀ n
  rw [hold_succ]
  simp only [step, Bool.false_eq_true, if_false, hlocal]

/-- The duty is latched from the first clock on, and the pulse, which is one clock behind, is high
in `high` of every `period` clocks. -/
structure Steady (L : CounterLogic w C) (duty : BitVec w) (period high : ℕ) : Prop where
  latched : ∀ n, 1 ≤ n → (hold L duty n).localDuty = duty
  high : ∀ n, 2 ≤ n →
    ((Finset.Ico n (n + period)).filter fun m => (hold L duty m).pwmOut).card = high

/-- **The two ends and the comparison.** A generator is steady with no high clock for a duty of
zero, with nothing else for the largest one, and with as many as its counter is below the duty for
those between. -/
theorem Steady.of_counter (h₀ : L.counter L.reset = 0) {period high : ℕ}
    (hzero : duty.toNat = 0 → high = 0) (hmax : duty.toNat = 2 ^ w - 1 → high = period)
    (hmid : duty.toNat ≠ 0 → duty.toNat ≠ 2 ^ w - 1 → ∀ n, 1 ≤ n →
      ((Finset.Ico n (n + period)).filter fun m =>
        (L.counter (hold L duty m).count).toNat < duty.toNat).card = high) :
    Steady L duty period high := by
  refine ⟨?_, ?_⟩
  · intro n hn
    obtain ⟨n, rfl⟩ := Nat.exists_eq_add_of_le' hn
    exact localDuty_hold duty h₀ n
  · intro n hn
    obtain ⟨n, rfl⟩ := Nat.exists_eq_add_of_le' hn
    have hpulse : ∀ m ∈ Finset.Ico (n + 1) (n + 1 + period), (hold L duty (m + 1)).pwmOut =
        if duty = 0 then false else if duty = maxVal w then true
          else decide (L.counter (hold L duty m).count < duty) := by
      intro m hm
      obtain ⟨m, rfl⟩ : ∃ k, m = k + 1 := ⟨m - 1, by have := Finset.mem_Ico.1 hm; omega⟩
      exact pwmOut_hold duty h₀ m
    rw [show n + 2 = n + 1 + 1 from rfl, card_shift]
    by_cases hz : duty = 0
    · rw [Finset.filter_false_of_mem, Finset.card_empty, hzero ((eq_zero_iff_toNat _).1 hz)]
      intro m hm
      rw [hpulse m hm, if_pos hz]
      exact Bool.false_ne_true
    · by_cases hm : duty = maxVal w
      · rw [Finset.filter_true_of_mem, Nat.card_Ico, hmax ((eq_maxVal_iff _).1 hm)]
        · omega
        · intro m hmem
          rw [hpulse m hmem, if_neg hz, if_pos hm]
      · rw [← hmid (fun h => hz ((eq_zero_iff_toNat _).2 h)) (fun h => hm ((eq_maxVal_iff _).2 h))
          (n + 1) (by omega)]
        refine congrArg Finset.card (Finset.filter_congr ?_)
        intro m hmem
        rw [hpulse m hmem, if_neg hz, if_neg hm, decide_eq_true_eq, BitVec.lt_def]

end Hold

end DutyPwm

open DutyPwm

/-! ### The two counters -/

section Counters

variable {w : ℕ}

lemma edgePwm_next (c : BitVec w) :
    ((edgePwm w).next c).toNat = if c.toNat = 2 ^ w - 1 then 0 else c.toNat + 1 := by
  show (if c = maxVal w then 0 else c + 1).toNat = _
  by_cases h : c.toNat = 2 ^ w - 1
  · rw [if_pos h, if_pos ((eq_maxVal_iff c).2 h)]
    exact BitVec.toNat_zero
  · rw [if_neg h, if_neg (fun e => h ((eq_maxVal_iff c).1 e)), toNat_add_one h]

theorem count_edgePwm (duty : BitVec w) (n : ℕ) :
    (hold (edgePwm w) duty n).count.toNat = n % 2 ^ w := by
  have hpos := Nat.two_pow_pos w
  induction n with
  | zero => exact BitVec.toNat_zero.trans (Nat.zero_mod _).symm
  | succ n ih =>
    have hlt := Nat.mod_lt n hpos
    rw [count_hold_succ, edgePwm_next, ih, ← Nat.mod_add_mod]
    split
    · next h => rw [h, Nat.sub_add_cancel hpos, Nat.mod_self]
    · next h => exact (Nat.mod_eq_of_lt (by omega)).symm

/-- Where the counter of `triangular_pwm` is `q + 1` clocks after it left zero. -/
def Triangle.At (c : Triangle w) (q : ℕ) : Prop :=
  c.counter.toNat = triangle (2 ^ w - 1) (q + 1) ∧ c.direction = decide (2 ^ w - 1 ≤ q)

lemma Triangle.At.next (hw : 1 ≤ w) {c : Triangle w} {q : ℕ} (hq : q < 2 * (2 ^ w - 1))
    (h : c.At q) : ((triangularPwm w).next c).At ((q + 1) % (2 * (2 ^ w - 1))) := by
  obtain ⟨hc, hd⟩ := h
  have htwo : 2 ≤ 2 ^ w := Nat.le_self_pow (by omega) 2
  have hlt := c.counter.isLt
  unfold triangle at hc
  unfold Triangle.At triangle
  by_cases hup : q < 2 ^ w - 1
  · -- on the way up
    rw [decide_eq_false (by omega)] at hd
    rw [Nat.mod_eq_of_lt (by omega)]
    simp only [triangularPwm, hd, Bool.not_false, if_true, eq_maxVal_iff]
    split
    · rw [toNat_sub_one (by omega), decide_eq_true (by omega)]
      exact ⟨by omega, rfl⟩
    · next h =>
      rw [toNat_add_one h, decide_eq_false (by omega)]
      exact ⟨by omega, rfl⟩
  · -- on the way down
    rw [decide_eq_true (by omega)] at hd
    simp only [triangularPwm, hd, Bool.not_true, Bool.false_eq_true, if_false, eq_zero_iff_toNat]
    split
    · rw [toNat_add_one (by omega), show q + 1 = 2 * (2 ^ w - 1) by omega, Nat.mod_self,
        decide_eq_false (by omega)]
      exact ⟨by omega, rfl⟩
    · next h =>
      rw [toNat_sub_one h, Nat.mod_eq_of_lt (by omega), decide_eq_true (by omega)]
      exact ⟨by omega, rfl⟩

/-- The counter after a reset, from the clock on at which it leaves zero. -/
lemma at_hold (hw : 1 ≤ w) (duty : BitVec w) (n : ℕ) :
    (hold (triangularPwm w) duty (n + 1)).count.At (n % (2 * (2 ^ w - 1))) := by
  have htwo : 2 ≤ 2 ^ w := Nat.le_self_pow (by omega) 2
  induction n with
  | zero =>
    have h₀ : (0 : BitVec w).toNat = 0 := BitVec.toNat_zero
    show ((triangularPwm w).next { counter := 0, direction := false }).At _
    simp only [triangularPwm, Bool.not_false, if_true, eq_maxVal_iff]
    rw [if_neg (by omega), Nat.zero_mod]
    unfold Triangle.At triangle
    rw [toNat_add_one (by omega), h₀, decide_eq_false (by omega)]
    exact ⟨by omega, rfl⟩
  | succ n ih =>
    have h := ih.next hw (Nat.mod_lt _ (by omega))
    rwa [Nat.mod_add_mod] at h

theorem count_triangularPwm (hw : 1 ≤ w) (duty : BitVec w) (n : ℕ) :
    (hold (triangularPwm w) duty n).count.counter.toNat =
      triangle (2 ^ w - 1) (n % (2 * (2 ^ w - 1))) := by
  have htwo : 2 ≤ 2 ^ w := Nat.le_self_pow (by omega) 2
  cases n with
  | zero =>
    rw [Nat.zero_mod]
    exact BitVec.toNat_zero.trans (Nat.zero_min _).symm
  | succ n =>
    have hlt : n % (2 * (2 ^ w - 1)) < 2 * (2 ^ w - 1) := Nat.mod_lt _ (by omega)
    rw [(at_hold hw duty n).1, ← Nat.mod_add_mod, triangle_mod hlt]

theorem steady_edgePwm (hw : 1 ≤ w) (duty : BitVec w) :
    Steady (edgePwm w) duty (2 ^ w) (if duty.toNat = 2 ^ w - 1 then 2 ^ w else duty.toNat) := by
  have htwo : 2 ≤ 2 ^ w := Nat.le_self_pow (by omega) 2
  refine Steady.of_counter duty rfl ?_ ?_ ?_
  · intro h
    rw [if_neg (by omega), h]
  · intro h
    rw [if_pos h]
  · intro _ h n _
    rw [if_neg h]
    refine Eq.trans ?_ (card_window duty.isLt.le 0 n)
    refine congrArg Finset.card (Finset.filter_congr ?_)
    intro m _
    rw [Nat.zero_add, ← count_edgePwm duty m]
    rfl

theorem steady_triangularPwm (hw : 1 ≤ w) (duty : BitVec w) :
    Steady (triangularPwm w) duty (2 * (2 ^ w - 1))
      (if duty.toNat = 0 then 0
        else if duty.toNat = 2 ^ w - 1 then 2 * (2 ^ w - 1) else 2 * duty.toNat - 1) := by
  have htwo : 2 ≤ 2 ^ w := Nat.le_self_pow (by omega) 2
  have hlt := duty.isLt
  refine Steady.of_counter duty rfl ?_ ?_ ?_
  · intro h
    rw [if_pos h]
  · intro h
    rw [if_neg (by omega), if_pos h]
  · intro h₀ h n _
    rw [if_neg h₀, if_neg h]
    refine Eq.trans ?_ (card_triangle (by omega) (by omega : duty.toNat ≤ 2 ^ w - 1) 0 n)
    refine congrArg Finset.card (Finset.filter_congr ?_)
    intro m _
    rw [Nat.zero_add, ← count_triangularPwm hw duty m]
    rfl

/-- **The two alternatives, for a duty held from reset.** The counter of `edge_pwm` counts modulo
`2 ^ w` and is set to zero where it would overflow; the pulse is high for `duty` of every `2 ^ w`
clocks, and for all of them if the duty is the largest. The counter of `triangular_pwm` runs through
the triangle and changes by one at each clock; the pulse is high for `2 * duty - 1` of every
`2 * (2 ^ w - 1)` clocks, for none if the duty is zero and for all if it is the largest. -/
theorem alternatives_steady (hw : 1 ≤ w) (duty : BitVec w) :
    ((∀ n, (hold (edgePwm w) duty n).count.toNat = n % 2 ^ w ∧
        (hold (edgePwm w) duty (n + 1)).count.toNat =
          if (hold (edgePwm w) duty n).count.toNat = 2 ^ w - 1 then 0
          else (hold (edgePwm w) duty n).count.toNat + 1) ∧
      Steady (edgePwm w) duty (2 ^ w)
        (if duty.toNat = 2 ^ w - 1 then 2 ^ w else duty.toNat)) ∧
    (∀ n, (hold (triangularPwm w) duty n).count.counter.toNat =
          triangle (2 ^ w - 1) (n % (2 * (2 ^ w - 1))) ∧
        ((hold (triangularPwm w) duty (n + 1)).count.counter.toNat =
            (hold (triangularPwm w) duty n).count.counter.toNat + 1 ∨
          (hold (triangularPwm w) duty (n + 1)).count.counter.toNat + 1 =
            (hold (triangularPwm w) duty n).count.counter.toNat)) ∧
      Steady (triangularPwm w) duty (2 * (2 ^ w - 1))
        (if duty.toNat = 0 then 0
          else if duty.toNat = 2 ^ w - 1 then 2 * (2 ^ w - 1) else 2 * duty.toNat - 1) := by
  have htwo : 2 ≤ 2 ^ w := Nat.le_self_pow (by omega) 2
  refine ⟨⟨?_, steady_edgePwm hw duty⟩, ?_, steady_triangularPwm hw duty⟩
  · intro n
    exact ⟨count_edgePwm duty n, edgePwm_next _⟩
  · intro n
    rw [count_triangularPwm hw, count_triangularPwm hw]
    exact ⟨rfl, triangle_succ_mod (by omega) n⟩

theorem alternatives_steady_quarter :
    Steady (edgePwm 8) 64 256 64 ∧ Steady (triangularPwm 7) 32 254 63 :=
  ⟨(@alternatives_steady 8 (by decide) 64).1.2, (@alternatives_steady 7 (by decide) 32).2.2⟩

end Counters

end PanTilt.Fpga
