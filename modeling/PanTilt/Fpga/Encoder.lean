import PanTilt.Lib.Clocked
import PanTilt.Lib.Quadrature

/-!
`Encoder` of `Encoder.v`: the counter of the quadrature signals of one motor.

The two lines go through a two-stage synchroniser; behind it the previous level is compared with
the present one and the count moves by one, modulo `ENCODER_MAX`. `count_run` says what the count
is after any legal motion: the position of three clocks ago, from the middle of the range.
-/

namespace PanTilt.Fpga

open Lib.Clocked Lib.Quadrature

/-- The registers of `Encoder`. -/
structure Encoder where
  aSync₀ : Bool
  aSync₁ : Bool
  bSync₀ : Bool
  bSync₁ : Bool
  prevA : Bool
  prevB : Bool
  count : BitVec 16
  deriving DecidableEq

namespace Encoder

/-- The input pins. -/
structure Pins where
  rst : Bool
  a : Bool
  b : Bool

/-- The parameter with which the top entity instantiates the module, which is also its default. -/
def ENCODER_MAX : ℕ := 64000

/-- The registers after a clock with `rst`. -/
def reset : Encoder where
  aSync₀ := false
  aSync₁ := false
  bSync₀ := false
  bSync₁ := false
  prevA := false
  prevB := false
  count := BitVec.ofNat 16 (ENCODER_MAX >>> 1)

/-- The transition vector: the delayed level, then the present one. -/
def transition (s : Encoder) : BitVec 4 :=
  BitVec.ofBool s.prevA ++ BitVec.ofBool s.prevB ++ BitVec.ofBool s.aSync₁ ++ BitVec.ofBool s.bSync₁

/-- The count after a clock outside a reset. The comparisons are made at the width of the
parameter, 32 bits. -/
def nextCount (s : Encoder) : BitVec 16 :=
  if s.transition ∈ [0b0001#4, 0b0111#4, 0b1110#4, 0b1000#4] then
    if s.count.toNat = ENCODER_MAX - 1 then 0 else s.count + 1
  else if s.transition ∈ [0b0010#4, 0b1011#4, 0b1101#4, 0b0100#4] then
    if s.count.toNat = 0 then BitVec.ofNat 16 (ENCODER_MAX - 1) else s.count - 1
  else s.count

/-- One rising edge of `clk`. -/
def step (s : Encoder) (i : Pins) : Encoder :=
  if i.rst then reset
  else
    { aSync₀ := i.a
      aSync₁ := s.aSync₀
      bSync₀ := i.b
      bSync₁ := s.bSync₀
      prevA := s.aSync₁
      prevB := s.bSync₁
      count := s.nextCount }

lemma step_rst (s : Encoder) (i : Pins) (h : i.rst = true) : step s i = reset := by simp [step, h]

/-- The registers before clock `n` of a run from a reset without another one. -/
def run (s : ℕ → Level) (n : ℕ) : Encoder :=
  trace step reset (fun m => { rst := false, a := (s m).1, b := (s m).2 }) n

/-! ### One clock -/

/-- The two tables are the forward and the backward moves. -/
lemma transition_table : ∀ pa pb a b : Bool,
    (BitVec.ofBool pa ++ BitVec.ofBool pb ++ BitVec.ofBool a ++ BitVec.ofBool b ∈
      [0b0001#4, 0b0111#4, 0b1110#4, 0b1000#4] ↔ move (pa, pb) (a, b) = 1) ∧
    (BitVec.ofBool pa ++ BitVec.ofBool pb ++ BitVec.ofBool a ++ BitVec.ofBool b ∈
      [0b0010#4, 0b1011#4, 0b1101#4, 0b0100#4] ↔ move (pa, pb) (a, b) = -1) := by
  decide

theorem nextCount_eq (s : Encoder) (h : s.count.toNat < ENCODER_MAX) :
    (s.nextCount.toNat : ℤ) =
      (s.count.toNat + move (s.prevA, s.prevB) (s.aSync₁, s.bSync₁)) % 64000 := by
  obtain ⟨hf, hb⟩ := transition_table s.prevA s.prevB s.aSync₁ s.bSync₁
  have hm := move_le (s.prevA, s.prevB) (s.aSync₁, s.bSync₁)
  unfold ENCODER_MAX at h
  unfold nextCount transition ENCODER_MAX
  split
  · rw [hf.1 ‹_›]
    split
    · simp; omega
    · rw [BitVec.toNat_add]
      simp; omega
  · rename_i hnf
    have hnf' := mt hf.2 hnf
    split
    · rw [hb.1 ‹_›]
      split
      · simp; omega
      · rw [BitVec.toNat_sub]
        simp; omega
    · rename_i hnb
      have hnb' := mt hb.2 hnb
      rw [show move (s.prevA, s.prevB) (s.aSync₁, s.bSync₁) = 0 by omega]
      omega

/-! ### Runs -/

/-- The levels as the decoder sees them: three of the reset, then the samples. -/
def delayed (s : ℕ → Level) : ℕ → Level
  | 0 => (false, false)
  | 1 => (false, false)
  | 2 => (false, false)
  | n + 3 => s n

/-- What holds of the registers before clock `n`: the three pairs are the last three levels, and
the count is the position of the oldest of them. -/
structure Inv (s : ℕ → Level) (n : ℕ) (e : Encoder) : Prop where
  sync₀ : (e.aSync₀, e.bSync₀) = delayed s (n + 2)
  sync₁ : (e.aSync₁, e.bSync₁) = delayed s (n + 1)
  prev : (e.prevA, e.prevB) = delayed s n
  count_lt : e.count.toNat < ENCODER_MAX
  count : (e.count.toNat : ℤ) = (32000 + position (delayed s) n) % 64000

theorem Inv.step {s : ℕ → Level} {n : ℕ} {e : Encoder} (h : Inv s n e) :
    Inv s (n + 1) (step e { rst := false, a := (s n).1, b := (s n).2 }) := by
  have hcount := nextCount_eq e h.count_lt
  rw [h.prev, h.sync₁, h.count] at hcount
  refine ⟨rfl, h.sync₀, h.sync₁, ?_, ?_⟩
  · show e.nextCount.toNat < ENCODER_MAX
    unfold ENCODER_MAX
    omega
  · show (e.nextCount.toNat : ℤ) = _
    rw [position, hcount]
    omega

theorem inv_run (s : ℕ → Level) (n : ℕ) : Inv s n (run s n) := by
  induction n with
  | zero =>
    refine ⟨rfl, rfl, rfl, ?_, ?_⟩
    · show reset.count.toNat < ENCODER_MAX
      decide
    · show (reset.count.toNat : ℤ) = (32000 + 0) % 64000
      decide
  | succ n ih => exact ih.step

/-- What the first sampled level adds: after a reset the decoder compares it with `00`. -/
def resetOffset (l : Level) : ℤ := move (false, false) l

/-- The displacement the count of clock `n` stands for. -/
def displacement (s : ℕ → Level) (n : ℕ) : ℤ :=
  if n < 3 then 0 else resetOffset (s 0) + position s (n - 3)

lemma position_delayed (s : ℕ → Level) (n : ℕ) :
    position (delayed s) n = displacement s n := by
  rcases n with _ | _ | _ | n
  · rfl
  · rfl
  · rfl
  · rw [position_succ', position_succ', position_succ', displacement, if_neg (by omega)]
    simp only [delayed, move_self, Int.zero_add]
    rfl

theorem count_run (s : ℕ → Level) (n : ℕ) :
    (run s n).count.toNat < ENCODER_MAX ∧
      ((run s n).count.toNat : ℤ) = (32000 + displacement s n) % 64000 := by
  have h := inv_run s n
  exact ⟨h.count_lt, by rw [h.count, position_delayed]⟩

/-- **The encoder count has no drift.** For a legal motion the count of clock `n` is `32000` up to
the third clock; from then on it is `32000`, plus an offset of at most one that depends on the first
level only, plus the displacement of the position three clocks before, modulo `64000`. -/
theorem no_drift (s : ℕ → Level) (hs : Legal s) :
    resetOffset (s 0) ∈ ({-1, 0, 1} : Set ℤ) ∧ (∃ p, IsPosition s p) ∧
      ∀ p, IsPosition s p → ∀ n, (run s n).count.toNat < 64000 ∧
        (n < 3 → (run s n).count.toNat = 32000) ∧
        (3 ≤ n → ((run s n).count.toNat : ℤ) =
          (32000 + resetOffset (s 0) + (p (n - 3) - p 0)) % 64000) := by
  refine ⟨?_, ⟨_, isPosition_position s⟩, fun p hp n =>
    ⟨(count_run s n).1, fun hn => ?_, fun hn => ?_⟩⟩
  · have := move_le (false, false) (s 0)
    have hcase : resetOffset (s 0) = -1 ∨ resetOffset (s 0) = 0 ∨ resetOffset (s 0) = 1 := by
      unfold resetOffset
      omega
    simpa using hcase
  · have := (count_run s n).2
    rw [displacement, if_pos hn] at this
    omega
  · rw [(count_run s n).2, displacement, if_neg (by omega), hp.sub_eq hs, Int.add_assoc]

theorem no_drift_forward :
    ((run (fun n => forward^[n] (false, true)) 8).count.toNat : ℤ) =
      (32000 + 1 + (position (fun n => forward^[n] (false, true)) 5 -
        position (fun n => forward^[n] (false, true)) 0)) % 64000 :=
  ((no_drift (fun n => forward^[n] (false, true)) fun n => (adjacent_iff _ _).2
    (.inr (.inl (Function.iterate_succ_apply' forward n _)))).2.2 _ (isPosition_position _) 8).2.2
      (by decide)

/-! ### Runs from any content -/

/-- The registers before clock `n` of a run from any content, with `rst` up to clock `R`. -/
def heldRun (e₀ : Encoder) (s : ℕ → Level) (R n : ℕ) : Encoder :=
  trace step e₀ (fun m => { rst := decide (m < R), a := (s m).1, b := (s m).2 }) n

lemma delayed_eq (s : ℕ → Level) : ∀ n, delayed s n = delay 3 s n
  | 0 => rfl
  | 1 => rfl
  | 2 => rfl
  | n + 3 => (delay_add 3 s n).symm

section Held

variable {s : ℕ → Level} {R : ℕ} (e₀ : Encoder) (hreset : 0 < R)
  (hrest : ∀ n < R, s n = (false, false))

include hreset hrest

theorem inv_heldRun (n : ℕ) : Inv s (R + n) (heldRun e₀ s R (R + n)) := by
  induction n with
  | zero =>
    have hlate : ∀ m < R + 3, delayed s m = (false, false) := fun m hm =>
      (delayed_eq s m).trans (delay_of_lt hrest hm)
    have hstill := @position_of_still (delayed s) 0 R fun j hj => by
      rw [hlate _ (by omega), hlate _ (by omega)]
    rw [Nat.zero_add] at hstill
    -- the last clock of the reset sets all registers
    obtain ⟨r, rfl⟩ := Nat.exists_eq_succ_of_ne_zero hreset.ne'
    have hstate : heldRun e₀ s (r + 1) (r + 1) = reset :=
      step_rst _ _ (decide_eq_true (Nat.lt_succ_self r))
    rw [Nat.add_zero, hstate]
    refine ⟨?_, ?_, ?_, by decide, ?_⟩
    · rw [hlate _ (by omega)]
      rfl
    · rw [hlate _ (by omega)]
      rfl
    · rw [hlate _ (by omega)]
      rfl
    · rw [hstill]
      show (reset.count.toNat : ℤ) = (32000 + 0) % 64000
      decide
  | succ n ih =>
    have hrst : decide (R + n < R) = false := decide_eq_false (by omega)
    rw [← Nat.add_assoc, heldRun, trace_succ, hrst]
    exact ih.step

theorem count_heldRun {n : ℕ} (hn : R ≤ n + 3) :
    ((heldRun e₀ s R (n + 3)).count.toNat : ℤ) = (32000 + position s n) % 64000 := by
  have h := (inv_heldRun e₀ hreset hrest (n + 3 - R)).count
  rw [Nat.add_sub_cancel' hn, funext (delayed_eq s), position_delay (hrest 0 hreset)] at h
  exact h

end Held

end Encoder

end PanTilt.Fpga
