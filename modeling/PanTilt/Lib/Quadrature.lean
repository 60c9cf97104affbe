import Mathlib.Tactic.Common
import Mathlib.Algebra.Order.Ring.Int
import Mathlib.Data.Fintype.Prod

/-!
Quadrature signals: two lines that go through `00 → 01 → 11 → 10 → 00` in one direction of motion
and back in the other, one bit at a time.

A *legal* stream of levels changes at most one bit between samples; such a stream has a position,
an integer that counts the moves (`isPosition_position`), and any two positions of one stream
differ by a constant (`IsPosition.sub_eq`). A stream behind registers is the stream late, and so is
its position (`position_delay`).
-/

namespace PanTilt.Lib.Quadrature

/-- The levels of the two lines. -/
abbrev Level := Bool × Bool

/-- The level after one move forwards. -/
def forward : Level → Level
  | (false, false) => (false, true)
  | (false, true) => (true, true)
  | (true, true) => (true, false)
  | (true, false) => (false, false)

/-- The move between two samples: `1` forwards, `-1` backwards, `0` if the level is the same or
both bits have changed. -/
def move (l m : Level) : ℤ := if m = forward l then 1 else if l = forward m then -1 else 0

lemma move_le (l m : Level) : -1 ≤ move l m ∧ move l m ≤ 1 := by
  unfold move
  split
  · omega
  · split <;> omega

/-- At most one of the two bits differs. -/
def Adjacent (l m : Level) : Prop := l.1 = m.1 ∨ l.2 = m.2

instance (l m : Level) : Decidable (Adjacent l m) := by unfold Adjacent; infer_instance

theorem adjacent_iff (l m : Level) : Adjacent l m ↔ l = m ∨ m = forward l ∨ l = forward m := by
  revert l m
  decide

/-- A stream in which consecutive samples are equal or differ in exactly one bit. -/
def Legal (s : ℕ → Level) : Prop := ∀ n, Adjacent (s n) (s (n + 1))

/-- A position of a stream: it goes up by one along a forward move, down by one along a backward
move, and stays where the level stays. -/
structure IsPosition (s : ℕ → Level) (p : ℕ → ℤ) : Prop where
  forward : ∀ n, s (n + 1) = forward (s n) → p (n + 1) = p n + 1
  backward : ∀ n, s n = Quadrature.forward (s (n + 1)) → p (n + 1) = p n - 1
  still : ∀ n, s (n + 1) = s n → p (n + 1) = p n

/-- The moves added up. -/
def position (s : ℕ → Level) : ℕ → ℤ
  | 0 => 0
  | n + 1 => position s n + move (s n) (s (n + 1))

lemma position_succ' (s : ℕ → Level) (n : ℕ) :
    position s (n + 1) = move (s 0) (s 1) + position (fun m => s (m + 1)) n := by
  induction n with
  | zero => simp [position]
  | succ n ih => rw [position, ih, position, Int.add_assoc]

lemma move_forward (l : Level) : move l (forward l) = 1 := by simp [move]

lemma move_backward : ∀ l : Level, move (forward l) l = -1 := by decide

lemma move_self : ∀ l : Level, move l l = 0 := by decide

theorem isPosition_position (s : ℕ → Level) : IsPosition s (position s) := by
  refine ⟨?_, ?_, ?_⟩
  · intro n h
    rw [position, h, move_forward]
  · intro n h
    rw [position, h, move_backward]
    rfl
  · intro n h
    rw [position, h, move_self, Int.add_zero]

theorem IsPosition.succ {s : ℕ → Level} {p : ℕ → ℤ} (h : IsPosition s p) (hs : Legal s) (n : ℕ) :
    p (n + 1) = p n + move (s n) (s (n + 1)) := by
  rcases (adjacent_iff _ _).1 (hs n) with he | hf | hb
  · rw [h.still n he.symm, he, move_self, Int.add_zero]
  · rw [h.forward n hf, hf, move_forward]
  · rw [h.backward n hb, hb, move_backward]
    rfl

theorem IsPosition.sub_eq {s : ℕ → Level} {p : ℕ → ℤ} (h : IsPosition s p) (hs : Legal s) (n : ℕ) :
    p n - p 0 = position s n := by
  induction n with
  | zero => simp [position]
  | succ n ih => rw [h.succ hs n, position, ← ih]; omega

/-! ### Still and late streams -/

lemma position_of_still {s : ℕ → Level} {n : ℕ} :
    ∀ k, (∀ j ≤ k, s (n + j) = s n) → position s (n + k) = position s n
  | 0, _ => rfl
  | k + 1, h => by
    have hlast : s (n + k + 1) = s (n + k) :=
      (h (k + 1) le_rfl).trans (h k (Nat.le_succ k)).symm
    rw [← Nat.add_assoc, position, hlast, move_self, Int.add_zero]
    exact position_of_still k fun j hj => h j (Nat.le_succ_of_le hj)

/-- Every level is held for at least two samples. -/
def Held (s : ℕ → Level) : Prop := ∀ n, s (n + 1) ≠ s n → s (n + 2) = s (n + 1)

/-- A stream `k` samples late, with the level `00` before it. -/
def delay (k : ℕ) (s : ℕ → Level) (n : ℕ) : Level := if n < k then (false, false) else s (n - k)

lemma delay_add (k : ℕ) (s : ℕ → Level) (n : ℕ) : delay k s (n + k) = s n := by
  rw [delay, if_neg (Nat.not_lt.2 (Nat.le_add_left k n)), Nat.add_sub_cancel]

lemma delay_of_lt {s : ℕ → Level} {R : ℕ} (hrest : ∀ n < R, s n = (false, false)) {k n : ℕ}
    (h : n < R + k) : delay k s n = (false, false) := by
  unfold delay
  split
  · rfl
  · exact hrest _ (by omega)

section Delay

variable {s : ℕ → Level} (h₀ : s 0 = (false, false)) (k : ℕ)

include h₀

lemma delay_of_le {n : ℕ} (h : n ≤ k) : delay k s n = (false, false) :=
  delay_of_lt (R := 1) (fun m hm => by rwa [Nat.lt_one_iff.1 hm]) (by omega)

lemma Legal.delay (h : Legal s) : Legal (delay k s) := by
  intro n
  rcases Nat.lt_or_ge n k with hn | hn
  · rw [delay_of_le h₀ k hn.le, delay_of_le h₀ k hn]
    exact .inl rfl
  · obtain ⟨m, rfl⟩ := Nat.exists_eq_add_of_le' hn
    rw [Nat.add_right_comm, delay_add, delay_add]
    exact h m

lemma Held.delay (h : Held s) : Held (delay k s) := by
  intro n hne
  rcases Nat.lt_or_ge n k with hn | hn
  · rw [delay_of_le h₀ k hn.le, delay_of_le h₀ k hn] at hne
    exact absurd rfl hne
  · obtain ⟨m, rfl⟩ := Nat.exists_eq_add_of_le' hn
    rw [Nat.add_right_comm, delay_add, delay_add] at hne
    rw [Nat.add_right_comm m k 1, Nat.add_right_comm m k 2, delay_add, delay_add]
    exact h m hne

theorem position_delay (n : ℕ) : position (Quadrature.delay k s) (n + k) = position s n := by
  induction n with
  | zero =>
    have hstill := @position_of_still (Quadrature.delay k s) 0 k fun j hj => by
      rw [Nat.zero_add, delay_of_le h₀ k hj, delay_of_le h₀ k (Nat.zero_le k)]
    exact hstill
  | succ n ih =>
    rw [Nat.add_right_comm, position, ih, Nat.add_right_comm, delay_add, delay_add, position]

end Delay

end PanTilt.Lib.Quadrature
