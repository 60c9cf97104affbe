import PanTilt.Lib.Quadrature

/-!
`encoder_reader.c`: the position of one motor, decoded on the processor.

`process_transition` compares the levels of the last call with the present ones and moves the
position by one. The position is an `atomic_int`, which wraps; `added` is the same without a bound.
Called once on each change of the level the reader follows the motion (`position_follow`).
-/

namespace PanTilt.App.EncoderReader

open Lib.Quadrature

/-- `last_a`, `last_b` and `position`. -/
structure Reader where
  lastA : BitVec 32
  lastB : BitVec 32
  position : BitVec 32
  deriving DecidableEq

/-- The `delta` of `process_transition`. -/
def delta (lastA lastB newA newB : BitVec 32) : ℤ :=
  let prev := lastA <<< 1 ||| lastB
  let curr := newA <<< 1 ||| newB
  if prev <<< 2 ||| curr ∈ [0b0001#32, 0b0111#32, 0b1110#32, 0b1000#32] then 1
  else if prev <<< 2 ||| curr ∈ [0b0010#32, 0b0100#32, 0b1101#32, 0b1011#32] then -1
  else 0

def processTransition (r : Reader) (newA newB : BitVec 32) : Reader where
  lastA := newA
  lastB := newB
  position :=
    let delta := delta r.lastA r.lastB newA newB
    if delta ≠ 0 then r.position + BitVec.ofInt 32 delta else r.position

/-- The value of a line. -/
def lineValue (b : Bool) : BitVec 32 := if b then 1 else 0

/-- What `main` sets up at the level `l`. -/
def start (l : Level) : Reader where
  lastA := lineValue l.1
  lastB := lineValue l.2
  position := 0

/-- The reader after sample `n`, with a call on each change of the level. -/
def follow (s : ℕ → Level) : ℕ → Reader
  | 0 => start (s 0)
  | n + 1 =>
    if s (n + 1) = s n then follow s n
    else processTransition (follow s n) (lineValue (s (n + 1)).1) (lineValue (s (n + 1)).2)

/-- The `delta`s of these calls, added up. -/
def added (s : ℕ → Level) : ℕ → ℤ
  | 0 => 0
  | n + 1 =>
    if s (n + 1) = s n then added s n
    else added s n + delta (follow s n).lastA (follow s n).lastB (lineValue (s (n + 1)).1)
      (lineValue (s (n + 1)).2)

/-- **The two tables** are the forward and the backward moves. -/
lemma delta_eq : ∀ l m : Level,
    delta (lineValue l.1) (lineValue l.2) (lineValue m.1) (lineValue m.2) = move l m := by
  decide

lemma processTransition_position (r : Reader) (newA newB : BitVec 32) :
    (processTransition r newA newB).position =
      r.position + BitVec.ofInt 32 (delta r.lastA r.lastB newA newB) := by
  unfold processTransition
  by_cases h : delta r.lastA r.lastB newA newB = 0
  · simp [h]
  · simp [h]

lemma follow_last (s : ℕ → Level) (n : ℕ) :
    (follow s n).lastA = lineValue (s n).1 ∧ (follow s n).lastB = lineValue (s n).2 := by
  induction n with
  | zero => exact ⟨rfl, rfl⟩
  | succ n ih =>
    rw [follow]
    split
    case isTrue h =>
      rw [h]
      exact ih
    case isFalse h => exact ⟨rfl, rfl⟩

theorem added_eq (s : ℕ → Level) (n : ℕ) : added s n = position s n := by
  induction n with
  | zero => rfl
  | succ n ih =>
    obtain ⟨ha, hb⟩ := follow_last s n
    rw [added, position, ih, ha, hb, delta_eq]
    split
    case isTrue h => rw [h, move_self, Int.add_zero]
    case isFalse h => rfl

theorem position_follow (s : ℕ → Level) (n : ℕ) :
    (follow s n).position = BitVec.ofInt 32 (added s n) := by
  induction n with
  | zero => rfl
  | succ n ih =>
    rw [follow, added]
    split
    case isTrue h => exact ih
    case isFalse h => rw [processTransition_position, ih, BitVec.ofInt_add]

end PanTilt.App.EncoderReader
