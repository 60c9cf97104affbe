import Mathlib.Data.ZMod.Basic
import Mathlib.Tactic.Ring

/-!
Items that are dealt to `N` lanes in turn.

`lane_deal` is where the last `N` items lie: they fill the lanes from the one that was due, so that
a sender who counts from another lane finds them rotated.
-/

namespace PanTilt.Lib

variable {N : ℕ} {α : Type*}

/-- The lane that is due, and the last item of each lane. -/
@[ext]
structure Lanes (N : ℕ) (α : Type*) where
  place : ZMod N
  lane : ZMod N → α

namespace Lanes

/-- The next item. -/
def put (b : Lanes N α) (a : α) : Lanes N α where
  place := b.place + 1
  lane := Function.update b.lane b.place a

@[simp] lemma place_put (b : Lanes N α) (a : α) : (b.put a).place = b.place + 1 := rfl

@[simp] lemma lane_put (b : Lanes N α) (a : α) :
    (b.put a).lane = Function.update b.lane b.place a := rfl

/-- A list of items, one after the other. -/
def deal (b : Lanes N α) (as : List α) : Lanes N α := as.foldl put b

@[simp] lemma deal_nil (b : Lanes N α) : b.deal [] = b := rfl

@[simp] lemma deal_cons (b : Lanes N α) (a : α) (as : List α) :
    b.deal (a :: as) = (b.put a).deal as := rfl

lemma deal_append (b : Lanes N α) (as bs : List α) : b.deal (as ++ bs) = (b.deal as).deal bs :=
  List.foldl_append

theorem place_deal (b : Lanes N α) (as : List α) : (b.deal as).place = b.place + as.length := by
  induction as generalizing b with
  | nil => simp
  | cons a as ih =>
    rw [deal_cons, ih, place_put, List.length_cons]
    push_cast
    ring

lemma add_natCast_ne (p : ZMod N) {i j : ℕ} (hi : i < N) (hj : j < N) (hij : i ≠ j) :
    p + (i : ZMod N) ≠ p + j := by
  intro h
  apply hij
  have hcast := add_left_cancel h
  rwa [ZMod.natCast_eq_natCast_iff', Nat.mod_eq_of_lt hi, Nat.mod_eq_of_lt hj] at hcast

theorem lane_deal_of_lt (b : Lanes N α) {as : List α} {i : ℕ} (hi : as.length ≤ i) (hiN : i < N) :
    (b.deal as).lane (b.place + i) = b.lane (b.place + i) := by
  induction as generalizing b i with
  | nil => rfl
  | cons a as ih =>
    rw [List.length_cons] at hi
    obtain ⟨i, rfl⟩ := Nat.exists_eq_add_of_le' (by omega : 1 ≤ i)
    have hput := ih (b.put a) (i := i) (by omega) (by omega)
    have hne := add_natCast_ne b.place hiN (by omega : 0 < N) (by omega : i + 1 ≠ 0)
    rw [Nat.cast_zero, add_zero] at hne
    have hplace : (b.put a).place + i = b.place + ((i + 1 : ℕ) : ZMod N) := by
      rw [place_put]
      push_cast
      ring
    rw [hplace] at hput
    rw [deal_cons, hput, lane_put, Function.update_of_ne hne]

theorem lane_deal (b : Lanes N α) {as : List α} (hlength : as.length ≤ N) {i : ℕ}
    (hi : i < as.length) : (b.deal as).lane (b.place + i) = as[i] := by
  induction as generalizing b i with
  | nil => exact absurd hi (Nat.not_lt_zero i)
  | cons a as ih =>
    rw [List.length_cons] at hlength hi
    rw [deal_cons]
    cases i with
    | zero =>
      -- the later items do not come round to this lane
      have hlast : b.place + ((0 : ℕ) : ZMod N) = (b.put a).place + ((N - 1 : ℕ) : ZMod N) := by
        rw [place_put, Nat.cast_sub (by omega), ZMod.natCast_self]
        push_cast
        ring
      rw [hlast, lane_deal_of_lt (b.put a) (by omega) (by omega), ← hlast]
      simp
    | succ i =>
      have hplace : b.place + ((i + 1 : ℕ) : ZMod N) = (b.put a).place + i := by
        rw [place_put]
        push_cast
        ring
      rw [hplace, ih (b.put a) (by omega) (by omega)]
      rfl

/-- **Where the last `N` items lie**, after any others: the one with number `i` is `i` lanes after
the lane that was due. -/
theorem lane_deal_append (b : Lanes N α) (as : List α) {bs : List α} (hlength : bs.length = N)
    {i : ℕ} (hi : i < bs.length) :
    (b.deal (as ++ bs)).lane (b.place + as.length + i) = bs[i] := by
  rw [deal_append, ← place_deal]
  exact lane_deal _ hlength.le hi

end Lanes

end PanTilt.Lib
