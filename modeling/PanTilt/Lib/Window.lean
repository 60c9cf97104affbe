import Mathlib.Algebra.Order.Interval.Finset.Basic
import Mathlib.Data.Nat.Periodic

/-!
Counting in windows of a free-running counter: of `M` consecutive numbers, exactly `m` leave a
remainder below `m` when divided by `M`, whatever the phase. A counter that turns around at both
ends of its range, without repeating them, is below `d` for `2 * d - 1` numbers of each period.
-/

namespace PanTilt.Lib.Window

lemma card_shift (p : ℕ → Prop) [DecidablePred p] (k a M : ℕ) :
    ((Finset.Ico (a + k) (a + k + M)).filter p).card =
      ((Finset.Ico a (a + M)).filter fun n => p (n + k)).card := by
  rw [Nat.add_right_comm a k M, ← Finset.map_add_right_Ico, Finset.filter_map, Finset.card_map]
  rfl

theorem card_window {M m : ℕ} (hm : m ≤ M) (k a : ℕ) :
    ((Finset.Ico a (a + M)).filter fun n => (k + n) % M < m).card = m := by
  have hper : Function.Periodic (fun n => n % M < m) M := fun n => by simp only [Nat.add_mod_right]
  have hshift : ((Finset.Ico a (a + M)).filter fun n => (k + n) % M < m).card =
      ((Finset.Ico (a + k) (a + k + M)).filter fun n => n % M < m).card := by
    rw [card_shift]
    simp only [Nat.add_comm k]
  rw [hshift, Nat.filter_Ico_card_eq_of_periodic _ _ _ hper, Nat.count_eq_card_filter_range]
  have hrange : (Finset.range M).filter (fun n => n % M < m) = Finset.range m := by
    ext n
    simp only [Finset.mem_filter, Finset.mem_range]
    constructor
    · rintro ⟨hn, hlt⟩
      rwa [Nat.mod_eq_of_lt hn] at hlt
    · intro hn
      exact ⟨by omega, by rwa [Nat.mod_eq_of_lt (by omega)]⟩
  rw [hrange, Finset.card_range]

/-! ### A counter that turns around -/

/-- The place of a counter that runs up from `0` to `m` and back, `p` steps after it was at `0`. -/
def triangle (m p : ℕ) : ℕ := min p (2 * m - p)

lemma triangle_mod {m p : ℕ} (hp : p ≤ 2 * m) : triangle m (p % (2 * m)) = triangle m p := by
  rcases Nat.lt_or_eq_of_le hp with hlt | rfl
  · rw [Nat.mod_eq_of_lt hlt]
  · rw [Nat.mod_self]
    unfold triangle
    omega

lemma triangle_succ_mod {m : ℕ} (hm : 0 < m) (n : ℕ) :
    triangle m ((n + 1) % (2 * m)) = triangle m (n % (2 * m)) + 1 ∨
      triangle m ((n + 1) % (2 * m)) + 1 = triangle m (n % (2 * m)) := by
  have hlt : n % (2 * m) < 2 * m := Nat.mod_lt _ (by omega)
  rw [← Nat.mod_add_mod, triangle_mod hlt]
  unfold triangle
  omega

/-- Going up and going down, the places below `d` lie around the lower turn. -/
lemma triangle_lt_iff {m d p : ℕ} (hd : 0 < d) (hm : d ≤ m) (hp : p < 2 * m) :
    triangle m p < d ↔ (d - 1 + p) % (2 * m) < 2 * d - 1 := by
  unfold triangle
  rcases Nat.lt_or_ge (d - 1 + p) (2 * m) with hlt | hge
  · rw [Nat.mod_eq_of_lt hlt]
    omega
  · rw [Nat.mod_eq_sub_mod hge, Nat.mod_eq_of_lt (by omega)]
    omega

theorem card_triangle {m d : ℕ} (hd : 0 < d) (hm : d ≤ m) (k a : ℕ) :
    ((Finset.Ico a (a + 2 * m)).filter fun n => triangle m ((k + n) % (2 * m)) < d).card =
      2 * d - 1 := by
  rw [← @card_window (2 * m) (2 * d - 1) (by omega) (d - 1 + k) a]
  refine congrArg Finset.card (Finset.filter_congr ?_)
  intro n _
  rw [triangle_lt_iff hd hm (Nat.mod_lt _ (by omega)), Nat.add_mod_mod, Nat.add_assoc]

end PanTilt.Lib.Window
