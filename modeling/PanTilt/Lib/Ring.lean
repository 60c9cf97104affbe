import Mathlib.Data.Nat.ModEq
import Mathlib.Logic.Function.Basic

/-!
Ring buffers: a log of values of which the newest are kept in an array of `N` slots, value number
`i` in slot `i % N`.

Between a start and an end less than `N` apart the two indices modulo `N` tell whether there is
nothing between them (`mod_eq_iff`) and whether there is room for one more (`succ_mod_eq_iff`), and
`Holds` says that the slots between them have the values of the log.
-/

namespace PanTilt.Lib.Ring

variable {α : Type*} {N i j lo hi : ℕ}

/-! ### Indices -/

theorem eq_of_mod_eq (h : i ≤ j) (h' : j < i + N) (hmod : j % N = i % N) : i = j := by
  obtain ⟨k, rfl⟩ := Nat.exists_eq_add_of_le h
  have hk : k % N = 0 := by
    have hmod' : Nat.ModEq N (i + k) (i + 0) := hmod
    exact hmod'.add_left_cancel'
  rw [Nat.mod_eq_of_lt (by omega)] at hk
  omega

/-- The ends of a window have the same slot exactly when it is empty. -/
lemma mod_eq_iff (h : lo ≤ hi) (h' : hi < lo + N) : hi % N = lo % N ↔ hi = lo :=
  ⟨fun e => (eq_of_mod_eq h h' e).symm, fun e => by rw [e]⟩

/-- The slot after a window is its first one exactly when it has no room for one more. -/
lemma succ_mod_eq_iff (h : lo ≤ hi) (h' : hi < lo + N) :
    (hi + 1) % N = lo % N ↔ hi + 1 = lo + N := by
  refine ⟨?_, fun e => by rw [e, Nat.add_mod_right]⟩
  intro e
  rcases Nat.lt_or_ge (hi + 1) (lo + N) with hlt | hge
  · have := eq_of_mod_eq (by omega) hlt e
    omega
  · omega

lemma mod_succ_mod (i N : ℕ) : (i % N + 1) % N = (i + 1) % N := Nat.mod_add_mod i N 1

/-- Every index below the end has its slot in common with one of the last `N`, and not an older
one. -/
lemma exists_mod_eq (h : i < hi) (hN : 0 < N) :
    ∃ w, i ≤ w ∧ w < hi ∧ hi ≤ w + N ∧ w % N = i % N := by
  have hdiv := Nat.div_add_mod (hi - 1 - i) N
  have hmod := Nat.mod_lt (hi - 1 - i) hN
  refine ⟨i + N * ((hi - 1 - i) / N), Nat.le_add_right _ _, by omega, by omega, ?_⟩
  exact Nat.add_mul_mod_self_left ..

/-! ### Contents -/

/-- The slots of the indices from `lo` to `hi` have the values of the log. -/
def Holds (N : ℕ) (buffer : ℕ → α) (log : List α) (lo hi : ℕ) : Prop :=
  ∀ i, lo ≤ i → i < hi → log[i]? = some (buffer (i % N))

variable {buffer : ℕ → α} {log : List α}

lemma holds_empty : Holds N buffer log lo lo := fun i h h' => absurd h' (by omega)

lemma Holds.mono (h : Holds N buffer log lo hi) {lo' : ℕ} (hlo : lo ≤ lo') :
    Holds N buffer log lo' hi := fun i hi hi' => h i (by omega) hi'

theorem Holds.write (h : Holds N buffer log lo hi) (hroom : hi < lo + N) (v : α) :
    Holds N (Function.update buffer (hi % N) v) log lo hi := by
  intro i hi₀ hi₁
  have hne : i % N ≠ hi % N := fun e => by
    have := eq_of_mod_eq (N := N) (Nat.le_of_lt hi₁) (by omega) e.symm
    omega
  rw [Function.update_of_ne hne]
  exact h i hi₀ hi₁

theorem Holds.push (h : Holds N buffer log lo log.length) {v : α}
    (hv : buffer (log.length % N) = v) :
    Holds N buffer (log ++ [v]) lo (log.length + 1) := by
  intro i hi₀ hi₁
  rcases Nat.lt_or_ge i log.length with hlt | hge
  · rw [List.getElem?_append_left hlt]
    exact h i hi₀ hlt
  · obtain rfl : i = log.length := by omega
    rw [List.getElem?_concat_length, hv]

lemma update_below (f buffer : ℕ → α) (k : ℕ) :
    Function.update (fun i => if i < k then f i else buffer i) k (f k) =
      fun i => if i < k + 1 then f i else buffer i := by
  funext i
  rcases lt_trichotomy i k with hlt | rfl | hgt
  · rw [Function.update_of_ne hlt.ne, if_pos hlt, if_pos (Nat.lt_succ_of_lt hlt)]
  · rw [Function.update_self, if_pos (Nat.lt_succ_self i)]
  · rw [Function.update_of_ne hgt.ne', if_neg (by omega), if_neg (by omega)]

end PanTilt.Lib.Ring
