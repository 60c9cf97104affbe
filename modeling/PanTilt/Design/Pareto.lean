import Mathlib.Data.Fin.VecNotation
import Mathlib.Data.Fintype.Pi
import PanTilt.Lib.Sweep

/-!
`is_pareto_efficient` of `plot_vairants.py`: the design variants that no other variant dominates.

`isParetoEfficient` runs the loop of the source over an array of `n` score vectors. It is the sweep
of the product order (`isParetoEfficient_eq_sweep`), so that it selects the variants that are not
dominated, and of those with the same scores only the first (`isParetoEfficient_iff`).
-/

namespace PanTilt.Design

open Lib.Sweep

variable {n k : ℕ} {α : Type*} [LinearOrder α]

/-- `np.any(x > y)` along a row. -/
def anyGreater (x y : Fin k → α) : Bool := decide (∃ c, y c < x c)

/-- One round of the loop. The mask is assigned at the places where it is set, then at `i`. -/
def paretoRound (data : Fin n → Fin k → α) (isEfficient : Fin n → Bool) (i : Fin n) :
    Fin n → Bool :=
  if isEfficient i then
    Function.update
      (fun j => if isEfficient j then anyGreater (data j) (data i) else isEfficient j) i true
  else isEfficient

/-- The mask of the rows of `data`. -/
def isParetoEfficient (data : Fin n → Fin k → α) : Fin n → Bool :=
  (List.finRange n).foldl (paretoRound data) fun _ => true

/-! ### Dominance -/

/-- `x` is at least as large as `y` in every coordinate and larger in one. -/
def Dominates (x y : Fin k → α) : Prop := (∀ c, y c ≤ x c) ∧ ∃ c, y c < x c

/-- No vector of the list dominates that of the index. -/
def NonDominated (data : Fin n → Fin k → α) (i : Fin n) : Prop :=
  ∀ j, ¬ Dominates (data j) (data i)

instance (x y : Fin k → α) : Decidable (Dominates x y) := by
  unfold Dominates
  infer_instance

instance (data : Fin n → Fin k → α) (i : Fin n) : Decidable (NonDominated data i) := by
  unfold NonDominated
  infer_instance

/-- Dominance is the strict product order. -/
lemma dominates_iff {x y : Fin k → α} : Dominates x y ↔ y < x := Pi.lt_def.symm

instance decidableLERow : DecidableLE (Fin k → α) := fun x y =>
  inferInstanceAs (Decidable (∀ c, x c ≤ y c))

lemma anyGreater_eq (x y : Fin k → α) : anyGreater x y = !decide (x ≤ y) := by
  rw [anyGreater, ← decide_not]
  refine decide_eq_decide.2 ?_
  simp only [Pi.le_def, not_forall, not_le]

theorem isParetoEfficient_eq_sweep (data : Fin n → Fin k → α) :
    isParetoEfficient data = sweep data (List.finRange n) := by
  have hround : paretoRound data = knockOut data := by
    funext isEfficient i j
    unfold paretoRound knockOut
    by_cases hi : isEfficient i = true
    · rw [if_pos hi, if_pos hi]
      by_cases hj : j = i
      · subst hj
        simp [hi]
      · rw [Function.update_of_ne hj, anyGreater_eq]
        cases isEfficient j <;> simp [hj]
    · rw [if_neg hi, if_neg hi]
  rw [isParetoEfficient, sweep, hround]

lemma leads_iff (data : Fin n → Fin k → α) (i : Fin n) :
    Leads data i ↔ NonDominated data i ∧ ∀ j, j < i → data j ≠ data i := by
  constructor
  · intro h
    refine ⟨?_, ?_⟩
    · intro j hj
      have hlt : data i < data j := dominates_iff.1 hj
      exact hlt.not_ge (h j hlt.le).1
    · intro j hji heq
      exact hji.not_ge (h j heq.ge).2
  · rintro ⟨hnon, hfirst⟩ j hle
    have hge : data j ≤ data i := by
      by_contra hnot
      exact hnon j (dominates_iff.2 (lt_of_le_not_ge hle hnot))
    exact ⟨hge, le_of_not_gt fun hji => hfirst j hji (le_antisymm hge hle)⟩

theorem isParetoEfficient_iff (data : Fin n → Fin k → α) (i : Fin n) :
    isParetoEfficient data i = true ↔
      NonDominated data i ∧ ∀ j, j < i → data j ≠ data i := by
  rw [isParetoEfficient_eq_sweep, sweep_iff (List.pairwise_lt_finRange n) List.mem_finRange,
    leads_iff]

/-- **The mask is that of the variants which are not dominated** exactly if no two of these have
the same scores. -/
theorem selects_nonDominated_iff (data : Fin n → Fin k → α) :
    (∀ i, isParetoEfficient data i = true ↔ NonDominated data i) ↔
      ∀ i j, NonDominated data i → data i = data j → i = j := by
  constructor
  · intro h
    have hfirst : ∀ i j, NonDominated data i → data i = data j → ¬ j < i := by
      intro i j hi heq hji
      exact ((isParetoEfficient_iff data i).1 ((h i).2 hi)).2 j hji heq.symm
    intro i j hi heq
    have hj : NonDominated data j := fun m => heq ▸ hi m
    exact le_antisymm (le_of_not_gt (hfirst i j hi heq)) (le_of_not_gt (hfirst j i hj heq.symm))
  · intro h i
    rw [isParetoEfficient_iff]
    refine ⟨And.left, fun hi => ⟨hi, fun j hji heq => ?_⟩⟩
    exact hji.ne (h i j hi heq.symm).symm

/-- Two equal variants above a third: the second of them is not dominated, and not selected. -/
theorem twin_not_selected :
    ¬ ∀ (n k : ℕ) (data : Fin n → Fin k → ℕ) (i : Fin n),
      isParetoEfficient data i = true ↔ NonDominated data i := by
  intro h
  have h₁ := (h 3 3 ![![1, 1, 1], ![1, 1, 1], ![0, 0, 0]] 1).2 (by decide)
  revert h₁
  decide

end PanTilt.Design
