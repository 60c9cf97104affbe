import Mathlib.Tactic.Common

/-!
Runs that can fault.

A run is an `Except`: it ends with a result or with the first fault. `Ends m P` says that `m` ends
without a fault and that its result has `P`; the rules follow the ways runs are put together. The
rule for a loop over a list is that of a simulation: it compares the loop with a fold that cannot
fault.
-/

namespace PanTilt.Lib.Faults

universe u

variable {ε T : Type*} {A B S : Type u} {P : A → Prop} {Q : B → Prop}

/-- The run ends without a fault, and its result has `P`. -/
def Ends (m : Except ε A) (P : A → Prop) : Prop := ∃ a, m = .ok a ∧ P a

@[simp] lemma ok_bind (a : A) (f : A → Except ε B) : (.ok a >>= f) = f a := rfl

lemma Ends.ok {a : A} (h : P a) : Ends (.ok a : Except ε A) P := ⟨a, rfl, h⟩

lemma Ends.mono {m : Except ε A} {P' : A → Prop} (h : Ends m P) (hP : ∀ a, P a → P' a) :
    Ends m P' := by
  obtain ⟨a, ha, hPa⟩ := h
  exact ⟨a, ha, hP a hPa⟩

theorem Ends.bind {m : Except ε A} {f : A → Except ε B} (h : Ends m P)
    (hf : ∀ a, P a → Ends (f a) Q) : Ends (m >>= f) Q := by
  obtain ⟨a, rfl, ha⟩ := h
  exact hf a ha

/-- **A loop over a list.** What relates its state to that of a fold, and is kept by each round,
relates the results. -/
theorem Ends.foldlM {f : S → A → Except ε S} {g : T → A → T} {R : T → S → Prop} {l : List A}
    (h : ∀ a ∈ l, ∀ t s, R t s → Ends (f s a) (R (g t a))) {t : T} {s : S} (hR : R t s) :
    Ends (l.foldlM f s) (R (l.foldl g t)) := by
  induction l generalizing t s with
  | nil => exact .ok hR
  | cons a l ih =>
    rw [List.foldlM_cons]
    refine (h a List.mem_cons_self t s hR).bind ?_
    intro s' hs'
    exact ih (fun b hb => h b (List.mem_cons_of_mem a hb)) hs'

end PanTilt.Lib.Faults
