import Mathlib.Tactic.Common

/-!
Interleavings: a machine that takes one of several steps at a time.

A choice says which step is taken and brings in what the step reads from outside; a step that is
blocked is `none`. `Run` is a run of such a machine in which every step meets a condition on its
choice and the state it is taken in, and `Run.invariant` is the rule to prove things about all of
them.
-/

namespace PanTilt.Lib.Interleave

variable {S C : Type*} {step : S → C → Option S} {ok : S → C → Prop} {s t u : S}

/-- `t` is reached from `s` by steps that meet `ok`. -/
inductive Run (step : S → C → Option S) (ok : S → C → Prop) (s : S) : S → Prop
  | refl : Run step ok s s
  | next {t u : S} (c : C) : Run step ok s t → ok t c → step t c = some u → Run step ok s u

/-- No condition on the steps. -/
def anyStep : S → C → Prop := fun _ _ => True

theorem Run.invariant {P : S → Prop} (h : Run step ok s t) (h₀ : P s)
    (hs : ∀ s c t, P s → ok s c → step s c = some t → P t) : P t := by
  induction h with
  | refl => exact h₀
  | next c _ hok hstep ih => exact hs _ c _ ih hok hstep

theorem Run.trans (h : Run step ok s t) (h' : Run step ok t u) : Run step ok s u := by
  induction h' with
  | refl => exact h
  | next c _ hok hstep ih => exact .next c ih hok hstep

theorem Run.mono {ok' : S → C → Prop} (h : Run step ok s t) (hok : ∀ s c, ok s c → ok' s c) :
    Run step ok' s t := by
  induction h with
  | refl => exact .refl
  | next c _ hc hstep ih => exact .next c ih (hok _ c hc) hstep

theorem Run.head (c : C) (hok : ok s c) (hstep : step s c = some t) (h : Run step ok t u) :
    Run step ok s u :=
  (Run.next c .refl hok hstep).trans h

theorem Run.cons (c : C) (hstep : step s c = some t) (h : Run step anyStep t u) :
    Run step anyStep s u :=
  h.head c trivial hstep

/-- The steps of a list of choices. -/
def exec (step : S → C → Option S) (s : S) (cs : List C) : Option S := cs.foldlM step s

theorem run_of_exec (cs : List C) (h : exec step s cs = some t) : Run step anyStep s t := by
  induction cs generalizing s with
  | nil =>
    obtain rfl : s = t := Option.some.inj h
    exact .refl
  | cons c cs ih =>
    rw [exec, List.foldlM_cons] at h
    obtain ⟨u, hu, htail⟩ := Option.bind_eq_some_iff.mp h
    exact Run.cons c hu (ih htail)

theorem run_of_exec_test {test : S → C → Bool} (htest : ∀ s c, test s c = true → ok s c)
    (cs : List C) (h : exec (fun s c => if test s c then step s c else none) s cs = some t) :
    Run step ok s t := by
  induction cs generalizing s with
  | nil =>
    obtain rfl : s = t := Option.some.inj h
    exact .refl
  | cons c cs ih =>
    rw [exec, List.foldlM_cons] at h
    obtain ⟨u, hu, htail⟩ := Option.bind_eq_some_iff.mp h
    obtain ⟨hc, hstep⟩ := Option.ite_none_right_eq_some.1 hu
    exact Run.head c (htest s c hc) hstep (ih htail)

end PanTilt.Lib.Interleave
