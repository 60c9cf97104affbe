import Mathlib.Combinatorics.SimpleGraph.Connectivity.Connected
import Mathlib.Data.Set.Card

/-!
Connected components of the white points of a space in which every point has a list of neighbours.

`met` is what a scan of some points has seen of them: it grows at the points at which the scan meets
a new component (`met_cons_of_new`), and `early_iff` says which ones a scan that stopped has met, by
the order of the scan alone.
-/

namespace PanTilt.Lib.Components

variable {V : Type*}

/-- A space, given by the neighbours of each point. -/
structure Space (V : Type*) where
  nbrs : V → List V
  symm : ∀ {u v : V}, v ∈ nbrs u → u ∈ nbrs v

namespace Space

variable (S : Space V) (white : V → Prop)

/-- The white points, joined to their white neighbours. -/
def graph : SimpleGraph V where
  Adj u v := u ≠ v ∧ (white u ∧ white v) ∧ v ∈ S.nbrs u
  symm := ⟨fun _ _ ⟨hne, hwhite, h⟩ => ⟨hne.symm, hwhite.symm, S.symm h⟩⟩
  loopless := ⟨fun _ h => h.1 rfl⟩

/-- There is a path of white points. -/
abbrev Joined (u v : V) : Prop := (S.graph white).Reachable u v

/-- The points joined to a point. -/
def component (u : V) : Set V := {v | S.Joined white u v}

/-- The components of the white points. -/
def components : Set (Set V) := {B | ∃ u, white u ∧ S.component white u = B}

/-- The components that some of the points are in. -/
def met (seen : List V) : Set (Set V) := {B | ∃ u ∈ seen, white u ∧ S.component white u = B}

variable {S white} {u v w : V} {seen : List V}

/-! ### Paths -/

lemma joined_of_nbr (hu : white u) (hv : white v) (h : v ∈ S.nbrs u) : S.Joined white u v := by
  by_cases hne : u = v
  · rw [hne]
  · exact SimpleGraph.Adj.reachable ⟨hne, ⟨hu, hv⟩, h⟩

theorem Joined.induction {P : V → Prop} (h : S.Joined white u v) (hu : P u)
    (hstep : ∀ a b, P a → white a → white b → b ∈ S.nbrs a → P b) : P v := by
  rw [Joined, SimpleGraph.reachable_iff_reflTransGen] at h
  induction h with
  | refl => exact hu
  | tail _ hadj ih => exact hstep _ _ ih hadj.2.1.1 hadj.2.1.2 hadj.2.2

lemma white_of_joined (h : S.Joined white u v) (hu : white u) : white v :=
  Joined.induction h hu (fun _ _ _ _ hb _ => hb)

lemma component_eq_iff : S.component white u = S.component white v ↔ S.Joined white u v := by
  refine ⟨?_, ?_⟩
  · intro h
    have hv : v ∈ S.component white v := SimpleGraph.Reachable.refl v
    rw [← h] at hv
    exact hv
  · intro h
    ext w
    exact ⟨fun hw => h.symm.trans hw, fun hw => h.trans hw⟩

theorem component_eq_of_closed {B : Set V} (hu : u ∈ B) (hB : ∀ v ∈ B, S.Joined white u v)
    (hclosed : ∀ a ∈ B, ∀ b ∈ S.nbrs a, white b → b ∈ B) : S.component white u = B := by
  ext v
  refine ⟨?_, hB v⟩
  intro h
  exact Joined.induction h hu (fun a b ha _ hb hnbr => hclosed a ha b hnbr hb)

/-- **Whole components can be taken away**: the others stay as they are. -/
theorem component_of_union (white' : V → Prop) (hsub : ∀ v, white' v → white v)
    (hunion : ∀ u v, white' u → S.Joined white u v → white' v) (hu : white' u) :
    S.component white' u = S.component white u := by
  symm
  refine component_eq_of_closed (SimpleGraph.Reachable.refl u) ?_ ?_
  · intro v hv
    exact Joined.induction hv (SimpleGraph.Reachable.refl u)
      (fun a b hab ha hb hnbr => hab.trans (joined_of_nbr (hsub a ha) (hsub b hb) hnbr))
  · intro a ha b hnbr hb
    have ha' : white' a := white_of_joined ha hu
    have hb' : white' b := hunion a b ha' (joined_of_nbr (hsub a ha') hb hnbr)
    exact SimpleGraph.Reachable.trans ha (joined_of_nbr ha' hb' hnbr)

/-! ### Counting -/

lemma mem_met_iff : S.component white v ∈ S.met white seen ↔
    ∃ u ∈ seen, white u ∧ S.Joined white u v := by
  refine ⟨?_, ?_⟩
  · rintro ⟨u, hu, hw, h⟩
    exact ⟨u, hu, hw, component_eq_iff.mp h⟩
  · rintro ⟨u, hu, hw, h⟩
    exact ⟨u, hu, hw, component_eq_iff.mpr h⟩

lemma met_subset : S.met white seen ⊆ S.components white := by
  rintro B ⟨u, _, hu, rfl⟩
  exact ⟨u, hu, rfl⟩

lemma met_eq_components (h : ∀ v, v ∈ seen) : S.met white seen = S.components white := by
  refine Set.Subset.antisymm met_subset ?_
  rintro B ⟨u, hu, rfl⟩
  exact ⟨u, h u, hu, rfl⟩

@[simp] lemma met_nil : S.met white [] = ∅ := by
  ext B
  simp [met]

lemma met_cons_of_old (h : white v → S.component white v ∈ S.met white seen) :
    S.met white (v :: seen) = S.met white seen := by
  ext B
  refine ⟨?_, ?_⟩
  · rintro ⟨u, hu, hw, rfl⟩
    rcases List.mem_cons.mp hu with rfl | hu
    · exact h hw
    · exact ⟨u, hu, hw, rfl⟩
  · rintro ⟨u, hu, hw, rfl⟩
    exact ⟨u, List.mem_cons_of_mem v hu, hw, rfl⟩

lemma met_cons_of_new (hv : white v) :
    S.met white (v :: seen) = insert (S.component white v) (S.met white seen) := by
  ext B
  refine ⟨?_, ?_⟩
  · rintro ⟨u, hu, hw, rfl⟩
    rcases List.mem_cons.mp hu with rfl | hu
    · exact .inl rfl
    · exact .inr ⟨u, hu, hw, rfl⟩
  · rintro (rfl | ⟨u, hu, hw, rfl⟩)
    · exact ⟨v, List.mem_cons_self, hv, rfl⟩
    · exact ⟨u, List.mem_cons_of_mem v hu, hw, rfl⟩

variable [Finite V]

lemma ncard_met_le : (S.met white seen).ncard ≤ (S.components white).ncard :=
  Set.ncard_le_ncard met_subset

/-! ### Components by the order of a scan -/

/-- A component has a point before every point of another. -/
def Precedes (index : V → ℕ) (B C : Set V) : Prop := ∃ u ∈ B, ∀ v ∈ C, index u < index v

variable (S white) in
/-- The components with a point before every point of the component of `v`. -/
def preceding (index : V → ℕ) (v : V) : Set (Set V) :=
  {B | B ∈ S.components white ∧ Precedes index B (S.component white v)}

theorem early_iff {index : V → ℕ} {seen : List V} (hv : white v)
    (hbefore : ∀ a ∈ seen, ∀ b, b ∉ seen → index a < index b) :
    S.component white v ∈ S.met white seen ↔
      (S.preceding white index v).ncard < (S.met white seen).ncard := by
  refine ⟨?_, ?_⟩
  · intro hmem
    refine Set.ncard_lt_ncard ⟨?_, ?_⟩
    · rintro B ⟨⟨w, hw, rfl⟩, u, hu, hlt⟩
      obtain ⟨a, ha, _, hav⟩ := mem_met_iff.mp hmem
      have hua : index u < index a := hlt a hav.symm
      have hu' : u ∈ seen := by
        by_contra hne
        have := hbefore a ha u hne
        omega
      exact ⟨u, hu', white_of_joined hu hw, (component_eq_iff.mpr hu).symm⟩
    · intro hsub
      obtain ⟨_, u, hu, hlt⟩ := hsub hmem
      exact absurd (hlt u hu) (Nat.lt_irrefl _)
  · intro hlt
    by_contra hmem
    refine absurd hlt (Nat.not_lt.mpr (Set.ncard_le_ncard ?_))
    rintro B ⟨u, hu, hw, rfl⟩
    refine ⟨⟨u, hw, rfl⟩, u, SimpleGraph.Reachable.refl u, ?_⟩
    intro b hb
    refine hbefore u hu b ?_
    intro hbs
    exact hmem (mem_met_iff.mpr ⟨b, hbs, white_of_joined hb hv, SimpleGraph.Reachable.symm hb⟩)

end Space

end PanTilt.Lib.Components
