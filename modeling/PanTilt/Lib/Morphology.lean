import Mathlib.Order.GaloisConnection.Basic
import Mathlib.Data.Set.Lattice
import Mathlib.Order.CompletePartialOrder

/-!
Erosion and dilation of sets of points by a relation that says which points a point covers.

They are a Galois connection, so the opening of a set, the dilation of its erosion, is part of the
set and has no smaller opening.
-/

namespace PanTilt.Lib.Morphology

variable {V : Type*} (near : V → V → Prop) {S T I : Set V}

/-- The points all of whose covered points are in the set. -/
def erode (S : Set V) : Set V := {c | ∀ p, near c p → p ∈ S}

/-- The points that a point of the set covers. -/
def dilate (T : Set V) : Set V := {p | ∃ c ∈ T, near c p}

theorem gc : GaloisConnection (dilate near) (erode near) := by
  intro T S
  refine ⟨?_, ?_⟩
  · intro h c hc p hp
    exact h ⟨c, hc, hp⟩
  · rintro h p ⟨c, hc, hp⟩
    exact h hc p hp

/-- The union of the blocks that lie in a set. -/
def opening (S : Set V) : Set V := dilate near (erode near S)

lemma opening_subset (S : Set V) : opening near S ⊆ S := (gc near).l_u_le S

theorem opening_opening (S : Set V) : opening near (opening near S) = opening near S :=
  (gc near).l_u_l_eq_l (erode near S)

/-! ### Openings inside a region

A pass over a frame leaves out its border: erosion and dilation then keep only points of an inner
region. -/

/-- The opening by passes that only set points of a region. -/
def openingIn (I S : Set V) : Set V := dilate near (erode near S ∩ I) ∩ I

lemma openingIn_subset_opening (I S : Set V) : openingIn near I S ⊆ opening near S := by
  rintro p ⟨⟨c, ⟨hc, _⟩, hp⟩, _⟩
  exact ⟨c, hc, hp⟩

lemma openingIn_subset (I S : Set V) : openingIn near I S ⊆ S := by
  intro p hp
  exact opening_subset near S (openingIn_subset_opening near I S hp)

variable {near}

theorem openingIn_eq_opening (hrefl : ∀ c, near c c) (h : S ⊆ I) :
    openingIn near I S = opening near S := by
  have hin : erode near S ∩ I = erode near S := by
    refine Set.inter_eq_left.mpr ?_
    intro c hc
    exact h (hc c (hrefl c))
  have hout : opening near S ∩ I = opening near S := by
    refine Set.inter_eq_left.mpr ?_
    intro p hp
    exact h (opening_subset near S hp)
  rw [openingIn, hin]
  exact hout

lemma openingIn_openingIn (hrefl : ∀ c, near c c) (h : S ⊆ I) :
    openingIn near I (openingIn near I S) = openingIn near I S := by
  have h' : opening near S ⊆ I := (opening_subset near S).trans h
  rw [openingIn_eq_opening hrefl h, openingIn_eq_opening hrefl h', opening_opening]

end PanTilt.Lib.Morphology
