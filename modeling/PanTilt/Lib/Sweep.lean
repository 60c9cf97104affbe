import Mathlib.Data.Fintype.Basic
import Mathlib.Data.Finset.Max
import Mathlib.Order.Preorder.Finite

/-!
Maximal members of a finite family, found by one sweep through it.

`knockOut` is one step: a member that still stands knocks out all others that are not larger.
The invariant of the sweep (`Swept`) is that every leader stands, a leader being below none but the
members of its own kind and the first of these, and that whoever has had its turn and stands has
knocked out what lies below it. At the end nobody but the leaders is left (`sweep_iff`), since every
member lies below one.
-/

namespace PanTilt.Lib.Sweep

variable {ι P : Type*} [LinearOrder ι] [Preorder P] (v : ι → P)

/-! ### Leaders -/

/-- Whatever is at least as large is as large and does not come before. -/
def Leads (i : ι) : Prop := ∀ j, v i ≤ v j → v j ≤ v i ∧ i ≤ j

theorem exists_leads [Fintype ι] (i : ι) : ∃ m, Leads v m ∧ v i ≤ v m := by
  classical
  obtain ⟨p, hp, hmax⟩ :=
    (Finset.univ.filter fun j => v i ≤ v j).exists_maximalFor v ⟨i, by simp⟩
  have hip : v i ≤ v p := (Finset.mem_filter.1 hp).2
  -- of those as large as `p`, the first one
  obtain ⟨m, hm, hmin⟩ :=
    (Finset.univ.filter fun j => v p ≤ v j).exists_minimal ⟨p, by simp⟩
  have hpm : v p ≤ v m := (Finset.mem_filter.1 hm).2
  refine ⟨m, ?_, hip.trans hpm⟩
  intro j hj
  have hpj : v p ≤ v j := hpm.trans hj
  have hjp : v j ≤ v p := hmax (by simp [hip.trans hpj]) hpj
  refine ⟨hjp.trans hpm, ?_⟩
  rcases le_total m j with h | h
  · exact h
  · exact hmin (by simp [hpj]) h

/-! ### The invariant -/

/-- The state of the sweep when the members with `done` have had their turns. -/
structure Swept (done : ι → Prop) (stands : ι → Bool) : Prop where
  /-- No leader is knocked out. -/
  leads : ∀ i, Leads v i → stands i = true
  /-- Below a member that had its turn and stands, nobody else does. -/
  below : ∀ i, done i → stands i = true → ∀ j, v j ≤ v i → stands j = true → j = i

lemma Swept.start : Swept v (fun _ => False) fun _ => true :=
  ⟨fun _ _ => rfl, fun _ h => h.elim⟩

/-! ### The sweep -/

variable [DecidableLE P]

/-- The turn of `i`. -/
def knockOut (stands : ι → Bool) (i : ι) : ι → Bool :=
  if stands i then fun j => stands j && (decide (j = i) || !decide (v j ≤ v i)) else stands

/-- One turn for each member of `order`. -/
def sweep (order : List ι) : ι → Bool := order.foldl (knockOut v) fun _ => true

variable {v}

lemma knockOut_le {stands : ι → Bool} {i j : ι} (h : knockOut v stands i j = true) :
    stands j = true := by
  unfold knockOut at h
  split at h
  · exact (Bool.and_eq_true_iff.1 h).1
  · exact h

/-- **One turn.** All members before `i` have had theirs. -/
theorem Swept.knockOut {done : ι → Prop} {stands : ι → Bool} (h : Swept v done stands) {i : ι}
    (hi : ∀ j, j < i → done j) :
    Swept v (fun j => done j ∨ j = i) (knockOut v stands i) := by
  refine ⟨?_, ?_⟩
  · intro j hj
    have hjs : stands j = true := h.leads j hj
    unfold Sweep.knockOut
    split
    · next his =>
      by_cases hji : j = i
      · simp [his, hji]
      · have hnot : ¬ v j ≤ v i := by
          intro hle
          obtain ⟨hback, hlei⟩ := hj i hle
          -- the leader `j` had its turn before, so `i` does not stand
          have hlt : j < i := lt_of_le_of_ne hlei hji
          exact hji (h.below j (hi j hlt) hjs i hback his).symm
        simp [hjs, hnot]
    · exact hjs
  · rintro a (ha | rfl) has j hj hjs
    · exact h.below a ha (knockOut_le has) j hj (knockOut_le hjs)
    · by_contra hja
      have has' := knockOut_le has
      unfold Sweep.knockOut at hjs
      simp [has', hja, hj] at hjs

lemma Swept.foldl {order : List ι} : ∀ {done : ι → Prop} {stands : ι → Bool}, Swept v done stands →
    order.Pairwise (· < ·) → (∀ i, i ∈ order ∨ done i) →
      Swept v (fun _ => True) (order.foldl (Sweep.knockOut v) stands) := by
  induction order with
  | nil =>
    intro done stands h _ hall
    exact ⟨h.leads, fun i _ => h.below i ((hall i).resolve_left List.not_mem_nil)⟩
  | cons i order ih =>
    intro done stands h hord hall
    obtain ⟨hlt, hord⟩ := List.pairwise_cons.1 hord
    have hi : ∀ j, j < i → done j := by
      intro j hji
      refine (hall j).resolve_left fun hj => ?_
      rcases List.mem_cons.1 hj with rfl | hj
      · exact lt_irrefl _ hji
      · exact lt_asymm hji (hlt j hj)
    refine ih (h.knockOut hi) hord fun j => ?_
    rcases hall j with hj | hj
    · rcases List.mem_cons.1 hj with rfl | hj
      · exact .inr (.inr rfl)
      · exact .inl hj
    · exact .inr (.inl hj)

theorem sweep_iff [Fintype ι] {order : List ι} (hord : order.Pairwise (· < ·))
    (hall : ∀ i, i ∈ order) (i : ι) : sweep v order i = true ↔ Leads v i := by
  have hswept : Swept v (fun _ => True) (sweep v order) :=
    (Swept.start v).foldl hord fun i => .inl (hall i)
  refine ⟨?_, hswept.leads i⟩
  intro hi
  obtain ⟨m, hm, him⟩ := exists_leads v i
  rw [hswept.below m trivial (hswept.leads m hm) i him hi]
  exact hm

end PanTilt.Lib.Sweep
