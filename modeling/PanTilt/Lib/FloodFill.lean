import PanTilt.Lib.Components
import Mathlib.Data.Fintype.Card

/-!
Breadth-first flood fill: the white points joined to a point get its label, in a map in which other
components have labels already.

The queue keeps all the points it ever held, the next one to read at `start`. `Filling` is what
holds at any point of the fill; once every point of the queue has been read, the queue is the
component (`Filling.exit`), and reading each point of the space once is enough (`flood_spec`).
-/

namespace PanTilt.Lib.FloodFill

open Components

variable {V : Type*}

/-- The label map, the queue with the index of the next point to read, and the points counted. -/
structure Fill (V : Type*) where
  label : V → ℕ
  queue : List V
  start : ℕ
  size : ℕ

section Algorithm

variable [DecidableEq V] (nbrs : V → List V) (white : V → Prop) [DecidablePred white]
  (current : ℕ)

/-- The point the fill starts from is labelled and in the queue. -/
def seed (label : V → ℕ) (p : V) : Fill V where
  label := Function.update label p current
  queue := [p]
  start := 0
  size := 1

/-- A neighbour is labelled and enqueued if it is white and not labelled. -/
def look (s : Fill V) (v : V) : Fill V :=
  if white v ∧ s.label v = 0 then
    { s with
      label := Function.update s.label v current
      queue := s.queue ++ [v]
      size := s.size + 1 }
  else s

/-- One turn of the loop, for the point read from the queue. -/
def expand (s : Fill V) (p : V) : Fill V :=
  (nbrs p).foldl (look white current) { s with start := s.start + 1 }

/-- At most `n` turns of the loop, which ends when no point is left to read. -/
def flood : ℕ → Fill V → Fill V
  | 0, s => s
  | n + 1, s =>
    match s.queue[s.start]? with
    | none => s
    | some p => flood n (expand nbrs white current s p)

lemma expand_start (s : Fill V) (p : V) :
    (expand nbrs white current s p).start = s.start + 1 := by
  have hlook : ∀ (l : List V) (t : Fill V), (l.foldl (look white current) t).start = t.start := by
    intro l
    induction l with
    | nil => exact fun t => rfl
    | cons v l ih =>
      intro t
      rw [List.foldl_cons, ih, look]
      split <;> rfl
  exact hlook _ _

end Algorithm

variable {S : Space V} {white : V → Prop} {current : ℕ} {old : V → ℕ} {p : V}
  {s s' s'' : Fill V}

/-! ### What holds throughout a fill -/

/-- The white neighbours of the first `n` points of the queue are labelled. -/
def Expanded (S : Space V) (white : V → Prop) (s : Fill V) (n : ℕ) : Prop :=
  ∀ u ∈ s.queue.take n, ∀ v ∈ S.nbrs u, white v → s.label v ≠ 0

/-- The queue and the labelled points only grow. -/
structure Grows (s s' : Fill V) : Prop where
  start : s'.start = s.start
  queue : s.queue <+: s'.queue
  label : ∀ v, s.label v ≠ 0 → s'.label v ≠ 0

lemma Grows.refl (s : Fill V) : Grows s s := ⟨rfl, List.prefix_refl _, fun _ h => h⟩

lemma Grows.trans (h : Grows s s') (h' : Grows s' s'') : Grows s s'' :=
  ⟨h'.start.trans h.start, h.queue.trans h'.queue, fun v hv => h'.label v (h.label v hv)⟩

variable [DecidableEq V]

/-- The state of the labels and the queue of a fill from `p`, in a map of old labels. -/
structure Filling (S : Space V) (white : V → Prop) (current : ℕ) (old : V → ℕ) (p : V)
    (s : Fill V) : Prop where
  /-- The points of the queue have the current label, and the others their old ones. -/
  label : ∀ v, s.label v = if v ∈ s.queue then current else old v
  /-- No point of the queue had a label. -/
  fresh : ∀ v ∈ s.queue, old v = 0
  joined : ∀ v ∈ s.queue, S.Joined white p v
  nodup : s.queue.Nodup
  size : s.size = s.queue.length
  seed : p ∈ s.queue
  start : s.start ≤ s.queue.length

lemma filling_seed (hold : old p = 0) : Filling S white current old p (seed current old p) where
  label v := by
    by_cases hv : v = p
    · subst hv
      simp [seed]
    · simp [seed, hv]
  fresh v hv := by
    obtain rfl : v = p := List.mem_singleton.mp hv
    exact hold
  joined v hv := by
    obtain rfl : v = p := List.mem_singleton.mp hv
    exact SimpleGraph.Reachable.refl v
  nodup := List.nodup_singleton p
  size := rfl
  seed := List.mem_singleton_self p
  start := Nat.zero_le _

lemma Filling.not_mem_of_label (h : Filling S white current old p s) (hcur : current ≠ 0) {v : V}
    (hv : s.label v = 0) : v ∉ s.queue ∧ old v = 0 := by
  rw [h.label] at hv
  by_cases hmem : v ∈ s.queue
  · rw [if_pos hmem] at hv
    exact absurd hv hcur
  · rw [if_neg hmem] at hv
    exact ⟨hmem, hv⟩

/-- **The exit argument.** When every point of the queue has been read, the queue is the
component. -/
theorem Filling.exit (h : Filling S white current old p s) (hp : white p)
    (hold : ∀ u v, old u ≠ 0 → v ∈ S.nbrs u → white v → old v ≠ 0)
    (hexp : Expanded S white s s.queue.length) :
    S.component white p = {v | v ∈ s.queue} := by
  refine Space.component_eq_of_closed h.seed h.joined ?_
  intro a ha b hb hwhite
  have hlabel : s.label b ≠ 0 := hexp a (by rwa [List.take_length]) b hb hwhite
  by_contra hmem
  have hob : old b ≠ 0 := by
    rw [h.label] at hlabel
    exact fun h0 => hlabel ((if_neg hmem).trans h0)
  have ha' : white a := Space.white_of_joined (h.joined a ha) hp
  exact hold b a hob (S.symm hb) ha' (h.fresh a ha)

/-- The queue has room for each point once. -/
lemma Filling.length_le [Fintype V] (h : Filling S white current old p s) :
    s.queue.length ≤ Fintype.card V := h.nodup.length_le_card

lemma Filling.length_lt [Fintype V] (h : Filling S white current old p s) (hcur : current ≠ 0)
    {v : V} (hv : s.label v = 0) : s.queue.length < Fintype.card V := by
  obtain ⟨hmem, -⟩ := h.not_mem_of_label hcur hv
  exact (List.nodup_cons.2 ⟨hmem, h.nodup⟩).length_le_card

/-! ### One turn -/

variable [DecidablePred white]

lemma Filling.look (h : Filling S white current old p s) (hcur : current ≠ 0) {v : V}
    (hv : white v → S.Joined white p v) :
    Filling S white current old p (look white current s v) ∧
      Grows s (look white current s v) ∧ (white v → (look white current s v).label v ≠ 0) := by
  by_cases hnew : white v ∧ s.label v = 0
  · obtain ⟨hmem, hold⟩ := h.not_mem_of_label hcur hnew.2
    rw [FloodFill.look, if_pos hnew]
    refine ⟨⟨?_, ?_, ?_, ?_, ?_, ?_, ?_⟩, ⟨rfl, List.prefix_append _ _, ?_⟩, ?_⟩
    · intro w
      by_cases hw : w = v
      · subst hw
        simp
      · simp [hw, h.label w]
    · intro w hw
      rcases List.mem_append.mp hw with hw | hw
      · exact h.fresh w hw
      · rw [List.mem_singleton.mp hw]
        exact hold
    · intro w hw
      rcases List.mem_append.mp hw with hw | hw
      · exact h.joined w hw
      · rw [List.mem_singleton.mp hw]
        exact hv hnew.1
    · exact h.nodup.append (List.nodup_singleton v) (List.disjoint_singleton.mpr hmem)
    · simp [h.size]
    · exact List.mem_append_left _ h.seed
    · have := h.start
      simp only [List.length_append, List.length_singleton]
      omega
    · intro w hw
      by_cases hwv : w = v
      · simp [hwv, hcur]
      · simpa [hwv] using hw
    · intro _
      simp [hcur]
  · rw [FloodFill.look, if_neg hnew]
    exact ⟨h, Grows.refl s, fun hwhite h0 => hnew ⟨hwhite, h0⟩⟩

lemma Filling.foldl_look (hcur : current ≠ 0) :
    ∀ (l : List V) {s : Fill V}, Filling S white current old p s →
      (∀ v ∈ l, white v → S.Joined white p v) →
      Filling S white current old p (l.foldl (FloodFill.look white current) s) ∧
        Grows s (l.foldl (FloodFill.look white current) s) ∧
        ∀ v ∈ l, white v → (l.foldl (FloodFill.look white current) s).label v ≠ 0
  | [], s, h, _ => ⟨h, Grows.refl s, fun v hv => absurd hv List.not_mem_nil⟩
  | v :: l, s, h, hl => by
    obtain ⟨h₁, hgrow₁, hv₁⟩ := h.look hcur (hl v List.mem_cons_self)
    obtain ⟨h₂, hgrow₂, hv₂⟩ := Filling.foldl_look hcur l h₁
      (fun w hw => hl w (List.mem_cons_of_mem v hw))
    refine ⟨h₂, hgrow₁.trans hgrow₂, ?_⟩
    intro w hw hwhite
    rcases List.mem_cons.mp hw with rfl | hw
    · exact hgrow₂.label w (hv₁ hwhite)
    · exact hv₂ w hw hwhite

theorem Filling.expand (h : Filling S white current old p s) (hcur : current ≠ 0)
    (hp : white p) (hexp : Expanded S white s s.start) {u : V}
    (hu : s.queue[s.start]? = some u) :
    Filling S white current old p (expand S.nbrs white current s u) ∧
      (expand S.nbrs white current s u).start = s.start + 1 ∧
      Expanded S white (expand S.nbrs white current s u) (s.start + 1) := by
  obtain ⟨hlt, hget⟩ := List.getElem?_eq_some_iff.mp hu
  have hmem : u ∈ s.queue := List.mem_of_getElem? hu
  have hju : S.Joined white p u := h.joined u hmem
  have hu' : white u := Space.white_of_joined hju hp
  have h₀ : Filling S white current old p { s with start := s.start + 1 } :=
    ⟨h.label, h.fresh, h.joined, h.nodup, h.size, h.seed, hlt⟩
  obtain ⟨h₁, hgrow, hlook⟩ := Filling.foldl_look hcur (S.nbrs u) h₀
    (fun v hv hwhite => hju.trans (Space.joined_of_nbr hu' hwhite hv))
  refine ⟨h₁, hgrow.start, ?_⟩
  obtain ⟨t, ht⟩ := hgrow.queue
  intro w hw
  rw [show (FloodFill.expand S.nbrs white current s u).queue = s.queue ++ t from ht.symm,
    List.take_append_of_le_length hlt, List.take_add_one, hu] at hw
  rcases List.mem_append.mp hw with hw | hw
  · exact fun v hv hwhite => hgrow.label v (hexp w hw v hv hwhite)
  · rw [List.mem_singleton.mp hw]
    exact hlook

/-! ### The whole fill -/

variable [Fintype V]

lemma Filling.flood (hcur : current ≠ 0) (hp : white p) :
    ∀ (n : ℕ) {s : Fill V}, Filling S white current old p s → Expanded S white s s.start →
      Fintype.card V ≤ n + s.start →
      Filling S white current old p (flood S.nbrs white current n s) ∧
        Expanded S white (FloodFill.flood S.nbrs white current n s)
          (FloodFill.flood S.nbrs white current n s).queue.length
  | 0, s, h, hexp, hn => by
    have hstart := h.start
    have hlen := h.length_le
    have heq : s.start = s.queue.length := by omega
    rw [heq] at hexp
    exact ⟨h, hexp⟩
  | n + 1, s, h, hexp, hn => by
    cases hu : s.queue[s.start]? with
    | none =>
      have hlen := List.getElem?_eq_none_iff.mp hu
      have hstart := h.start
      have heq : s.start = s.queue.length := by omega
      rw [FloodFill.flood, hu]
      rw [heq] at hexp
      exact ⟨h, hexp⟩
    | some u =>
      obtain ⟨h', hstart, hexp'⟩ := h.expand hcur hp hexp hu
      rw [FloodFill.flood, hu]
      rw [← hstart] at hexp'
      exact Filling.flood hcur hp n h' hexp' (by omega)

/-- **A fill from a white point without a label** labels its component, changes no other label and
counts the component. -/
theorem flood_spec (hcur : current ≠ 0) (hp : white p) (hnew : old p = 0)
    (hold : ∀ u v, old u ≠ 0 → v ∈ S.nbrs u → white v → old v ≠ 0) {n : ℕ}
    (hn : Fintype.card V ≤ n) :
    (∀ v, v ∈ S.component white p →
        (flood S.nbrs white current n (seed current old p)).label v = current) ∧
      (∀ v, v ∉ S.component white p →
        (flood S.nbrs white current n (seed current old p)).label v = old v) ∧
      (flood S.nbrs white current n (seed current old p)).size =
        (S.component white p).ncard := by
  have hseed : Filling S white current old p (seed current old p) := filling_seed hnew
  obtain ⟨h, hexp⟩ := Filling.flood hcur hp n hseed
    (fun u hu => absurd hu List.not_mem_nil) (Nat.le_trans hn (Nat.le_add_right n _))
  rw [h.exit hp hold hexp]
  refine ⟨?_, ?_, ?_⟩
  · intro v hv
    rw [h.label]
    exact if_pos hv
  · intro v hv
    rw [h.label]
    exact if_neg hv
  · rw [h.size, ← List.coe_toFinset, Set.ncard_coe_finset, List.toFinset_card_of_nodup h.nodup]

end PanTilt.Lib.FloodFill
