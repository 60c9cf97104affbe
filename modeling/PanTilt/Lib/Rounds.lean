import Mathlib.Data.Finset.Card
import Mathlib.Data.List.Nodup

/-!
Collecting in rounds: elements come one after the other, and as soon as `n` different ones are
together, a round is complete and the next one starts with nothing.
-/

namespace PanTilt.Lib.Rounds

/-- The elements of the round under way, and the number of complete rounds. -/
structure Collector (α : Type*) where
  waiting : Finset α
  complete : ℕ

variable {α : Type*} [DecidableEq α] (n : ℕ)

/-- One more element. -/
def draw (c : Collector α) (a : α) : Collector α :=
  if (insert a c.waiting).card = n then { waiting := ∅, complete := c.complete + 1 }
  else { c with waiting := insert a c.waiting }

/-- The rounds of some elements, in the order in which they come. -/
def rounds (as : List α) : Collector α := as.foldl (draw n) { waiting := ∅, complete := 0 }

lemma rounds_nil : rounds n ([] : List α) = { waiting := ∅, complete := 0 } := rfl

lemma rounds_concat (as : List α) (a : α) : rounds n (as ++ [a]) = draw n (rounds n as) a := by
  rw [rounds, rounds, List.foldl_append, List.foldl_cons, List.foldl_nil]

variable {n}

theorem complete_mul_le (as : List α) :
    (rounds n as).complete * n + (rounds n as).waiting.card ≤ as.length := by
  induction as using List.reverseRecOn with
  | nil => simp [rounds_nil]
  | append_singleton as a ih =>
    have hle := Finset.card_insert_le a (rounds n as).waiting
    rw [rounds_concat, draw, List.length_append, List.length_singleton]
    split_ifs with hfull
    · show ((rounds n as).complete + 1) * n + 0 ≤ as.length + 1
      rw [Nat.succ_mul]
      omega
    · show (rounds n as).complete * n + (insert a (rounds n as).waiting).card ≤ as.length + 1
      omega

theorem rounds_of_nodup {as : List α} (h : as.Nodup) (hlt : as.length < n) :
    rounds n as = { waiting := as.toFinset, complete := 0 } := by
  induction as using List.reverseRecOn with
  | nil => rfl
  | append_singleton as a ih =>
    have hnodup := (List.nodup_append.1 h).1
    rw [List.length_append, List.length_singleton] at hlt
    have hset : insert a as.toFinset = (as ++ [a]).toFinset := by
      rw [List.toFinset_append, List.toFinset_cons, List.toFinset_nil, Finset.insert_empty,
        Finset.union_comm, Finset.insert_eq]
    have hcard : (insert a as.toFinset).card = as.length + 1 := by
      rw [hset, List.toFinset_card_of_nodup h, List.length_append, List.length_singleton]
    rw [rounds_concat, ih hnodup (by omega), draw, if_neg (by rw [hcard]; omega), hset]

theorem rounds_of_full {as : List α} (h : as.Nodup) (hpos : 0 < n) (hlen : as.length = n) :
    rounds n as = { waiting := ∅, complete := 1 } := by
  rcases List.eq_nil_or_concat as with rfl | ⟨bs, b, rfl⟩
  · exact absurd hlen hpos.ne
  · rw [List.concat_eq_append] at h hlen ⊢
    have hbs := (List.nodup_append.1 h).1
    rw [List.length_append, List.length_singleton] at hlen
    have hcard : (insert b bs.toFinset).card = n := by
      have hnot : b ∉ bs := fun hb => List.disjoint_of_nodup_append h hb List.mem_cons_self
      rw [Finset.card_insert_of_notMem (by rwa [List.mem_toFinset]),
        List.toFinset_card_of_nodup hbs, hlen]
    rw [rounds_concat, rounds_of_nodup hbs (by omega), draw, if_pos hcard]

theorem waiting_nonempty_iff {as : List α} (h : as.Nodup) (hpos : 0 < n) (hle : as.length ≤ n) :
    (rounds n as).waiting.Nonempty ↔ 0 < as.length ∧ as.length < n := by
  rcases Nat.lt_or_eq_of_le hle with hlt | hfull
  · rw [rounds_of_nodup h hlt]
    show as.toFinset.Nonempty ↔ _
    rw [List.toFinset_nonempty_iff, ← List.length_pos_iff_ne_nil]
    exact (and_iff_left hlt).symm
  · rw [rounds_of_full h hpos hfull]
    exact iff_of_false Finset.not_nonempty_empty fun hlt => hlt.2.ne hfull

end PanTilt.Lib.Rounds
