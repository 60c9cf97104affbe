import PanTilt.App.SpscQueue
import PanTilt.Lib.Interleave

/-!
The drop-oldest policy of `com_calculator_thread`: a value that does not fit in the queue takes the
place of the oldest one.

Each call of `spsc_enqueue` and `spsc_dequeue` is one step here (`finish_spscEnqueue` and
`finish_spscDequeue` relate it to the steps of the call). `publish_fresh` says that the policy loses
the oldest values of a full queue and no others.
-/

namespace PanTilt.App

open Lib.Interleave Lib.Ring

variable {α : Type*}

/-! ### Whole calls -/

/-- A call of `spsc_enqueue`. -/
def enqueue (q : SPSCQueue α) (value : α) : SPSCQueue α × Bool :=
  if nextIndex q.head = q.tail then (q, false)
  else
    ({ q with
        buffer := Function.update q.buffer q.head value
        head := nextIndex q.head }, true)

/-- A call of `spsc_dequeue`, with the value it returns with `true`. -/
def dequeue (q : SPSCQueue α) : SPSCQueue α × Option α :=
  if q.head = q.tail then (q, none)
  else ({ q with tail := nextIndex q.tail }, some (q.buffer q.tail))

/-- A call that is run to its end without a step of another thread in between. -/
def finish {S P R : Type*} (step : S → P → S × (P ⊕ R)) : ℕ → S → P → Option (S × R)
  | 0, _, _ => none
  | n + 1, s, pc =>
    match step s pc with
    | (s', .inl pc') => finish step n s' pc'
    | (s', .inr r) => some (s', r)

theorem finish_spscEnqueue (q : SPSCQueue α) (value : α) :
    finish spscEnqueue 4 q (.loadHead value) = some (enqueue q value) := by
  by_cases h : nextIndex q.head = q.tail <;> simp [finish, spscEnqueue, enqueue, h]

theorem finish_spscDequeue (q : SPSCQueue α) :
    finish spscDequeue 4 q .loadTail = some (dequeue q) := by
  by_cases h : q.head = q.tail <;> simp [finish, spscDequeue, dequeue, h]

/-- The values that wait in the queue, the oldest first. -/
def contents (q : SPSCQueue α) : List α :=
  (List.range ((q.head + COM_QUEUE_SIZE - q.tail) % COM_QUEUE_SIZE)).map
    fun i => q.buffer ((q.tail + i) % COM_QUEUE_SIZE)

/-! ### The queue as a window of a log -/

/-- The queue holds the values of the log from number `lo` on. -/
structure Waiting (q : SPSCQueue α) (log : List α) (lo : ℕ) : Prop where
  tail : q.tail = lo % COM_QUEUE_SIZE
  head : q.head = log.length % COM_QUEUE_SIZE
  le : lo ≤ log.length
  lt : log.length < lo + COM_QUEUE_SIZE
  holds : Holds COM_QUEUE_SIZE q.buffer log lo log.length

variable {q : SPSCQueue α} {log : List α} {lo : ℕ}

lemma waiting_init (buffer : ℕ → α) : Waiting (spscInit buffer) [] 0 :=
  ⟨rfl, rfl, Nat.le_refl 0, show 0 < 256 by decide, holds_empty⟩

theorem Waiting.contents (h : Waiting q log lo) : contents q = log.drop lo := by
  have hle := h.le
  have hlt := h.lt
  have hlen : (q.head + COM_QUEUE_SIZE - q.tail) % COM_QUEUE_SIZE = log.length - lo := by
    rw [h.head, h.tail]
    simp only [COM_QUEUE_SIZE] at *
    omega
  refine List.ext_getElem? ?_
  intro i
  rw [App.contents, hlen, List.getElem?_map, List.getElem?_drop]
  rcases Nat.lt_or_ge i (log.length - lo) with hi | hi
  · rw [List.getElem?_range hi, h.tail, Option.map_some, Nat.mod_add_mod]
    exact (h.holds (lo + i) (by omega) (by omega)).symm
  · rw [List.getElem?_eq_none (by simpa using hi), List.getElem?_eq_none (by omega)]
    rfl

lemma Waiting.full_iff (h : Waiting q log lo) :
    nextIndex q.head = q.tail ↔ log.length + 1 = lo + COM_QUEUE_SIZE := by
  rw [h.head, h.tail, nextIndex_mod]
  exact succ_mod_eq_iff h.le h.lt

lemma Waiting.enqueue (h : Waiting q log lo) (hroom : log.length + 1 < lo + COM_QUEUE_SIZE)
    (value : α) : (App.enqueue q value).2 = true ∧
      Waiting (App.enqueue q value).1 (log ++ [value]) lo := by
  have hne : nextIndex q.head ≠ q.tail := fun e => by
    have := h.full_iff.mp e
    omega
  have hle := h.le
  rw [App.enqueue, if_neg hne]
  refine ⟨rfl, h.tail, ?_, ?_, ?_, ?_⟩
  · rw [List.length_append, List.length_singleton, h.head, nextIndex_mod]
  · rw [List.length_append, List.length_singleton]
    omega
  · rw [List.length_append, List.length_singleton]
    exact hroom
  · rw [List.length_append, List.length_singleton, h.head]
    exact (h.holds.write h.lt value).push (Function.update_self ..)

lemma Waiting.enqueue_full (h : Waiting q log lo) (hfull : log.length + 1 = lo + COM_QUEUE_SIZE)
    (value : α) : App.enqueue q value = (q, false) := if_pos (h.full_iff.mpr hfull)

lemma Waiting.dequeue_empty (h : Waiting q log lo) (hempty : log.length = lo) :
    App.dequeue q = (q, none) := by
  refine if_pos ?_
  rw [h.head, h.tail, hempty]

lemma Waiting.dequeue (h : Waiting q log lo) (hlt : lo < log.length) :
    ∃ value, log[lo]? = some value ∧ (App.dequeue q).2 = some value ∧
      Waiting (App.dequeue q).1 log (lo + 1) := by
  have hne : q.head ≠ q.tail := by
    rw [h.head, h.tail]
    intro e
    have := (mod_eq_iff h.le h.lt).mp e
    omega
  refine ⟨q.buffer q.tail, ?_, ?_, ?_⟩
  · rw [h.tail]
    exact h.holds lo (Nat.le_refl lo) hlt
  · rw [App.dequeue, if_neg hne]
  · have hlt' := h.lt
    rw [App.dequeue, if_neg hne]
    refine ⟨?_, h.head, hlt, by omega, h.holds.mono (Nat.le_succ lo)⟩
    rw [h.tail, nextIndex_mod]

/-! ### The threads -/

/-- Where `com_calculator_thread` is in its publish sequence: at the first `spsc_enqueue`, at the
`spsc_dequeue` after it failed, at the second `spsc_enqueue`, or between two values. -/
inductive PublishPc (α : Type*)
  | idle
  | enqueue (value : α)
  | discard (value : α)
  | retry (value : α)

/-- A value taken out of the queue, by `start_thread_func` or by `com_calculator_thread`; then with
the number of values that waited when its first `spsc_enqueue` failed. -/
inductive Taken (α : Type*)
  | consumed (value : α)
  | discarded (value : α) (waited : ℕ)

def Taken.value : Taken α → α
  | .consumed value => value
  | .discarded value _ => value

/-- The two threads and the queue. `produced` are the values to publish, in order, and `taken` those
that left the queue; `waited` is the number of values at the last failed first `spsc_enqueue`. -/
structure Publishing (α : Type*) where
  queue : SPSCQueue α
  publisher : PublishPc α
  produced : List α
  taken : List (Taken α)
  waited : ℕ

namespace Publishing

def start (buffer : ℕ → α) : Publishing α where
  queue := spscInit buffer
  publisher := .idle
  produced := []
  taken := []
  waited := 0

/-- One step of `com_calculator_thread`, with the value it computes next. -/
def publish (s : Publishing α) (next : α) : Publishing α :=
  match s.publisher with
  | .idle => { s with publisher := .enqueue next, produced := s.produced ++ [next] }
  | .enqueue value =>
    match App.enqueue s.queue value with
    | (q, true) => { s with queue := q, publisher := .idle }
    | (q, false) =>
      { s with queue := q, publisher := .discard value, waited := (contents s.queue).length }
  | .discard value =>
    match dequeue s.queue with
    | (q, some old) =>
      { s with
        queue := q
        publisher := .retry value
        taken := s.taken ++ [.discarded old s.waited] }
    | (q, none) => { s with queue := q, publisher := .retry value }
  | .retry value => { s with queue := (App.enqueue s.queue value).1, publisher := .idle }

/-- A call of `spsc_dequeue` by `start_thread_func`. -/
def consume (s : Publishing α) : Publishing α :=
  match dequeue s.queue with
  | (q, some value) => { s with queue := q, taken := s.taken ++ [.consumed value] }
  | (q, none) => { s with queue := q }

/-- A step of `com_calculator_thread`, with the value it computes next, or of
`start_thread_func`. -/
def step (s : Publishing α) : Option α → Option (Publishing α)
  | some next => some (s.publish next)
  | none => some s.consume

/-! ### The invariant -/

/-- The values of the publish sequences that are over, given the one in progress. -/
def published (s : Publishing α) : PublishPc α → List α → Prop
  | .idle, log => s.produced = log
  | .enqueue value, log => s.produced = log ++ [value]
  | .discard value, log => s.produced = log ++ [value]
  | .retry value, log => s.produced = log ++ [value]

/-- What the publisher knows of the queue. -/
def known (s : Publishing α) (log : List α) : PublishPc α → Prop
  | .idle => log = [] ∨ s.taken.length < log.length ∨
      ∃ value, s.taken.getLast? = some (.consumed value)
  | .enqueue _ => True
  | .discard _ => s.waited = COM_QUEUE_SIZE - 1
  | .retry _ => log.length + 1 < s.taken.length + COM_QUEUE_SIZE

/-- The queue holds the published values that were not taken. -/
structure Inv (s : Publishing α) (log : List α) : Prop where
  published : s.published s.publisher log
  waiting : Waiting s.queue log s.taken.length
  taken : s.taken.map Taken.value = log.take s.taken.length
  known : s.known log s.publisher
  discarded : ∀ value waited, .discarded value waited ∈ s.taken → waited = COM_QUEUE_SIZE - 1

variable {s s' : Publishing α} {c : Option α}

lemma inv_start (buffer : ℕ → α) : Inv (start buffer) [] where
  published := rfl
  waiting := waiting_init buffer
  taken := rfl
  known := .inl rfl
  discarded _ _ h := absurd h List.not_mem_nil

lemma Inv.map_concat (h : Inv s log) {t : Taken α} (hget : log[s.taken.length]? = some t.value) :
    (s.taken ++ [t]).map Taken.value = log.take (s.taken ++ [t]).length := by
  rw [List.map_append, h.taken, List.length_append, List.length_singleton, List.take_add_one, hget]
  rfl

lemma Inv.consume (h : Inv s log) : Inv s.consume log := by
  have hle := h.waiting.le
  rcases Nat.lt_or_ge s.taken.length log.length with hlt | hge
  · obtain ⟨value, hget, hsome, hwait⟩ := h.waiting.dequeue hlt
    rcases hq : dequeue s.queue with ⟨q, r⟩
    rw [hq] at hsome hwait
    obtain rfl : r = some value := hsome
    have hs : s.consume = { s with queue := q, taken := s.taken ++ [.consumed value] } := by
      rw [Publishing.consume, hq]
    have hlen : (s.taken ++ [Taken.consumed value]).length = s.taken.length + 1 := by
      rw [List.length_append, List.length_singleton]
    rw [hs]
    refine ⟨?_, ?_, h.map_concat hget, ?_, ?_⟩
    · have hpub := h.published
      cases hpc : s.publisher <;> rw [hpc] at hpub <;> exact hpub
    · rw [hlen]
      exact hwait
    · have hknown := h.known
      cases hpc : s.publisher with
      | idle => exact .inr (.inr ⟨value, by simp⟩)
      | enqueue _ => trivial
      | discard _ =>
        rw [hpc] at hknown
        exact hknown
      | retry _ =>
        rw [hpc] at hknown
        change log.length + 1 < (s.taken ++ [Taken.consumed value]).length + COM_QUEUE_SIZE
        change log.length + 1 < s.taken.length + COM_QUEUE_SIZE at hknown
        omega
    · intro v n hmem
      rcases List.mem_append.mp hmem with hmem | hmem
      · exact h.discarded v n hmem
      · exact absurd (List.mem_singleton.mp hmem) (by simp)
  · have hs : s.consume = s := by
      rw [Publishing.consume, h.waiting.dequeue_empty (by omega)]
    rw [hs]
    exact h

lemma Inv.joined (h : Inv s log) {value : α} {q : SPSCQueue α} (hpub : s.produced = log ++ [value])
    (hwait : Waiting q (log ++ [value]) s.taken.length) :
    Inv { s with queue := q, publisher := .idle } (log ++ [value]) := by
  have hle := h.waiting.le
  refine ⟨hpub, hwait, ?_, .inr (.inl ?_), h.discarded⟩
  · change s.taken.map Taken.value = (log ++ [value]).take s.taken.length
    rw [List.take_append_of_le_length hle]
    exact h.taken
  · change s.taken.length < (log ++ [value]).length
    rw [List.length_append, List.length_singleton]
    omega

/-- The first `spsc_enqueue` of a value. -/
lemma Inv.tryEnqueue (h : Inv s log) {value : α} (hpc : s.publisher = .enqueue value) (next : α) :
    ∃ log', Inv (s.publish next) log' := by
  have hpub := h.published
  have hle := h.waiting.le
  have hlt := h.waiting.lt
  rw [hpc] at hpub
  by_cases hfull : log.length + 1 = s.taken.length + COM_QUEUE_SIZE
  · have hs : s.publish next = { s with
        publisher := .discard value, waited := (contents s.queue).length } := by
      rw [Publishing.publish, hpc]
      simp only [h.waiting.enqueue_full hfull]
    rw [hs]
    refine ⟨log, hpub, h.waiting, h.taken, ?_, h.discarded⟩
    change (contents s.queue).length = COM_QUEUE_SIZE - 1
    rw [h.waiting.contents, List.length_drop]
    omega
  · obtain ⟨htrue, hwait⟩ := h.waiting.enqueue (by omega) value
    rcases hq : App.enqueue s.queue value with ⟨q, r⟩
    rw [hq] at htrue hwait
    obtain rfl : r = true := htrue
    have hs : s.publish next = { s with queue := q, publisher := .idle } := by
      rw [Publishing.publish, hpc]
      simp only [hq]
    rw [hs]
    exact ⟨log ++ [value], h.joined hpub hwait⟩

/-- The `spsc_dequeue` after a failed `spsc_enqueue`: it takes the oldest value out, unless the
consumer has taken them all. -/
lemma Inv.discardOne (h : Inv s log) {value : α} (hpc : s.publisher = .discard value) (next : α) :
    ∃ log', Inv (s.publish next) log' := by
  have hpub := h.published
  have hknown := h.known
  have hle := h.waiting.le
  have hlt := h.waiting.lt
  rw [hpc] at hpub hknown
  rcases Nat.lt_or_ge s.taken.length log.length with hne | hge
  · obtain ⟨old, hget, hsome, hwait⟩ := h.waiting.dequeue hne
    rcases hq : dequeue s.queue with ⟨q, r⟩
    rw [hq] at hsome hwait
    obtain rfl : r = some old := hsome
    have hs : s.publish next = { s with
        queue := q
        publisher := .retry value
        taken := s.taken ++ [.discarded old s.waited] } := by
      rw [Publishing.publish, hpc]
      simp only [hq]
    have hlen : (s.taken ++ [Taken.discarded old s.waited]).length = s.taken.length + 1 := by
      rw [List.length_append, List.length_singleton]
    rw [hs]
    refine ⟨log, hpub, ?_, h.map_concat hget, ?_, ?_⟩
    · rw [hlen]
      exact hwait
    · change log.length + 1 < (s.taken ++ [Taken.discarded old s.waited]).length + COM_QUEUE_SIZE
      omega
    · intro v n hmem
      rcases List.mem_append.mp hmem with hmem | hmem
      · exact h.discarded v n hmem
      · obtain ⟨-, rfl⟩ := Taken.discarded.inj (List.mem_singleton.mp hmem)
        exact hknown
  · have hs : s.publish next = { s with publisher := .retry value } := by
      rw [Publishing.publish, hpc]
      simp only [h.waiting.dequeue_empty (by omega)]
    rw [hs]
    refine ⟨log, hpub, h.waiting, h.taken, ?_, h.discarded⟩
    change log.length + 1 < s.taken.length + COM_QUEUE_SIZE
    have : 1 < COM_QUEUE_SIZE := by decide
    omega

/-- **A step of the publisher**: it begins a new value, or keeps or completes the log. -/
lemma Inv.publish (h : Inv s log) (next : α) :
    ∃ log', Inv (s.publish next) log' := by
  cases hpc : s.publisher with
  | idle =>
    have hpub := h.published
    rw [hpc] at hpub
    have hs : s.publish next =
        { s with publisher := .enqueue next, produced := s.produced ++ [next] } := by
      rw [Publishing.publish, hpc]
    rw [hs]
    refine ⟨log, ?_, h.waiting, h.taken, trivial, h.discarded⟩
    change s.produced ++ [next] = log ++ [next]
    rw [show s.produced = log from hpub]
  | enqueue value => exact h.tryEnqueue hpc next
  | discard value => exact h.discardOne hpc next
  | retry value =>
    have hpub := h.published
    have hknown := h.known
    rw [hpc] at hpub hknown
    have hs : s.publish next =
        { s with queue := (App.enqueue s.queue value).1, publisher := .idle } := by
      rw [Publishing.publish, hpc]
    rw [hs]
    exact ⟨log ++ [value], h.joined hpub (h.waiting.enqueue hknown value).2⟩

theorem inv_of_run {buffer : ℕ → α} (h : Run step anyStep (start buffer) s) :
    ∃ log, Inv s log := by
  refine h.invariant (P := fun s => ∃ log, Inv s log) ⟨[], inv_start buffer⟩ ?_
  rintro s (_ | next) s' ⟨log, hs⟩ _ hstep
  · obtain rfl : s.consume = s' := Option.some.inj hstep
    exact ⟨log, hs.consume⟩
  · obtain rfl : s.publish next = s' := Option.some.inj hstep
    exact hs.publish next

/-- **The drop-oldest policy keeps the queue fresh.** In every interleaving the second
`spsc_enqueue` succeeds, the queue holds a block of the produced values, after a publish sequence
the last of them unless they were consumed, and a value is discarded only when the queue was full
at the failed `spsc_enqueue`. -/
theorem publish_fresh {buffer : ℕ → α} (h : Run step anyStep (start buffer) s) :
    (∀ value, s.publisher = .retry value → (App.enqueue s.queue value).2 = true) ∧
      contents s.queue <:+: s.produced ∧
      (s.publisher = .idle →
        s.taken.map Taken.value ++ contents s.queue = s.produced ∧
          (s.produced = [] ∨ contents s.queue ≠ [] ∨
            ∃ value, s.taken.getLast? = some (.consumed value))) ∧
      ∀ value waited, .discarded value waited ∈ s.taken → waited = COM_QUEUE_SIZE - 1 := by
  obtain ⟨log, hpub, hwait, htaken, hknown, hdisc⟩ := inv_of_run h
  have hsplit : s.taken.map Taken.value ++ contents s.queue = log := by
    rw [htaken, hwait.contents, List.take_append_drop]
  refine ⟨?_, ?_, ?_, hdisc⟩
  · intro value hpc
    rw [hpc] at hknown
    exact (hwait.enqueue hknown value).1
  · have hlog : log <+: s.produced := by
      cases hpc : s.publisher <;> rw [hpc] at hpub
      · exact (show s.produced = log from hpub) ▸ List.prefix_refl log
      all_goals exact ⟨_, Eq.symm hpub⟩
    obtain ⟨rest, hrest⟩ := hlog
    exact ⟨s.taken.map Taken.value, rest, by rw [hsplit, hrest]⟩
  · intro hpc
    rw [hpc] at hpub hknown
    have hproduced : s.produced = log := hpub
    rw [hproduced]
    refine ⟨hsplit, hknown.imp_right ?_⟩
    refine Or.imp_left ?_
    intro hlt hnil
    rw [hwait.contents] at hnil
    have := List.drop_eq_nil_iff.mp hnil
    omega

/-- The first `k` values are published, and none is taken. -/
def filled (k : ℕ) : Publishing ℕ where
  queue := { buffer := fun i => if i < k then i else 0, head := k, tail := 0 }
  publisher := .idle
  produced := List.range k
  taken := []
  waited := 0

lemma reaches_filled {k : ℕ} (hk : k < COM_QUEUE_SIZE) :
    Run step anyStep (start fun _ => 0) (filled k) := by
  induction k with
  | zero => exact .refl
  | succ k ih =>
    apply (ih (by omega)).trans
    have hnext := nextIndex_of_lt hk
    have hbuffer := update_below (fun i => i) (fun _ => 0) k
    refine .cons (some k) rfl (.cons (some k) ?_ .refl)
    simp [step, publish, App.enqueue, filled, hnext, hbuffer, List.range_succ]

/-- The queue is full, a value is discarded to publish one more, and the next one is consumed. -/
theorem publish_fresh_full : ∃ s waited, Run step anyStep (start fun _ => 0) s ∧
    s.taken = [.discarded 0 waited, .consumed 1] ∧ waited = COM_QUEUE_SIZE - 1 ∧
    s.produced = (filled 255).produced ++ [255] ∧
    s.taken.map Taken.value ++ contents s.queue = s.produced := by
  obtain ⟨s, hexec, hidle, htaken, hproduced⟩ : ∃ s,
      exec step (filled 255) [some 255, some 0, some 0, some 0, none] = some s ∧
        s.publisher = .idle ∧
        s.taken = [.discarded 0 (contents (filled 255).queue).length, .consumed 1] ∧
        s.produced = (filled 255).produced ++ [255] := ⟨_, rfl, rfl, rfl, rfl⟩
  have hrun := (reaches_filled (by decide)).trans (run_of_exec _ hexec)
  obtain ⟨-, -, hfresh, hdiscarded⟩ := publish_fresh hrun
  refine ⟨s, _, hrun, htaken, hdiscarded 0 _ ?_, hproduced, (hfresh hidle).1⟩
  rw [htaken]
  exact List.mem_cons_self

end Publishing

end PanTilt.App
