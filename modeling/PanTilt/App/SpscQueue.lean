import PanTilt.Lib.Clocked
import PanTilt.Lib.Ring

/-!
`spsc_queue.h`: the queue between the thread that finds centers of mass and the control thread.

A call is four steps on the shared queue, at the load of the own index, the load of the other index,
the access to the slot and the store of the own index. `correct_of_reachable` is what the queue is
for: one thread that only enqueues and one thread that only dequeues, in any interleaving of these
steps, see a bounded first-in first-out queue.
-/

namespace PanTilt.App

open Lib.Clocked Lib.Ring

/-! ### The calls -/

def COM_QUEUE_SIZE : ℕ := 256

/-- The queue in memory. -/
structure SPSCQueue (α : Type*) where
  buffer : ℕ → α
  head : ℕ
  tail : ℕ

variable {α : Type*}

/-- `spsc_init`, which leaves the buffer as it is. -/
def spscInit (buffer : ℕ → α) : SPSCQueue α where
  buffer := buffer
  head := 0
  tail := 0

/-- The index after an index. -/
def nextIndex (i : ℕ) : ℕ := (i + 1) &&& (COM_QUEUE_SIZE - 1)

lemma nextIndex_eq (i : ℕ) : nextIndex i = (i + 1) % COM_QUEUE_SIZE :=
  Nat.and_two_pow_sub_one_eq_mod (i + 1) 8

lemma nextIndex_of_lt {i : ℕ} (h : i + 1 < COM_QUEUE_SIZE) : nextIndex i = i + 1 := by
  rw [nextIndex_eq, Nat.mod_eq_of_lt h]

lemma nextIndex_mod (i : ℕ) : nextIndex (i % COM_QUEUE_SIZE) = (i + 1) % COM_QUEUE_SIZE := by
  rw [nextIndex_eq, mod_succ_mod]

/-- Where a call of `spsc_enqueue` is, by the step it takes next. -/
inductive EnqueuePc (α : Type*)
  | loadHead (value : α)
  | loadTail (value : α) (head : ℕ)
  | writeSlot (value : α) (head : ℕ)
  | storeHead (value : α) (head : ℕ)

/-- The argument of the call. -/
def EnqueuePc.value : EnqueuePc α → α
  | .loadHead value => value
  | .loadTail value _ => value
  | .writeSlot value _ => value
  | .storeHead value _ => value

/-- One step of `spsc_enqueue`: where the call is next, or what it returns. -/
def spscEnqueue (q : SPSCQueue α) : EnqueuePc α → SPSCQueue α × (EnqueuePc α ⊕ Bool)
  | .loadHead value => (q, .inl (.loadTail value q.head))
  | .loadTail value head =>
    if nextIndex head = q.tail then (q, .inr false) else (q, .inl (.writeSlot value head))
  | .writeSlot value head =>
    ({ q with buffer := Function.update q.buffer head value }, .inl (.storeHead value head))
  | .storeHead _ head => ({ q with head := nextIndex head }, .inr true)

/-- Where a call of `spsc_dequeue` is, by the step it takes next. -/
inductive DequeuePc (α : Type*)
  | loadTail
  | loadHead (tail : ℕ)
  | readSlot (tail : ℕ)
  | storeTail (value : α) (tail : ℕ)

/-- One step of `spsc_dequeue`: where the call is next, or the value it returns with `true`. -/
def spscDequeue (q : SPSCQueue α) : DequeuePc α → SPSCQueue α × (DequeuePc α ⊕ Option α)
  | .loadTail => (q, .inl (.loadHead q.tail))
  | .loadHead tail => if q.head = tail then (q, .inr none) else (q, .inl (.readSlot tail))
  | .readSlot tail => (q, .inl (.storeTail (q.buffer tail) tail))
  | .storeTail value tail => ({ q with tail := nextIndex tail }, .inr (some value))

/-! ### One producer and one consumer -/

/-- A thread that only enqueues, a thread that only dequeues, and the queue. A thread between two
calls is `none`. `accepted` and `delivered` are the values of the calls that returned `true`. -/
structure Spsc (α : Type*) where
  queue : SPSCQueue α
  producer : Option (EnqueuePc α)
  consumer : Option (DequeuePc α)
  accepted : List α
  delivered : List α

namespace Spsc

/-- The two threads before their first calls. -/
def init (buffer : ℕ → α) : Spsc α where
  queue := spscInit buffer
  producer := none
  consumer := none
  accepted := []
  delivered := []

/-- One step of the producer, which calls with `value` if it is between two calls. -/
def produce (s : Spsc α) (value : α) : Spsc α :=
  let pc := s.producer.getD (.loadHead value)
  match spscEnqueue s.queue pc with
  | (q, .inl pc') => { s with queue := q, producer := some pc' }
  | (q, .inr true) => { s with queue := q, producer := none, accepted := s.accepted ++ [pc.value] }
  | (q, .inr false) => { s with queue := q, producer := none }

/-- One step of the consumer. -/
def consume (s : Spsc α) : Spsc α :=
  match spscDequeue s.queue (s.consumer.getD .loadTail) with
  | (q, .inl pc') => { s with queue := q, consumer := some pc' }
  | (q, .inr (some value)) =>
    { s with queue := q, consumer := none, delivered := s.delivered ++ [value] }
  | (q, .inr none) => { s with queue := q, consumer := none }

/-- One step of the producer, with the value of its next call, or of the consumer. -/
def step (s : Spsc α) : Option α → Spsc α
  | some value => s.produce value
  | none => s.consume

/-! ### Correctness -/

/-- **What the queue is for.** -/
structure Correct (s : Spsc α) : Prop where
  /-- The delivered values are a prefix of the accepted ones. -/
  fifo : s.delivered <+: s.accepted
  /-- At most `COM_QUEUE_SIZE - 1` values are held. -/
  bounded : s.accepted.length ≤ s.delivered.length + (COM_QUEUE_SIZE - 1)
  /-- The values that are not delivered are in their slots. -/
  holds : Holds COM_QUEUE_SIZE s.queue.buffer s.accepted s.delivered.length s.accepted.length
  /-- A slot that is about to be written is one of the buffer, holds no such value and is not about
  to be read. -/
  write : ∀ value head, s.producer = some (.writeSlot value head) → head < COM_QUEUE_SIZE ∧
    (∀ i, s.delivered.length ≤ i → i < s.accepted.length → i % COM_QUEUE_SIZE ≠ head) ∧
    ∀ tail, s.consumer = some (.readSlot tail) → tail ≠ head
  /-- A call of the producer that returns `false` has loaded the tail of a full queue. -/
  full : ∀ pc, s.producer = some pc → (spscEnqueue s.queue pc).2 = .inr false →
    s.accepted.length = s.delivered.length + (COM_QUEUE_SIZE - 1)
  /-- A call of the consumer that returns `false` has loaded the head of an empty queue. -/
  empty : ∀ pc, s.consumer = some pc → (spscDequeue s.queue pc).2 = .inr none →
    s.accepted.length = s.delivered.length

/-- What the producer has found out: its index, that there is room, what it wrote. -/
def ProducerInv (s : Spsc α) : EnqueuePc α → Prop
  | .loadHead _ => True
  | .loadTail _ head => head = s.accepted.length % COM_QUEUE_SIZE
  | .writeSlot _ head => head = s.accepted.length % COM_QUEUE_SIZE ∧
      s.accepted.length + 1 < s.delivered.length + COM_QUEUE_SIZE
  | .storeHead value head => head = s.accepted.length % COM_QUEUE_SIZE ∧
      s.accepted.length + 1 < s.delivered.length + COM_QUEUE_SIZE ∧ s.queue.buffer head = value

/-- What the consumer has found out: its index, that there is a value, what it read. -/
def ConsumerInv (s : Spsc α) : DequeuePc α → Prop
  | .loadTail => True
  | .loadHead tail => tail = s.delivered.length % COM_QUEUE_SIZE
  | .readSlot tail => tail = s.delivered.length % COM_QUEUE_SIZE ∧
      s.delivered.length < s.accepted.length
  | .storeTail value tail => tail = s.delivered.length % COM_QUEUE_SIZE ∧
      s.accepted[s.delivered.length]? = some value

/-- The invariant of the two threads. The shared indices count the accepted and the delivered values
modulo the size, and what a thread has found out stays true while the other one goes on. -/
structure Inv (s : Spsc α) : Prop where
  fifo : s.delivered <+: s.accepted
  bounded : s.accepted.length < s.delivered.length + COM_QUEUE_SIZE
  head : s.queue.head = s.accepted.length % COM_QUEUE_SIZE
  tail : s.queue.tail = s.delivered.length % COM_QUEUE_SIZE
  holds : Holds COM_QUEUE_SIZE s.queue.buffer s.accepted s.delivered.length s.accepted.length
  producer : ∀ pc ∈ s.producer, s.ProducerInv pc
  consumer : ∀ pc ∈ s.consumer, s.ConsumerInv pc

lemma inv_init (buffer : ℕ → α) : Inv (init buffer) where
  fifo := List.prefix_rfl
  bounded := by simp [init, COM_QUEUE_SIZE]
  head := rfl
  tail := rfl
  holds := holds_empty
  producer := by simp [init]
  consumer := by simp [init]

lemma nextIndex_eq_tail {s : Spsc α} (hs : Inv s) :
    nextIndex (s.accepted.length % COM_QUEUE_SIZE) = s.queue.tail ↔
      s.accepted.length + 1 = s.delivered.length + COM_QUEUE_SIZE := by
  rw [nextIndex_mod, hs.tail]
  exact succ_mod_eq_iff hs.fifo.length_le hs.bounded

lemma head_eq_tail {s : Spsc α} (hs : Inv s) :
    s.queue.head = s.delivered.length % COM_QUEUE_SIZE ↔
      s.accepted.length = s.delivered.length := by
  rw [hs.head]
  exact mod_eq_iff hs.fifo.length_le hs.bounded

lemma isPrefix_concat {as bs : List α} {a : α} (h : as <+: bs) (ha : bs[as.length]? = some a) :
    as ++ [a] <+: bs := by
  obtain ⟨cs, rfl⟩ := h
  rw [List.getElem?_append_right le_rfl, Nat.sub_self] at ha
  cases cs with
  | nil => simp at ha
  | cons c cs =>
    obtain rfl : c = a := by simpa using ha
    exact ⟨cs, by simp⟩

lemma ConsumerInv.accept {s t : Spsc α} {pc : DequeuePc α} (h : s.ConsumerInv pc) {value : α}
    (hdelivered : t.delivered = s.delivered) (haccepted : t.accepted = s.accepted ++ [value]) :
    t.ConsumerInv pc := by
  cases pc with
  | loadTail => trivial
  | loadHead tail => simpa only [ConsumerInv, hdelivered] using h
  | readSlot tail =>
    obtain ⟨htail, hlt⟩ := h
    rw [ConsumerInv, hdelivered, haccepted, List.length_append]
    exact ⟨htail, by omega⟩
  | storeTail value tail =>
    obtain ⟨htail, hget⟩ := h
    rw [ConsumerInv, hdelivered, haccepted]
    refine ⟨htail, ?_⟩
    rw [List.getElem?_append_left (List.getElem?_eq_some_iff.1 hget).1, hget]

lemma ProducerInv.deliver {s t : Spsc α} {pc : EnqueuePc α} (h : s.ProducerInv pc) {value : α}
    (hbuffer : t.queue.buffer = s.queue.buffer) (haccepted : t.accepted = s.accepted)
    (hdelivered : t.delivered = s.delivered ++ [value]) : t.ProducerInv pc := by
  cases pc with
  | loadHead value => trivial
  | loadTail value head => simpa only [ProducerInv, haccepted] using h
  | writeSlot value head =>
    rw [ProducerInv, haccepted, hdelivered, List.length_append]
    exact ⟨h.1, by have := h.2; omega⟩
  | storeHead value head =>
    rw [ProducerInv, haccepted, hdelivered, hbuffer, List.length_append]
    exact ⟨h.1, by have := h.2.1; omega, h.2.2⟩

theorem Inv.produce {s : Spsc α} (hs : Inv s) (value : α) : Inv (s.produce value) := by
  unfold Spsc.produce
  rcases hp : s.producer with _ | pc
  · exact { hs with producer := by rintro pc ⟨⟩; exact hs.head }
  have hpc := hs.producer pc hp
  cases pc with
  | loadHead value => exact { hs with producer := by rintro pc ⟨⟩; exact hs.head }
  | loadTail value head =>
    obtain rfl : head = _ := hpc
    simp only [Option.getD_some, spscEnqueue]
    by_cases hfull : nextIndex (s.accepted.length % COM_QUEUE_SIZE) = s.queue.tail
    · rw [if_pos hfull]
      exact { hs with producer := by simp }
    · rw [if_neg hfull]
      rw [nextIndex_eq_tail hs] at hfull
      have hroom : s.accepted.length + 1 < s.delivered.length + COM_QUEUE_SIZE := by
        have hbounded := hs.bounded
        omega
      exact { hs with producer := by rintro pc ⟨⟩; exact ⟨rfl, hroom⟩ }
  | writeSlot value head =>
    obtain ⟨rfl, hroom⟩ := hpc
    exact { hs with
      holds := hs.holds.write hs.bounded value
      producer := by rintro pc ⟨⟩; exact ⟨rfl, hroom, Function.update_self ..⟩ }
  | storeHead value head =>
    obtain ⟨rfl, hroom, hvalue⟩ := hpc
    simp only [Option.getD_some, spscEnqueue, EnqueuePc.value]
    refine ⟨hs.fifo.trans (List.prefix_append _ _), ?_, ?_, hs.tail, ?_, by simp, ?_⟩
    · rw [List.length_append]
      exact hroom
    · rw [List.length_append]
      exact nextIndex_mod _
    · rw [List.length_append]
      exact hs.holds.push hvalue
    · exact fun pc hpc => (hs.consumer pc hpc).accept rfl rfl

theorem Inv.consume {s : Spsc α} (hs : Inv s) : Inv s.consume := by
  unfold Spsc.consume
  rcases hp : s.consumer with _ | pc
  · exact { hs with consumer := by rintro pc ⟨⟩; exact hs.tail }
  have hpc := hs.consumer pc hp
  cases pc with
  | loadTail => exact { hs with consumer := by rintro pc ⟨⟩; exact hs.tail }
  | loadHead tail =>
    obtain rfl : tail = _ := hpc
    simp only [Option.getD_some, spscDequeue]
    by_cases hempty : s.queue.head = s.delivered.length % COM_QUEUE_SIZE
    · rw [if_pos hempty]
      exact { hs with consumer := by simp }
    · rw [if_neg hempty]
      rw [head_eq_tail hs] at hempty
      have hlt : s.delivered.length < s.accepted.length := by
        have hle := hs.fifo.length_le
        omega
      exact { hs with consumer := by rintro pc ⟨⟩; exact ⟨rfl, hlt⟩ }
  | readSlot tail =>
    obtain ⟨rfl, hlt⟩ := hpc
    exact { hs with
      consumer := by rintro pc ⟨⟩; exact ⟨rfl, hs.holds _ le_rfl hlt⟩ }
  | storeTail value tail =>
    obtain ⟨rfl, hget⟩ := hpc
    have hbounded : s.accepted.length < s.delivered.length + 1 + COM_QUEUE_SIZE := by
      have hbounded := hs.bounded
      omega
    simp only [Option.getD_some, spscDequeue]
    refine ⟨isPrefix_concat hs.fifo hget, ?_, hs.head, ?_, ?_, ?_, by simp⟩
    · rw [List.length_append]
      exact hbounded
    · rw [List.length_append]
      exact nextIndex_mod _
    · rw [List.length_append]
      exact hs.holds.mono (Nat.le_succ _)
    · exact fun pc hpc => (hs.producer pc hpc).deliver rfl rfl rfl

theorem inv_of_reachable {buffer : ℕ → α} {s : Spsc α} (h : Reachable step (init buffer) s) :
    Inv s := by
  apply h.invariant (inv_init buffer)
  intro s choice hs
  cases choice with
  | some value => exact hs.produce value
  | none => exact hs.consume

/-- The slot the producer is about to write is free. -/
lemma Inv.slot_free {s : Spsc α} (hs : Inv s) {value : α} {head : ℕ}
    (hp : s.producer = some (.writeSlot value head)) {i : ℕ} (h : s.delivered.length ≤ i)
    (h' : i < s.accepted.length) : i % COM_QUEUE_SIZE ≠ head := by
  obtain ⟨rfl, hroom⟩ := hs.producer _ hp
  intro e
  have hi := eq_of_mod_eq h'.le (by omega) e.symm
  omega

theorem Inv.correct {s : Spsc α} (hs : Inv s) : Correct s where
  fifo := hs.fifo
  bounded := Nat.le_sub_one_of_lt hs.bounded
  holds := hs.holds
  write value head hp := by
    refine ⟨?_, fun i h h' => hs.slot_free hp h h', ?_⟩
    · obtain ⟨rfl, -⟩ := hs.producer _ hp
      exact Nat.mod_lt _ (by decide)
    · intro tail hc
      obtain ⟨rfl, hlt⟩ := hs.consumer _ hc
      exact hs.slot_free hp le_rfl hlt
  full pc hp hfull := by
    have hpc := hs.producer pc hp
    cases pc with
    | loadTail value head =>
      obtain rfl : head = _ := hpc
      simp only [spscEnqueue] at hfull
      by_cases htail : nextIndex (s.accepted.length % COM_QUEUE_SIZE) = s.queue.tail
      · have hlength := (nextIndex_eq_tail hs).1 htail
        have hsize : 0 < COM_QUEUE_SIZE := by decide
        omega
      · rw [if_neg htail] at hfull
        cases hfull
    | _ => cases hfull
  empty pc hp hempty := by
    have hpc := hs.consumer pc hp
    cases pc with
    | loadHead tail =>
      obtain rfl : tail = _ := hpc
      simp only [spscDequeue] at hempty
      by_cases hhead : s.queue.head = s.delivered.length % COM_QUEUE_SIZE
      · exact (head_eq_tail hs).1 hhead
      · rw [if_neg hhead] at hempty
        cases hempty
    | _ => cases hempty

/-- **The queue is correct in every reachable state.** -/
theorem correct_of_reachable {buffer : ℕ → α} {s : Spsc α}
    (h : Reachable step (init buffer) s) : Correct s :=
  (inv_of_reachable h).correct

/-- Three values are enqueued, the second of them while the first is taken out. -/
def threeValues : List (Option ℕ) :=
  List.replicate 4 (some 7) ++ [some 8, none, some 8, none, some 8, none, some 8, none] ++
    List.replicate 4 (some 9) ++ List.replicate 4 none

theorem correct_after_three :
    (threeValues.foldl step (init fun _ => 0)).accepted = [7, 8, 9] ∧
      (threeValues.foldl step (init fun _ => 0)).delivered = [7, 8] ∧
      Correct (threeValues.foldl step (init fun _ => 0)) :=
  ⟨rfl, rfl, correct_of_reachable (Reachable.start.foldl _)⟩

end Spsc

end PanTilt.App
