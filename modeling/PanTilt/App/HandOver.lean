import PanTilt.App.SpscQueue
import PanTilt.Lib.Interleave

/-!
The hand-over of centers of mass: `com_calculator_thread` publishes values to the queue that
`start_thread_func` takes them from.

When the queue is full the publisher takes a value out itself and drops it, so that both threads
store the tail. `obtained_of_fresh` says that the values are obtained in the order they were made as
long as no such store is stale, and `obtained_twice` is a run with a stale one.
-/

namespace PanTilt.App

open Lib.Interleave Lib.Ring

/-- Where the publisher is: in its first `spsc_enqueue`, in the `spsc_dequeue` of a value to drop,
or in its second `spsc_enqueue`. -/
inductive PublisherPc
  | publish (pc : EnqueuePc ℕ)
  | discard (pc : DequeuePc ℕ)
  | republish (pc : EnqueuePc ℕ)

/-- The call of `spsc_enqueue` the publisher is in. -/
def PublisherPc.enqueuing : PublisherPc → Option (EnqueuePc ℕ)
  | .publish pc => some pc
  | .discard _ => none
  | .republish pc => some pc

/-- The two threads and the queue. `value` is the value that is published, `accepted` are the values
that were put in the queue, and `obtained` are those the control thread got. -/
structure HandOver where
  queue : SPSCQueue ℕ
  value : ℕ
  publisher : PublisherPc
  consumer : DequeuePc ℕ
  accepted : List ℕ
  obtained : List ℕ

namespace HandOver

/-- Before the first value is published. -/
def start (buffer : ℕ → ℕ) : HandOver where
  queue := spscInit buffer
  value := 1
  publisher := .publish (.loadHead 1)
  consumer := .loadTail
  accepted := []
  obtained := []

/-- The next value is published. -/
def nextValue (s : HandOver) : HandOver :=
  { s with value := s.value + 1, publisher := .publish (.loadHead (s.value + 1)) }

/-- One step of `com_calculator_thread`. -/
def publish (s : HandOver) : HandOver :=
  match s.publisher with
  | .publish pc =>
    match spscEnqueue s.queue pc with
    | (q, .inl pc') => { s with queue := q, publisher := .publish pc' }
    | (q, .inr true) => { s with queue := q, accepted := s.accepted ++ [pc.value] }.nextValue
    | (q, .inr false) => { s with queue := q, publisher := .discard .loadTail }
  | .discard pc =>
    match spscDequeue s.queue pc with
    | (q, .inl pc') => { s with queue := q, publisher := .discard pc' }
    | (q, .inr _) => { s with queue := q, publisher := .republish (.loadHead s.value) }
  | .republish pc =>
    match spscEnqueue s.queue pc with
    | (q, .inl pc') => { s with queue := q, publisher := .republish pc' }
    | (q, .inr true) => { s with queue := q, accepted := s.accepted ++ [pc.value] }.nextValue
    | (q, .inr false) => { s with queue := q }.nextValue

/-- One step of `start_thread_func`, which calls `spsc_dequeue` again and again. -/
def consume (s : HandOver) : HandOver :=
  match spscDequeue s.queue s.consumer with
  | (q, .inl pc') => { s with queue := q, consumer := pc' }
  | (q, .inr (some value)) =>
    { s with queue := q, consumer := .loadTail, obtained := s.obtained ++ [value] }
  | (q, .inr none) => { s with queue := q, consumer := .loadTail }

/-- The two threads. -/
inductive Thread
  | publisher
  | consumer
  deriving DecidableEq

/-- One step of one thread. -/
def step (s : HandOver) : Thread → Option HandOver
  | .publisher => some s.publish
  | .consumer => some s.consume

/-- The tail that a call of `spsc_dequeue` loaded, if its next step is the store of the tail. -/
def tailOfStore : DequeuePc ℕ → Option ℕ
  | .storeTail _ tail => some tail
  | _ => none

/-- The next step of the thread is not a stale store: if it stores the tail, the tail is the one the
call loaded, or the one it stores already. -/
def Fresh (s : HandOver) : Thread → Prop
  | .publisher => ∀ pc, s.publisher = .discard pc → ∀ tail ∈ tailOfStore pc,
      s.queue.tail = tail ∨ s.queue.tail = nextIndex tail
  | .consumer => ∀ tail ∈ tailOfStore s.consumer,
      s.queue.tail = tail ∨ s.queue.tail = nextIndex tail

/-! ### The invariant -/

/-- What the indices modulo the size stand for: `tail` is the number of the accepted value that the
shared tail is at, `last` the number after that of the last obtained value, and `call` the number of
the tail that the call of the consumer loaded. -/
structure Ghost where
  tail : ℕ
  last : ℕ
  call : ℕ

/-- The publisher has written the slot of the next value, and not yet stored the head. -/
def Overwritten (s : HandOver) : Prop :=
  ∃ value head, s.publisher.enqueuing = some (.storeHead value head)

/-- What a call of `spsc_enqueue` has found out. -/
def EnqueueInv (s : HandOver) (g : Ghost) (pc : EnqueuePc ℕ) : Prop :=
  pc.value = s.value ∧
    match pc with
    | .loadHead _ => True
    | .loadTail _ head => head = s.accepted.length % COM_QUEUE_SIZE
    | .writeSlot _ head => head = s.accepted.length % COM_QUEUE_SIZE ∧
        s.accepted.length + 1 < g.tail + COM_QUEUE_SIZE
    | .storeHead value head => head = s.accepted.length % COM_QUEUE_SIZE ∧
        s.accepted.length + 1 < g.tail + COM_QUEUE_SIZE ∧ s.queue.buffer head = value

/-- The tail that the publisher loaded to drop a value is that of number `b`, since when nothing was
accepted. -/
def Loaded (s : HandOver) (g : Ghost) (tail b : ℕ) : Prop :=
  tail = b % COM_QUEUE_SIZE ∧ b ≤ g.tail ∧ s.accepted.length < b + COM_QUEUE_SIZE

/-- What the call of `spsc_dequeue` that drops a value has found out. -/
def DiscardInv (s : HandOver) (g : Ghost) : DequeuePc ℕ → Prop
  | .loadTail => True
  | .loadHead tail => ∃ b, s.Loaded g tail b
  | .readSlot tail => ∃ b, s.Loaded g tail b ∧ b < s.accepted.length
  | .storeTail _ tail => ∃ b, s.Loaded g tail b ∧ b < s.accepted.length

/-- While the publisher drops a value, the queue is full if the publisher has moved the tail on
since the consumer loaded it. -/
def Caught (s : HandOver) (g : Ghost) : Prop :=
  s.consumer ≠ .loadTail → g.call < g.tail → s.accepted.length + 1 = g.tail + COM_QUEUE_SIZE

/-- The tail that the consumer loaded. Since then the tail has moved on by one at most, or the queue
is all but full. -/
structure Called (s : HandOver) (g : Ghost) (tail : ℕ) : Prop where
  eq : tail = g.call % COM_QUEUE_SIZE
  last : g.last ≤ g.call
  le : g.call ≤ g.tail
  full : g.tail ≤ g.call + 1 ∨ g.tail + COM_QUEUE_SIZE ≤ s.accepted.length + 2

/-- The value that was read is that of a number with the slot of the call, an accepted one or the
one that is being published. -/
def Read (s : HandOver) (g : Ghost) (value w : ℕ) : Prop :=
  g.call ≤ w ∧ w % COM_QUEUE_SIZE = g.call % COM_QUEUE_SIZE ∧
    (s.accepted[w]? = some value ∨
      w = s.accepted.length ∧ s.Overwritten ∧ value = s.value)

/-- What the call of `spsc_dequeue` of the consumer has found out. -/
def ConsumerInv (s : HandOver) (g : Ghost) : DequeuePc ℕ → Prop
  | .loadTail => g.last ≤ g.tail
  | .loadHead tail => s.Called g tail
  | .readSlot tail => s.Called g tail ∧ g.call < s.accepted.length
  | .storeTail value tail => s.Called g tail ∧ g.call < s.accepted.length ∧ ∃ w, s.Read g value w

/-- The invariant of a run without stale stores. -/
structure Inv (s : HandOver) (g : Ghost) : Prop where
  sorted : s.accepted.Pairwise (· < ·)
  below : ∀ v ∈ s.accepted, v < s.value
  le : g.tail ≤ s.accepted.length
  bounded : s.accepted.length < g.tail + COM_QUEUE_SIZE
  head : s.queue.head = s.accepted.length % COM_QUEUE_SIZE
  tail : s.queue.tail = g.tail % COM_QUEUE_SIZE
  slots : ∀ lo, s.accepted.length < lo + COM_QUEUE_SIZE ∨
      s.accepted.length ≤ lo + COM_QUEUE_SIZE ∧ ¬ s.Overwritten →
    Holds COM_QUEUE_SIZE s.queue.buffer s.accepted lo s.accepted.length
  enqueue : ∀ pc ∈ s.publisher.enqueuing, s.EnqueueInv g pc
  discard : ∀ pc, s.publisher = .discard pc → s.DiscardInv g pc ∧ s.Caught g
  consumer : s.ConsumerInv g s.consumer
  obtained : s.obtained.Pairwise (· < ·)
  past : ∀ v ∈ s.obtained, ∃ i < g.last, s.accepted[i]? = some v

lemma inv_start (buffer : ℕ → ℕ) : Inv (start buffer) ⟨0, 0, 0⟩ where
  sorted := .nil
  below := by simp [start]
  le := le_rfl
  bounded := by simp [start, COM_QUEUE_SIZE]
  head := rfl
  tail := rfl
  slots lo _ i _ h := absurd h (Nat.not_lt_zero i)
  enqueue := by rintro pc ⟨⟩; exact ⟨rfl, trivial⟩
  discard := by simp [start]
  consumer := le_rfl
  obtained := .nil
  past := by simp [start]

lemma not_overwritten {s : HandOver} {pc : EnqueuePc ℕ} (h : s.publisher.enqueuing = some pc)
    (hpc : ∀ value head, pc ≠ .storeHead value head) : ¬ s.Overwritten := by
  rintro ⟨value, head, h'⟩
  exact hpc value head (Option.some.inj (h.symm.trans h'))

lemma not_overwritten_of_discard {s : HandOver} {pc : DequeuePc ℕ} (h : s.publisher = .discard pc) :
    ¬ s.Overwritten := by
  rintro ⟨value, head, h'⟩
  rw [h] at h'
  cases h'

lemma ConsumerInv.mono {s t : HandOver} {g : Ghost} {pc : DequeuePc ℕ} (h : s.ConsumerInv g pc)
    (hlength : s.accepted.length ≤ t.accepted.length)
    (hread : ∀ value w, s.Read g value w → t.Read g value w) : t.ConsumerInv g pc := by
  have hcalled : ∀ tail, s.Called g tail → t.Called g tail := fun tail hc =>
    ⟨hc.eq, hc.last, hc.le, hc.full.imp_right fun hf => by omega⟩
  cases pc with
  | loadTail => exact h
  | loadHead tail => exact hcalled tail h
  | readSlot tail => exact ⟨hcalled tail h.1, h.2.trans_le hlength⟩
  | storeTail value tail =>
    obtain ⟨hc, hlt, w, hw⟩ := h
    exact ⟨hcalled tail hc, hlt.trans_le hlength, w, hread value w hw⟩

/-- **A step of the publisher between its accesses to the queue.** -/
lemma Inv.goto {s : HandOver} {g : Ghost} (hs : Inv s g) (hover : ¬ s.Overwritten) {value : ℕ}
    (hvalue : s.value ≤ value) {p : PublisherPc}
    (henqueue : ∀ pc ∈ p.enqueuing,
      EnqueueInv { s with value := value, publisher := p } g pc)
    (hdiscard : ∀ pc, p = .discard pc → s.DiscardInv g pc ∧ s.Caught g) :
    Inv { s with value := value, publisher := p } g := by
  refine { hs with
    below := fun v hv => (hs.below v hv).trans_le hvalue
    slots := fun lo h => hs.slots lo (h.imp_right fun h => ⟨h.1, hover⟩)
    enqueue := henqueue
    discard := hdiscard
    consumer := hs.consumer.mono le_rfl fun v w hw => ⟨hw.1, hw.2.1, ?_⟩ }
  exact .inl (hw.2.2.resolve_right fun h => hover h.2.1)

lemma nextIndex_eq_tail {s : HandOver} {g : Ghost} (hs : Inv s g) :
    nextIndex (s.accepted.length % COM_QUEUE_SIZE) = s.queue.tail ↔
      s.accepted.length + 1 = g.tail + COM_QUEUE_SIZE := by
  rw [nextIndex_mod, hs.tail]
  exact succ_mod_eq_iff hs.le hs.bounded

/-- **The publisher writes the slot of its value**, which is not one of the window. -/
lemma Inv.writeSlot {s : HandOver} {g : Ghost} (hs : Inv s g) {value head : ℕ}
    (hp : s.publisher.enqueuing = some (.writeSlot value head)) {p : PublisherPc}
    (hp' : p.enqueuing = some (.storeHead value head)) :
    Inv { s with
      queue := { s.queue with buffer := Function.update s.queue.buffer head value }
      publisher := p } g := by
  have hover : ¬ s.Overwritten := not_overwritten hp (by simp)
  obtain ⟨hvalue, rfl, hroom⟩ := hs.enqueue _ hp
  have hnew : Overwritten { s with
      queue := { s.queue with
        buffer := Function.update s.queue.buffer (s.accepted.length % COM_QUEUE_SIZE) value }
      publisher := p } := ⟨_, _, hp'⟩
  refine { hs with slots := ?_, enqueue := ?_, discard := ?_, consumer := ?_ }
  · intro lo h
    have hlo := h.resolve_right fun h => h.2 hnew
    exact (hs.slots lo (.inl hlo)).write hlo value
  · intro pc hpc
    obtain rfl := Option.some.inj (hp'.symm.trans hpc)
    exact ⟨hvalue, rfl, hroom, Function.update_self ..⟩
  · intro pc hpc
    obtain rfl : p = .discard pc := hpc
    cases hp'
  · refine hs.consumer.mono le_rfl fun v w hw => ⟨hw.1, hw.2.1, ?_⟩
    exact .inl (hw.2.2.resolve_right fun h => hover h.2.1)

/-- **The publisher stores the head**: its value is accepted. -/
lemma Inv.storeHead {s : HandOver} {g : Ghost} (hs : Inv s g) {value head : ℕ}
    (hp : s.publisher.enqueuing = some (.storeHead value head)) :
    Inv { s with
      queue := { s.queue with head := nextIndex head }
      accepted := s.accepted ++ [value] }.nextValue g := by
  obtain ⟨rfl, rfl, hroom, hslot⟩ := hs.enqueue _ hp
  have hmono : ∀ (i v : ℕ), s.accepted[i]? = some v → (s.accepted ++ [s.value])[i]? = some v :=
    fun i v h => by rw [List.getElem?_append_left (List.getElem?_eq_some_iff.1 h).1, h]
  have hlength : (s.accepted ++ [s.value]).length = s.accepted.length + 1 := List.length_append
  refine
    { sorted := ?_, below := ?_, le := ?_, bounded := ?_, head := ?_, tail := hs.tail, slots := ?_,
      enqueue := by rintro pc ⟨⟩; exact ⟨rfl, trivial⟩, discard := by rintro pc ⟨⟩,
      consumer := ?_, obtained := hs.obtained, past := ?_ }
  · refine List.pairwise_append.2 ⟨hs.sorted, List.pairwise_singleton _ _, ?_⟩
    intro a ha b hb
    rw [List.mem_singleton.1 hb]
    exact hs.below a ha
  · intro v hv
    rcases List.mem_append.1 hv with hv | hv
    · exact (hs.below v hv).trans (Nat.lt_succ_self _)
    · rw [List.mem_singleton.1 hv]
      exact Nat.lt_succ_self _
  · exact hs.le.trans (hlength ▸ Nat.le_succ _)
  · exact hlength ▸ hroom
  · exact hlength ▸ nextIndex_mod _
  · intro lo h
    have hlo : s.accepted.length < lo + COM_QUEUE_SIZE := by
      simp only [nextValue, hlength] at h
      omega
    exact hlength ▸ (hs.slots lo (.inl hlo)).push hslot
  · refine hs.consumer.mono (hlength ▸ Nat.le_succ _) fun v w hw => ⟨hw.1, hw.2.1, .inl ?_⟩
    rcases hw.2.2 with hget | ⟨rfl, -, rfl⟩
    · exact hmono w v hget
    · exact List.getElem?_concat_length
  · intro v hv
    obtain ⟨i, hi, hget⟩ := hs.past v hv
    exact ⟨i, hi, hmono i v hget⟩

/-- A tail that is not stale is that of the call, or the one after it. -/
lemma tail_of_fresh {s : HandOver} {g : Ghost} (hs : Inv s g) {tail b : ℕ}
    (hb : s.Loaded g tail b)
    (hfresh : s.queue.tail = tail ∨ s.queue.tail = nextIndex tail) :
    g.tail = b ∨ g.tail = b + 1 := by
  obtain ⟨rfl, hle, hlt⟩ := hb
  have htail := hs.le
  rw [hs.tail, nextIndex_mod] at hfresh
  unfold COM_QUEUE_SIZE at hlt hfresh
  omega

lemma ConsumerInv.advance {s t : HandOver} {g : Ghost} (h : s.ConsumerInv g s.consumer)
    (hcaught : s.Caught g) (haccepted : t.accepted = s.accepted)
    (hread : ∀ value w, s.Read g value w → t.Read g value w) :
    t.ConsumerInv { g with tail := g.tail + 1 } s.consumer := by
  unfold Caught at hcaught
  have hcalled : s.consumer ≠ .loadTail → ∀ tail, s.Called g tail →
      t.Called { g with tail := g.tail + 1 } tail := fun hne tail hc => by
    have hfull := hcaught hne
    refine ⟨hc.eq, hc.last, Nat.le_succ_of_le hc.le, ?_⟩
    have hle := hc.le
    simp only [haccepted]
    omega
  revert h hcalled
  cases s.consumer with
  | loadTail => exact fun h _ => Nat.le_succ_of_le h
  | loadHead tail => exact fun h hcalled => hcalled (by simp) tail h
  | readSlot tail => exact fun h hcalled => ⟨hcalled (by simp) tail h.1, haccepted ▸ h.2⟩
  | storeTail value tail =>
    rintro ⟨hc, hlt, w, hw⟩ hcalled
    exact ⟨hcalled (by simp) tail hc, haccepted ▸ hlt, w, hread value w hw⟩

/-- **The publisher stores the tail**, and that not from a stale one: either it moves the tail by
one, or the consumer has done so. -/
lemma Inv.dropValue {s : HandOver} {g : Ghost} (hs : Inv s g) {value tail : ℕ}
    (hp : s.publisher = .discard (.storeTail value tail)) (hfresh : s.Fresh .publisher) :
    ∃ g', Inv { s with
      queue := { s.queue with tail := nextIndex tail }
      publisher := .republish (.loadHead s.value) } g' := by
  have hover := not_overwritten_of_discard hp
  obtain ⟨⟨b, hb, hlt⟩, hcaught⟩ := hs.discard _ hp
  have htail := tail_of_fresh hs hb (hfresh _ hp tail rfl)
  obtain ⟨rfl, -, -⟩ := hb
  have hgoto := hs.goto hover le_rfl (p := .republish (.loadHead s.value))
    (by rintro pc ⟨⟩; exact ⟨rfl, trivial⟩) (by rintro pc ⟨⟩)
  rcases htail with hb | hb
  · refine ⟨{ g with tail := g.tail + 1 }, { hgoto with
      le := by rw [hb]; exact hlt
      bounded := hs.bounded.trans (by simp)
      tail := by rw [hb]; exact nextIndex_mod b
      enqueue := by rintro pc ⟨⟩; exact ⟨rfl, trivial⟩
      discard := by rintro pc ⟨⟩
      consumer := hs.consumer.advance hcaught rfl fun v w hw => ⟨hw.1, hw.2.1, .inl ?_⟩ }⟩
    exact hw.2.2.resolve_right fun h => hover h.2.1
  · refine ⟨g, { hgoto with
      tail := ?_
      consumer := hgoto.consumer.mono le_rfl fun _ _ hw => hw }⟩
    rw [hb]
    exact nextIndex_mod b

/-- **A step of a call of `spsc_enqueue`**, the first or the second one of the publisher, up to its
end. -/
lemma Inv.enqueueStep {s : HandOver} {g : Ghost} (hs : Inv s g) {pc : EnqueuePc ℕ}
    (hp : s.publisher.enqueuing = some pc) (wrap : EnqueuePc ℕ → PublisherPc)
    (hwrap : ∀ pc, (wrap pc).enqueuing = some pc) :
    match spscEnqueue s.queue pc with
    | (q, .inl pc') => Inv { s with queue := q, publisher := wrap pc' } g
    | (q, .inr true) =>
      Inv { s with queue := q, accepted := s.accepted ++ [pc.value] }.nextValue g
    | (q, .inr false) => q = s.queue ∧ ¬ s.Overwritten ∧
      s.accepted.length + 1 = g.tail + COM_QUEUE_SIZE := by
  have hnot : ∀ pc pc', wrap pc ≠ .discard pc' := fun pc pc' h => by
    have henq := hwrap pc
    rw [h] at henq
    cases henq
  cases pc with
  | loadHead value =>
    have hover : ¬ s.Overwritten := not_overwritten hp (by simp)
    refine hs.goto hover le_rfl ?_ fun pc hpc => absurd hpc (hnot _ _)
    intro pc hpc
    obtain rfl := Option.some.inj ((hwrap _).symm.trans hpc)
    exact ⟨(hs.enqueue _ hp).1, hs.head⟩
  | loadTail value head =>
    have hover : ¬ s.Overwritten := not_overwritten hp (by simp)
    obtain ⟨hvalue, hhead⟩ := hs.enqueue _ hp
    obtain rfl : head = _ := hhead
    rw [spscEnqueue]
    by_cases hfull : nextIndex (s.accepted.length % COM_QUEUE_SIZE) = s.queue.tail
    · rw [if_pos hfull]
      exact ⟨rfl, hover, (nextIndex_eq_tail hs).1 hfull⟩
    · rw [if_neg hfull]
      rw [nextIndex_eq_tail hs] at hfull
      have hroom : s.accepted.length + 1 < g.tail + COM_QUEUE_SIZE := by
        have hbounded := hs.bounded
        omega
      refine hs.goto hover le_rfl ?_ fun pc hpc => absurd hpc (hnot _ _)
      intro pc hpc
      obtain rfl := Option.some.inj ((hwrap _).symm.trans hpc)
      exact ⟨hvalue, rfl, hroom⟩
  | writeSlot value head => exact hs.writeSlot hp (hwrap _)
  | storeHead value head => exact hs.storeHead hp

/-- **A step of the call of `spsc_dequeue`** with which the publisher drops a value. -/
lemma Inv.discardStep {s : HandOver} {g : Ghost} (hs : Inv s g) {pc : DequeuePc ℕ}
    (hp : s.publisher = .discard pc) (hfresh : s.Fresh .publisher) : ∃ g', Inv s.publish g' := by
  unfold HandOver.publish
  simp only [hp]
  have hover := not_overwritten_of_discard hp
  obtain ⟨hdiscard, hcaught⟩ := hs.discard pc hp
  have hnext : Inv { s with publisher := .republish (.loadHead s.value) } g :=
    hs.goto hover le_rfl (by rintro pc ⟨⟩; exact ⟨rfl, trivial⟩) (by rintro pc ⟨⟩)
  cases pc with
  | loadTail =>
    refine ⟨g, hs.goto hover le_rfl (by rintro pc ⟨⟩) ?_⟩
    rintro pc ⟨⟩
    exact ⟨⟨g.tail, hs.tail, le_rfl, hs.bounded⟩, hcaught⟩
  | loadHead tail =>
    obtain ⟨b, hb⟩ := hdiscard
    simp only [spscDequeue]
    by_cases hempty : s.queue.head = tail
    · rw [if_pos hempty]
      exact ⟨g, hnext⟩
    · rw [if_neg hempty]
      have hlt : b < s.accepted.length := by
        apply lt_of_le_of_ne (hb.2.1.trans hs.le)
        intro e
        apply hempty
        rw [hs.head, hb.1, e]
      refine ⟨g, hs.goto hover le_rfl (by rintro pc ⟨⟩) ?_⟩
      rintro pc ⟨⟩
      exact ⟨⟨b, hb, hlt⟩, hcaught⟩
  | readSlot tail =>
    refine ⟨g, hs.goto hover le_rfl (by rintro pc ⟨⟩) ?_⟩
    rintro pc ⟨⟩
    exact ⟨hdiscard, hcaught⟩
  | storeTail value tail => exact hs.dropValue hp hfresh

theorem Inv.publish {s : HandOver} {g : Ghost} (hs : Inv s g) (hfresh : s.Fresh .publisher) :
    ∃ g', Inv s.publish g' := by
  cases hp : s.publisher with
  | publish pc =>
    have hstep := hs.enqueueStep (by rw [hp]; rfl) .publish fun _ => rfl
    rcases hq : spscEnqueue s.queue pc with ⟨q, pc' | full | _⟩
    · rw [hq] at hstep
      simp only [HandOver.publish, hp, hq]
      exact ⟨g, hstep⟩
    · rw [hq] at hstep
      obtain ⟨rfl, hover, hfull⟩ := hstep
      simp only [HandOver.publish, hp, hq]
      refine ⟨g, hs.goto hover le_rfl (by rintro pc ⟨⟩) ?_⟩
      rintro pc ⟨⟩
      exact ⟨trivial, fun _ _ => hfull⟩
    · rw [hq] at hstep
      simp only [HandOver.publish, hp, hq]
      exact ⟨g, hstep⟩
  | discard pc => exact hs.discardStep hp hfresh
  | republish pc =>
    have hstep := hs.enqueueStep (by rw [hp]; rfl) .republish fun _ => rfl
    rcases hq : spscEnqueue s.queue pc with ⟨q, pc' | full | _⟩
    · rw [hq] at hstep
      simp only [HandOver.publish, hp, hq]
      exact ⟨g, hstep⟩
    · rw [hq] at hstep
      obtain ⟨rfl, hover, -⟩ := hstep
      simp only [HandOver.publish, hp, hq]
      refine ⟨g, hs.goto hover (Nat.le_succ _) ?_ (by rintro pc ⟨⟩)⟩
      rintro pc ⟨⟩
      exact ⟨rfl, trivial⟩
    · rw [hq] at hstep
      simp only [HandOver.publish, hp, hq]
      exact ⟨g, hstep⟩

/-- What a store of the tail by the consumer does: it ends past the value that was read, and that
one is accepted. -/
lemma store_arith {T H a w : ℕ} (haH : a < H) (hT : T ≤ H) (hb : H < T + COM_QUEUE_SIZE)
    (hfull : T ≤ a + 1 ∨ T + COM_QUEUE_SIZE ≤ H + 2)
    (hmod : w % COM_QUEUE_SIZE = a % COM_QUEUE_SIZE) (hwH : w ≤ H)
    (hroom : w = H → H + 1 < T + COM_QUEUE_SIZE)
    (hfresh : T % COM_QUEUE_SIZE = a % COM_QUEUE_SIZE ∨
      T % COM_QUEUE_SIZE = (a + 1) % COM_QUEUE_SIZE) :
    w < H ∧ ∃ T', T ≤ T' ∧ T' ≤ H ∧ w < T' ∧
      T' % COM_QUEUE_SIZE = (a + 1) % COM_QUEUE_SIZE := by
  unfold COM_QUEUE_SIZE at *
  refine ⟨by omega, ?_⟩
  rcases hfresh with h | h
  · exact ⟨T + 1, by omega, by omega, by omega, by omega⟩
  · exact ⟨T, by omega, by omega, by omega, by omega⟩

/-- **A step of the consumer between its accesses to the tail.** -/
lemma Inv.turn {s : HandOver} {g : Ghost} (hs : Inv s g) (c : DequeuePc ℕ) (a : ℕ)
    (hcaught : s.Caught g → Caught { s with consumer := c } { g with call := a })
    (hconsumer : ConsumerInv { s with consumer := c } { g with call := a } c) :
    Inv { s with consumer := c } { g with call := a } :=
  { hs with
    discard := fun pc hpc => ⟨(hs.discard pc hpc).1, hcaught (hs.discard pc hpc).2⟩
    consumer := hconsumer }

lemma exists_read {s : HandOver} {g : Ghost} (hs : Inv s g) (hlt : g.call < s.accepted.length) :
    ∃ w, s.Read g (s.queue.buffer (g.call % COM_QUEUE_SIZE)) w := by
  obtain ⟨w, hcall, hw, hlast, hmod⟩ := exists_mod_eq (N := COM_QUEUE_SIZE) hlt (by decide)
  rcases Nat.lt_or_ge s.accepted.length (w + COM_QUEUE_SIZE) with hnew | hold
  · exact ⟨w, hcall, hmod, .inl (hmod ▸ hs.slots w (.inl hnew) w le_rfl hw)⟩
  by_cases hover : s.Overwritten
  · -- the slot is that of the value being published
    obtain ⟨value, head, hp⟩ := hover
    obtain ⟨hvalue, rfl, -, hslot⟩ := hs.enqueue _ hp
    have hH : s.accepted.length % COM_QUEUE_SIZE = g.call % COM_QUEUE_SIZE := by
      rw [Nat.le_antisymm hlast hold, Nat.add_mod_right, hmod]
    refine ⟨_, hcall.trans hw.le, hH, .inr ⟨rfl, ⟨_, _, hp⟩, ?_⟩⟩
    rw [← hH, hslot]
    exact hvalue
  · exact ⟨w, hcall, hmod, .inl (hmod ▸ hs.slots w (.inr ⟨hlast, hover⟩) w le_rfl hw)⟩

lemma EnqueueInv.mono {s t : HandOver} {g g' : Ghost} {pc : EnqueuePc ℕ} (h : s.EnqueueInv g pc)
    (hbuffer : t.queue.buffer = s.queue.buffer) (hvalue : t.value = s.value)
    (haccepted : t.accepted = s.accepted) (htail : g.tail ≤ g'.tail) : t.EnqueueInv g' pc := by
  cases pc with
  | writeSlot value head =>
    obtain ⟨hv, hhead, hroom⟩ := h
    exact ⟨hvalue ▸ hv, haccepted ▸ hhead, by rw [haccepted]; omega⟩
  | storeHead value head =>
    obtain ⟨hv, hhead, hroom, hslot⟩ := h
    exact ⟨hvalue ▸ hv, haccepted ▸ hhead, by rw [haccepted]; omega, hbuffer ▸ hslot⟩
  | _ =>
    simp only [EnqueueInv, hvalue, haccepted]
    exact h

lemma DiscardInv.mono {s t : HandOver} {g g' : Ghost} {pc : DequeuePc ℕ} (h : s.DiscardInv g pc)
    (haccepted : t.accepted = s.accepted) (htail : g.tail ≤ g'.tail) : t.DiscardInv g' pc := by
  have hloaded : ∀ tail b, s.Loaded g tail b → t.Loaded g' tail b := fun tail b hb =>
    ⟨hb.1, hb.2.1.trans htail, haccepted ▸ hb.2.2⟩
  cases pc with
  | loadTail => trivial
  | loadHead tail =>
    obtain ⟨b, hb⟩ := h
    exact ⟨b, hloaded tail b hb⟩
  | _ =>
    obtain ⟨b, hb, hlt⟩ := h
    exact ⟨b, hloaded _ b hb, haccepted ▸ hlt⟩

lemma lt_of_sorted {vs : List ℕ} (h : vs.Pairwise (· < ·)) {i j u v : ℕ} (hij : i < j)
    (hu : vs[i]? = some u) (hv : vs[j]? = some v) : u < v := by
  obtain ⟨hi, rfl⟩ := List.getElem?_eq_some_iff.1 hu
  obtain ⟨hj, rfl⟩ := List.getElem?_eq_some_iff.1 hv
  exact List.pairwise_iff_getElem.1 h i j hi hj hij

/-- **The consumer stores the tail**, and that not from a stale one: it has obtained a value newer
than all before. -/
lemma Inv.obtain {s : HandOver} {g : Ghost} (hs : Inv s g) {value tail : ℕ}
    (hc : s.consumer = .storeTail value tail) (hfresh : s.Fresh .consumer) :
    ∃ g', Inv { s with
      queue := { s.queue with tail := nextIndex tail }
      consumer := .loadTail
      obtained := s.obtained ++ [value] } g' := by
  have hconsumer := hs.consumer
  rw [hc] at hconsumer
  obtain ⟨⟨rfl, hlast, -, hfull⟩, hlt, w, hw, hmod, hread⟩ := hconsumer
  have hfresh' := hfresh (g.call % COM_QUEUE_SIZE) (by rw [hc]; rfl)
  rw [hs.tail, nextIndex_mod] at hfresh'
  have hwle : w ≤ s.accepted.length := by
    rcases hread with hget | ⟨rfl, -⟩
    · exact (List.getElem?_eq_some_iff.1 hget).1.le
    · exact le_rfl
  have hroom : w = s.accepted.length → s.accepted.length + 1 < g.tail + COM_QUEUE_SIZE := by
    rintro rfl
    rcases hread with hget | ⟨-, ⟨_, _, hp⟩, -⟩
    · exact absurd (List.getElem?_eq_some_iff.1 hget).1 (lt_irrefl _)
    · exact (hs.enqueue _ hp).2.2.1
  obtain ⟨hwlt, T, hT, hTle, hwT, hTmod⟩ :=
    store_arith hlt hs.le hs.bounded hfull hmod hwle hroom hfresh'
  have hget : s.accepted[w]? = some value := hread.resolve_right fun h => hwlt.ne h.1
  refine ⟨{ tail := T, last := w + 1, call := g.call }, { hs with
    le := hTle
    bounded := hs.bounded.trans_le (Nat.add_le_add_right hT _)
    tail := (nextIndex_mod _).trans hTmod.symm
    enqueue := fun pc hpc => (hs.enqueue pc hpc).mono rfl rfl rfl hT
    discard := fun pc hpc => ⟨(hs.discard pc hpc).1.mono rfl hT, fun h => absurd rfl h⟩
    consumer := hwT
    obtained := ?_
    past := ?_ }⟩
  · refine List.pairwise_append.2 ⟨hs.obtained, List.pairwise_singleton _ _, ?_⟩
    intro u hu v hv
    obtain ⟨i, hi, hgeti⟩ := hs.past u hu
    rw [List.mem_singleton.1 hv]
    exact lt_of_sorted hs.sorted (by omega) hgeti hget
  · intro v hv
    rcases List.mem_append.1 hv with hv | hv
    · obtain ⟨i, hi, hgeti⟩ := hs.past v hv
      have hiw : i < w + 1 := by omega
      exact ⟨i, hiw, hgeti⟩
    · rw [List.mem_singleton.1 hv]
      exact ⟨w, Nat.lt_succ_self w, hget⟩

theorem Inv.consume {s : HandOver} {g : Ghost} (hs : Inv s g) (hfresh : s.Fresh .consumer) :
    ∃ g', Inv s.consume g' := by
  have hconsumer := hs.consumer
  unfold HandOver.consume
  cases hc : s.consumer with
  | loadTail =>
    rw [hc] at hconsumer
    refine ⟨_, hs.turn (.loadHead s.queue.tail) g.tail (fun _ _ h => absurd h (lt_irrefl _)) ?_⟩
    exact ⟨hs.tail, hconsumer, le_rfl, .inl (Nat.le_succ _)⟩
  | loadHead tail =>
    rw [hc] at hconsumer
    simp only [spscDequeue]
    by_cases hempty : s.queue.head = tail
    · rw [if_pos hempty]
      refine ⟨g, hs.turn .loadTail g.call (fun _ h => absurd rfl h) ?_⟩
      exact hconsumer.last.trans hconsumer.le
    · rw [if_neg hempty]
      have hlt : g.call < s.accepted.length := by
        apply lt_of_le_of_ne (hconsumer.le.trans hs.le)
        intro e
        apply hempty
        rw [hs.head, hconsumer.eq, e]
      refine ⟨g, hs.turn (.readSlot tail) g.call (fun h _ => h (by rw [hc]; simp)) ⟨?_, hlt⟩⟩
      exact ⟨hconsumer.eq, hconsumer.last, hconsumer.le, hconsumer.full⟩
  | readSlot tail =>
    rw [hc] at hconsumer
    obtain ⟨hcalled, hlt⟩ := hconsumer
    obtain ⟨w, hw⟩ := exists_read hs hlt
    rw [← hcalled.eq] at hw
    refine ⟨g, hs.turn (.storeTail (s.queue.buffer tail) tail) g.call
      (fun h _ => h (by rw [hc]; simp)) ⟨?_, hlt, w, hw⟩⟩
    exact ⟨hcalled.eq, hcalled.last, hcalled.le, hcalled.full⟩
  | storeTail value tail => exact hs.obtain hc hfresh

/-! ### The order of the obtained values -/

/-- **Without stale stores the values are obtained in the order they were made**, none of them
twice, in every interleaving. -/
theorem obtained_of_fresh {buffer : ℕ → ℕ} {s : HandOver} (h : Run step Fresh (start buffer) s) :
    s.obtained.Pairwise (· < ·) := by
  have hinv : ∃ g, Inv s g := by
    apply h.invariant (P := fun s => ∃ g, Inv s g) ⟨_, inv_start buffer⟩
    intro s thread t hs hfresh hstep
    obtain ⟨g, hs⟩ := hs
    cases thread with
    | publisher =>
      obtain rfl := Option.some.inj hstep
      exact hs.publish hfresh
    | consumer =>
      obtain rfl := Option.some.inj hstep
      exact hs.consume hfresh
  obtain ⟨g, hs⟩ := hinv
  exact hs.obtained

/-- The thread stores no tail, or the one after the tail it loaded. -/
def freshTest (s : HandOver) : Thread → Bool
  | .publisher =>
    match s.publisher with
    | .discard pc => (tailOfStore pc).all fun tail => s.queue.tail = tail
    | _ => true
  | .consumer => (tailOfStore s.consumer).all fun tail => s.queue.tail = tail

lemma fresh_of_test (s : HandOver) (thread : Thread) (h : s.freshTest thread = true) :
    s.Fresh thread := by
  cases thread with
  | publisher =>
    intro pc hpc tail htail
    simp only [freshTest, hpc, Option.all_eq_true, decide_eq_true_eq] at h
    exact .inl (h tail htail)
  | consumer =>
    intro tail htail
    simp only [freshTest, Option.all_eq_true, decide_eq_true_eq] at h
    exact .inl (h tail htail)

/-- The first `k` values are published, and none is taken. -/
def filled (buffer : ℕ → ℕ) (k : ℕ) : HandOver where
  queue := { buffer := fun i => if i < k then i + 1 else buffer i, head := k, tail := 0 }
  value := k + 1
  publisher := .publish (.loadHead (k + 1))
  consumer := .loadTail
  accepted := (List.range k).map (· + 1)
  obtained := []

lemma reaches_filled (buffer : ℕ → ℕ) {k : ℕ} (hk : k < COM_QUEUE_SIZE) :
    Run step Fresh (start buffer) (filled buffer k) := by
  induction k with
  | zero => exact .refl
  | succ k ih =>
    apply (ih (by omega)).trans
    have hnext := nextIndex_of_lt hk
    have hbuffer := update_below (· + 1) buffer k
    refine .head .publisher (fresh_of_test _ _ rfl) rfl ?_
    refine .head .publisher (t := { filled buffer k with
      publisher := .publish (.writeSlot (k + 1) k) }) (fresh_of_test _ _ rfl) ?_ ?_
    · simp [step, publish, spscEnqueue, filled, hnext]
    refine .head .publisher (fresh_of_test _ _ rfl) rfl
      (.head .publisher (fresh_of_test _ _ rfl) ?_ .refl)
    simp [step, publish, spscEnqueue, filled, hnext, hbuffer, nextValue, List.range_succ,
      EnqueuePc.value]

/-- The queue is full, the publisher drops the value 1 to publish 256, and the consumer obtains the
next two values. -/
theorem obtained_after_drop : ∃ s, Run step Fresh (start fun _ => 0) s ∧
    s.accepted.getLast? = some 256 ∧ s.obtained = [2, 3] ∧ s.obtained.Pairwise (· < ·) := by
  obtain ⟨s, hexec, haccepted, hobtained⟩ : ∃ s,
      exec (fun s c => if s.freshTest c then step s c else none) (filled (fun _ => 0) 255)
        (List.replicate 10 .publisher ++ List.replicate 8 .consumer) = some s ∧
      s.accepted.getLast? = some 256 ∧ s.obtained = [2, 3] := ⟨_, rfl, rfl, rfl⟩
  have hrun := (reaches_filled _ (by decide)).trans (run_of_exec_test fresh_of_test _ hexec)
  exact ⟨s, hrun, haccepted, hobtained, obtained_of_fresh hrun⟩

/-! ### A stale store -/

/-- **A value is obtained twice**: the publisher loads the tail of the full queue to drop a value,
the consumer takes two values, and the publisher then stores the tail after the first of them. -/
theorem obtained_twice :
    ¬ ∀ s, Run step anyStep (start fun _ => 0) s → s.obtained.Pairwise (· < ·) := by
  intro h
  obtain ⟨s, hrun, hs⟩ : ∃ s, Run step anyStep (filled (fun _ => 0) 255) s ∧
      s.obtained = [1, 2, 2] :=
    ⟨_, .cons .publisher rfl <| .cons .publisher rfl <| .cons .publisher rfl <|
      .cons .publisher rfl <| .cons .publisher rfl <| .cons .consumer rfl <|
      .cons .consumer rfl <| .cons .consumer rfl <| .cons .consumer rfl <| .cons .consumer rfl <|
      .cons .consumer rfl <| .cons .consumer rfl <| .cons .consumer rfl <| .cons .publisher rfl <|
      .cons .consumer rfl <| .cons .consumer rfl <| .cons .consumer rfl <|
      .cons .consumer rfl .refl, rfl⟩
  have hfilled := (reaches_filled (fun _ => 0) (show 255 < COM_QUEUE_SIZE by decide)).mono
    fun _ _ _ => trivial
  have hsorted := h s (hfilled.trans hrun)
  rw [hs] at hsorted
  exact absurd hsorted (by decide)

end HandOver

end PanTilt.App
