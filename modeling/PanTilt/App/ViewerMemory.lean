import PanTilt.App.DebugVideo
import PanTilt.Lib.Rounds

/-!
What `debug_video_master.py` keeps.

A frame leaves the two dictionaries when its last chunk comes, and in no other way. So the chunks of
a frame are collected in rounds, whatever the network loses, repeats and reorders: `keeps_rounds`
says what the dictionaries hold after any delivery, and that a frame of which a datagram is lost
stays in them.
-/

namespace PanTilt.App

open Lib.Chunks Lib.Rounds

/-! ### The two dictionaries -/

/-- An entry of `frames` has a chunk, and `expected_chunks` has the same frames. -/
structure Kept (r : Receiver) : Prop where
  entry : ∀ f, f ∈ r.frames ↔ (r.chunks f).keys ≠ []
  expected : ∀ f, f ∈ r.expectedChunks ↔ f ∈ r.frames

lemma kept_init : Kept Receiver.init where
  entry f := by simp [Receiver.init, Receiver.chunks]
  expected f := by simp [Receiver.init]

lemma assembleFrame_cases {r r' : Receiver} {msg : List Byte} (h : assembleFrame r msg = some r') :
    ∃ f k n, unpackHeader msg = some (f, k, n) ∧
      let chunks := (r.chunks f).insert k (msg.drop 8)
      (r'.frames = r.frames.insert f chunks ∧ r'.expectedChunks = r.expectedChunks.insert f n) ∨
        (r'.frames = (r.frames.insert f chunks).erase f ∧
          r'.expectedChunks = (r.expectedChunks.insert f n).erase f) := by
  rw [assembleFrame] at h
  obtain ⟨⟨f, k, n⟩, hheader, h⟩ := Option.bind_eq_some_iff.1 h
  refine ⟨f, k, n, hheader, ?_⟩
  simp only [] at h
  split_ifs at h with hfull
  · obtain ⟨parts, -, hparts⟩ := Option.bind_eq_some_iff.1 h
    obtain rfl := Option.some.inj hparts
    exact .inr ⟨rfl, rfl⟩
  · obtain rfl := Option.some.inj h
    exact .inl ⟨rfl, rfl⟩

/-- **Every call keeps the dictionaries alike**, also one with a datagram that was not sent. -/
theorem Kept.assembleFrame {r r' : Receiver} {msg : List Byte} (hr : Kept r)
    (h : App.assembleFrame r msg = some r') : Kept r' := by
  obtain ⟨f, k, n, -, ⟨hframes, hexpected⟩ | ⟨hframes, hexpected⟩⟩ := assembleFrame_cases h
  · refine ⟨fun f' => ?_, fun f' => ?_⟩
    · rw [Receiver.chunks, hframes, AList.mem_insert]
      by_cases hne : f' = f
      · subst hne
        rw [AList.lookup_insert, Option.getD_some]
        refine iff_of_true (.inl rfl) (List.ne_nil_of_mem (a := k) ?_)
        exact AList.mem_keys.1 ((AList.mem_insert _).2 (.inl rfl))
      · rw [AList.lookup_insert_ne hne, or_iff_right hne]
        exact hr.entry f'
    · rw [hframes, hexpected, AList.mem_insert, AList.mem_insert, hr.expected]
  · refine ⟨fun f' => ?_, fun f' => ?_⟩
    · rw [Receiver.chunks, hframes, AList.mem_erase, AList.mem_insert]
      by_cases hne : f' = f
      · subst hne
        rw [AList.lookup_erase]
        exact iff_of_false (fun e => e.1 rfl) (fun e => e rfl)
      · rw [AList.lookup_erase_ne hne, AList.lookup_insert_ne hne, or_iff_right hne,
          and_iff_right hne]
        exact hr.entry f'
    · rw [hframes, hexpected, AList.mem_erase, AList.mem_erase, AList.mem_insert, AList.mem_insert,
        hr.expected]

/-! ### Deliveries -/

/-- The chunk numbers of the datagrams of a frame, in the order in which they come. -/
def numbers (f : ℕ) (msgs : List (List Byte)) : List ℕ :=
  msgs.filterMap fun msg => (unpackHeader msg).bind fun h => if h.1 = f then some h.2.1 else none

section Run

variable {buffers past : List (List Byte)} {r : Receiver} {f f' k : ℕ} {bytes bytes' : List Byte}

lemma numbers_concat (f' : ℕ) (hf : f < 2 ^ 32) (h : Sendable bytes) (hk : k < chunkCount bytes) :
    numbers f' (past ++ [datagram f bytes k]) =
      if f = f' then numbers f' past ++ [k] else numbers f' past := by
  have hlast : numbers f' [datagram f bytes k] = if f = f' then [k] else [] := by
    rw [numbers, List.filterMap_cons, (unpackHeader_datagram hf h hk).1, Option.bind_some]
    split_ifs <;> rfl
  rw [numbers, List.filterMap_append, ← numbers, ← numbers, hlast]
  split_ifs
  · rfl
  · exact List.append_nil _

/-- The chunks that wait are the round under way, and every round was shown. -/
def InRounds (past : List (List Byte)) (r : Receiver) (f : ℕ) (bytes : List Byte) : Prop :=
  rounds (chunkCount bytes) (numbers f past) =
    { waiting := (r.chunks f).keys.toFinset, complete := r.timesShown f }

/-- **One more chunk is one more element of its round.** -/
lemma InRounds.self {r' : Receiver} (h : InRounds past r f bytes) (hf : f < 2 ^ 32)
    (hsend : Sendable bytes) (hk : k < chunkCount bytes) (hrec : Received r r' f bytes k) :
    InRounds (past ++ [datagram f bytes k]) r' f bytes := by
  rw [InRounds, numbers_concat f hf hsend hk, if_pos rfl, rounds_concat, h, draw]
  have hset : ((r.chunks f).insert k (chunk CHUNK_DATA_SIZE bytes k)).keys.toFinset =
      insert k (r.chunks f).keys.toFinset := by
    ext i
    rw [List.mem_toFinset, Finset.mem_insert, List.mem_toFinset, ← AList.mem_keys,
      ← AList.mem_keys, AList.mem_insert]
  have hcard : (insert k (r.chunks f).keys.toFinset).card =
      ((r.chunks f).insert k (chunk CHUNK_DATA_SIZE bytes k)).keys.length := by
    rw [← hset]
    exact List.toFinset_card_of_nodup (AList.keys_nodup _)
  rcases hrec with ⟨hlen, hchunks, hshown⟩ | ⟨hlen, hchunks, hshown⟩
  · rw [if_neg (by rw [hcard]; omega), hchunks, hset, Receiver.timesShown, Receiver.timesShown,
      hshown]
  · rw [if_pos (by rw [hcard, hlen]), hchunks]
    have htimes : r'.timesShown f = r.timesShown f + 1 := by
      rw [Receiver.timesShown, hshown, List.map_append, List.count_append]
      simp [Receiver.timesShown]
    rw [htimes]
    rfl

lemma InRounds.other {r' : Receiver} (h : InRounds past r f' bytes') (hf : f < 2 ^ 32)
    (hsend : Sendable bytes) (hk : k < chunkCount bytes) (hne : f' ≠ f)
    (hchunks : r'.chunks f' = r.chunks f') (hrec : Received r r' f bytes k) :
    InRounds (past ++ [datagram f bytes k]) r' f' bytes' := by
  rw [InRounds, numbers_concat f' hf hsend hk, if_neg hne.symm, hchunks,
    hrec.timesShown_of_ne hne]
  exact h

/-- What holds after some datagrams. -/
structure Stored (buffers past : List (List Byte)) (r : Receiver) : Prop where
  kept : Kept r
  assembled : Assembled buffers past r
  rounds : ∀ f bytes, buffers[f]? = some bytes → InRounds past r f bytes

lemma stored_init (hsize : ∀ bytes ∈ buffers, Sendable bytes) :
    Stored buffers [] Receiver.init where
  kept := kept_init
  assembled := assembled_init hsize
  rounds _ _ _ := rfl

theorem Stored.step (h : Stored buffers past r) (hcount : buffers.length ≤ 2 ^ 32)
    (hsize : ∀ bytes ∈ buffers, Sendable bytes) (hf : buffers[f]? = some bytes)
    (hk : k < chunkCount bytes) :
    ∃ r', assembleFrame r (datagram f bytes k) = some r' ∧
      Stored buffers (past ++ [datagram f bytes k]) r' := by
  have hid : f < 2 ^ 32 := Nat.lt_of_lt_of_le (getElem?_lt hf) hcount
  have hsend : Sendable bytes := hsize _ (List.mem_of_getElem? hf)
  obtain ⟨r', hr', hassembled⟩ := h.assembled.step hcount hsize hf hk
  obtain ⟨r'', hr'', hother, hrec⟩ :=
    assembleFrame_datagram hid hsend hk (h.assembled.collected f bytes hf).1
  obtain rfl : r' = r'' := Option.some.inj (hr'.symm.trans hr'')
  refine ⟨r', hr', h.kept.assembleFrame hr', hassembled, fun f' bytes' hf' => ?_⟩
  by_cases hne : f' = f
  · subst hne
    obtain rfl : bytes = bytes' := Option.some.inj (hf.symm.trans hf')
    exact (h.rounds f' bytes hf').self hid hsend hk hrec
  · exact (h.rounds f' bytes' hf').other hid hsend hk hne (hother f' hne) hrec

lemma Stored.receive (hcount : buffers.length ≤ 2 ^ 32)
    (hsize : ∀ bytes ∈ buffers, Sendable bytes) (msgs : List (List Byte))
    (hmsgs : ∀ d ∈ msgs, ∃ f bytes k, buffers[f]? = some bytes ∧ k < chunkCount bytes ∧
      d = datagram f bytes k) :
    ∃ r, App.receive Receiver.init msgs = some r ∧ Stored buffers msgs r := by
  induction msgs using List.reverseRecOn with
  | nil => exact ⟨_, rfl, stored_init hsize⟩
  | append_singleton msgs d ih =>
    obtain ⟨r, hr, h⟩ := ih fun d hd => hmsgs d (List.mem_append_left _ hd)
    obtain ⟨f, bytes, k, hf, hk, rfl⟩ :=
      hmsgs d (List.mem_append_right _ (List.mem_singleton_self d))
    obtain ⟨r', hr', h'⟩ := h.step hcount hsize hf hk
    refine ⟨r', ?_, h'⟩
    rw [App.receive, List.foldlM_append]
    rw [App.receive] at hr
    rw [hr]
    simpa using hr'

lemma exists_of_sent (hsize : ∀ bytes ∈ buffers, Sendable bytes) {d : List Byte}
    (h : d ∈ (sendAll 0 buffers).flatten) :
    ∃ f bytes k, buffers[f]? = some bytes ∧ k < chunkCount bytes ∧ d = datagram f bytes k := by
  obtain ⟨ds, hds, hmem⟩ := List.mem_flatten.1 h
  obtain ⟨f, hf⟩ := List.mem_iff_getElem?.1 hds
  have hsent := getElem?_sendAll buffers 0 f
  rw [Nat.zero_add] at hsent
  rw [show (0 : BitVec 32) = BitVec.ofNat 32 0 from rfl, hsent, Option.map_eq_some_iff] at hf
  obtain ⟨bytes, hbytes, rfl⟩ := hf
  obtain ⟨k, hk, rfl⟩ := (mem_udpServerSendLarge (hsize bytes (List.mem_of_getElem? hbytes))).1 hmem
  exact ⟨f, bytes, k, hbytes, hk, rfl⟩

lemma numbers_lt (hcount : buffers.length ≤ 2 ^ 32) (hsize : ∀ bytes ∈ buffers, Sendable bytes)
    {msgs : List (List Byte)} (hmsgs : ∀ d ∈ msgs, d ∈ (sendAll 0 buffers).flatten)
    (hf : buffers[f]? = some bytes) (hk : k ∈ numbers f msgs) : k < chunkCount bytes := by
  obtain ⟨d, hd, hnumber⟩ := List.mem_filterMap.1 hk
  obtain ⟨f', bytes', k', hf', hk', rfl⟩ := exists_of_sent hsize (hmsgs d hd)
  rw [(unpackHeader_datagram (Nat.lt_of_lt_of_le (getElem?_lt hf') hcount)
    (hsize _ (List.mem_of_getElem? hf')) hk').1, Option.bind_some] at hnumber
  simp only [Option.ite_none_right_eq_some, Option.some.injEq] at hnumber
  obtain ⟨rfl, rfl⟩ := hnumber
  obtain rfl : bytes' = bytes := Option.some.inj (hf'.symm.trans hf)
  exact hk'

/-- **What the viewer keeps and shows.** Whatever part of the datagrams comes, in whatever order and
how often: of each frame the chunks that wait and the number of times it was shown are those of
collecting its chunks in rounds, the two dictionaries have an entry for it exactly while a round is
under way, and every time it was shown cost as many datagrams as it has. So a frame of which no
datagram comes twice stays in the dictionaries exactly when some but not all of them come. -/
theorem keeps_rounds (buffers : List (List Byte)) (hcount : buffers.length ≤ 2 ^ 32)
    (hsize : ∀ bytes ∈ buffers, Sendable bytes) (msgs : List (List Byte))
    (hmsgs : ∀ d ∈ msgs, d ∈ (sendAll 0 buffers).flatten) :
    ∃ r, receive Receiver.init msgs = some r ∧ ∀ f bytes, buffers[f]? = some bytes →
      let c := rounds (chunkCount bytes) (numbers f msgs)
      (∀ k, k ∈ (r.chunks f).keys ↔ k ∈ c.waiting) ∧ r.timesShown f = c.complete ∧
        (f ∈ r.frames ↔ c.waiting.Nonempty) ∧ (f ∈ r.expectedChunks ↔ c.waiting.Nonempty) ∧
        r.timesShown f * chunkCount bytes + (r.chunks f).keys.length ≤ (numbers f msgs).length ∧
        ((numbers f msgs).Nodup → (f ∈ r.frames ↔
          0 < (numbers f msgs).length ∧ (numbers f msgs).length < chunkCount bytes)) := by
  obtain ⟨r, hr, h⟩ := Stored.receive hcount hsize msgs fun d hd =>
    exists_of_sent hsize (hmsgs d hd)
  refine ⟨r, hr, fun f bytes hf => ?_⟩
  have hrounds : rounds (chunkCount bytes) (numbers f msgs) =
      { waiting := (r.chunks f).keys.toFinset, complete := r.timesShown f } := h.rounds f bytes hf
  have hentry : f ∈ r.frames ↔ (r.chunks f).keys.toFinset.Nonempty := by
    rw [h.kept.entry, List.toFinset_nonempty_iff]
  have hcard := complete_mul_le (n := chunkCount bytes) (numbers f msgs)
  rw [hrounds, List.toFinset_card_of_nodup (AList.keys_nodup _)] at hcard
  intro c
  rw [show c = _ from hrounds]
  refine ⟨fun k => List.mem_toFinset.symm, rfl, hentry, (h.kept.expected f).trans hentry, hcard,
    fun hnodup => ?_⟩
  have hle : (numbers f msgs).length ≤ chunkCount bytes :=
    length_le_of_nodup hnodup fun k hk => numbers_lt hcount hsize hmsgs hf hk
  have hpos := (hsize bytes (List.mem_of_getElem? hf)).chunkCount_pos
  have hiff := waiting_nonempty_iff hnodup hpos hle
  rw [hrounds] at hiff
  exact hentry.trans hiff

theorem keeps_rounds_lost : ∃ r,
    receive Receiver.init [datagram 0 (List.replicate 1393 0) 0] = some r ∧ 0 ∈ r.frames := by
  have hsend : Sendable (List.replicate 1393 0) := by
    rw [Sendable, List.length_replicate]
    decide
  have hcount : chunkCount (List.replicate 1393 0) = 2 := by
    rw [chunkCount, List.length_replicate]
    decide
  have hmem : datagram 0 (List.replicate 1393 0) 0 ∈
      (sendAll 0 [List.replicate 1393 0]).flatten := by
    rw [List.mem_flatten]
    exact ⟨_, List.mem_singleton_self _,
      (mem_udpServerSendLarge hsend).2 ⟨0, by rw [hcount]; decide, rfl⟩⟩
  obtain ⟨r, hr, hkeeps⟩ := keeps_rounds [List.replicate 1393 0] (by decide)
    (List.forall_mem_singleton.2 hsend) [datagram 0 (List.replicate 1393 0) 0]
    (List.forall_mem_singleton.2 hmem)
  obtain ⟨-, -, -, -, -, hlost⟩ := hkeeps 0 _ rfl
  have hnumbers : numbers 0 ([] ++ [datagram 0 (List.replicate 1393 0) 0]) = [0] :=
    numbers_concat 0 (by decide) hsend (by rw [hcount]; decide)
  rw [List.nil_append] at hnumbers
  rw [hnumbers, hcount] at hlost
  exact ⟨r, hr, (hlost (List.nodup_singleton 0)).2 (by decide)⟩

end Run

end PanTilt.App
