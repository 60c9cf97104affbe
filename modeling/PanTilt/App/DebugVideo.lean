import Mathlib.Data.List.AList
import PanTilt.Lib.Chunks

/-!
The debug video: `udp_server_send_large` cuts a buffer into datagrams with a header of eight bytes,
and `assemble_frame` of `debug_video_master.py` puts the frames together again.

The network may lose, repeat and reorder the datagrams: a delivery is any list of sent ones.
`frames_whole` says that every frame shown is a whole buffer, and that a buffer whose datagrams all
come once is shown once.
-/

namespace PanTilt.App

open Lib.Chunks

/-! ### The sender -/

def CHUNK_DATA_SIZE : ℕ := 1392

/-- The datagram of one turn of the loop, on a little-endian host. -/
def packet (frameId : BitVec 32) (totalChunks : BitVec 16) (bytes : List Byte)
    (chunkId : BitVec 16) : List Byte :=
  let offset := chunkId.toNat * CHUNK_DATA_SIZE
  let chunkSize :=
    if offset + CHUNK_DATA_SIZE > bytes.length then bytes.length - offset else CHUNK_DATA_SIZE
  toLe 4 frameId.toNat ++ toLe 2 chunkId.toNat ++ toLe 2 totalChunks.toNat ++
    (bytes.drop offset).take chunkSize

/-- `total_chunks`. -/
def totalChunks (bytes : List Byte) : BitVec 16 :=
  BitVec.ofNat 16 ((bytes.length + CHUNK_DATA_SIZE - 1) / CHUNK_DATA_SIZE)

/-- `udp_server_send_large`: the next `frame_id`, and the datagrams it sends. -/
def udpServerSendLarge (frameId : BitVec 32) (bytes : List Byte) :
    BitVec 32 × List (List Byte) :=
  (frameId + 1, (List.range (totalChunks bytes).toNat).map fun i =>
    packet frameId (totalChunks bytes) bytes (BitVec.ofNat 16 i))

/-- The datagrams of calls with some buffers, one list for each. -/
def sendAll : BitVec 32 → List (List Byte) → List (List (List Byte))
  | _, [] => []
  | frameId, bytes :: rest =>
    (udpServerSendLarge frameId bytes).2 :: sendAll (udpServerSendLarge frameId bytes).1 rest

/-! ### The receiver -/

/-- The dictionaries `frames` and `expected_chunks`, and what was handed to `show_frame`, each with
its frame id. -/
structure Receiver where
  frames : AList (fun _ : ℕ => AList (fun _ : ℕ => List Byte))
  expectedChunks : AList (fun _ : ℕ => ℕ)
  shown : List (ℕ × List Byte)

def Receiver.init : Receiver where
  frames := ∅
  expectedChunks := ∅
  shown := []

/-- `struct.unpack('<IHH', msg[:8])`, which raises if there are fewer bytes. -/
def unpackHeader (msg : List Byte) : Option (ℕ × ℕ × ℕ) :=
  if (msg.take 8).length = 8 then
    some (ofLe (msg.take 4), ofLe ((msg.drop 4).take 2), ofLe ((msg.drop 6).take 2))
  else none

/-- `assemble_frame`; `none` is an exception. -/
def assembleFrame (r : Receiver) (msg : List Byte) : Option Receiver := do
  let (frameId, chunkId, totalChunks) ← unpackHeader msg
  let payload := msg.drop 8
  let chunks := ((r.frames.lookup frameId).getD ∅).insert chunkId payload
  let frames := r.frames.insert frameId chunks
  let expectedChunks := r.expectedChunks.insert frameId totalChunks
  if chunks.keys.length = totalChunks then
    let parts ← (List.range totalChunks).mapM fun i => chunks.lookup i
    some
      { frames := frames.erase frameId
        expectedChunks := expectedChunks.erase frameId
        shown := r.shown ++ [(frameId, parts.flatten)] }
  else some { r with frames := frames, expectedChunks := expectedChunks }

/-- The datagrams of a delivery, in their order. -/
def receive (r : Receiver) (msgs : List (List Byte)) : Option Receiver :=
  msgs.foldlM assembleFrame r

/-! ### Datagrams -/

/-- The number of chunks, before it is cut to 16 bits. -/
def chunkCount (bytes : List Byte) : ℕ :=
  (bytes.length + CHUNK_DATA_SIZE - 1) / CHUNK_DATA_SIZE

/-- The datagram of chunk `k` of buffer `f`. -/
def datagram (f : ℕ) (bytes : List Byte) (k : ℕ) : List Byte :=
  packet (BitVec.ofNat 32 f) (totalChunks bytes) bytes (BitVec.ofNat 16 k)

/-- The sizes of the buffers. -/
def Sendable (bytes : List Byte) : Prop :=
  1 ≤ bytes.length ∧ bytes.length ≤ 65535 * CHUNK_DATA_SIZE

variable {f f' k k' : ℕ} {bytes bytes' : List Byte}

lemma Sendable.chunkCount_pos (h : Sendable bytes) : 0 < chunkCount bytes := by
  obtain ⟨h₁, _⟩ := h
  unfold chunkCount CHUNK_DATA_SIZE
  omega

lemma Sendable.chunkCount_lt (h : Sendable bytes) : chunkCount bytes < 2 ^ 16 := by
  obtain ⟨_, h₂⟩ := h
  unfold chunkCount CHUNK_DATA_SIZE at *
  omega

lemma Sendable.toNat_totalChunks (h : Sendable bytes) :
    (totalChunks bytes).toNat = chunkCount bytes := by
  rw [totalChunks, BitVec.toNat_ofNat]
  exact Nat.mod_eq_of_lt h.chunkCount_lt

lemma getElem?_sendAll (buffers : List (List Byte)) (start : ℕ) (f : ℕ) :
    (sendAll (BitVec.ofNat 32 start) buffers)[f]? = buffers[f]?.map fun bytes =>
      (udpServerSendLarge (BitVec.ofNat 32 (start + f)) bytes).2 := by
  induction buffers generalizing start f with
  | nil => simp [sendAll]
  | cons bytes buffers ih =>
    cases f with
    | zero => rfl
    | succ f =>
      have hnext : (udpServerSendLarge (BitVec.ofNat 32 start) bytes).1 =
          BitVec.ofNat 32 (start + 1) := (BitVec.ofNat_add ..).symm
      rw [sendAll, List.getElem?_cons_succ, hnext, ih, List.getElem?_cons_succ,
        Nat.add_assoc, Nat.add_comm 1]

lemma mem_udpServerSendLarge (h : Sendable bytes) {d : List Byte} :
    d ∈ (udpServerSendLarge (BitVec.ofNat 32 f) bytes).2 ↔
      ∃ k < chunkCount bytes, d = datagram f bytes k := by
  rw [udpServerSendLarge, h.toNat_totalChunks, List.mem_map]
  refine ⟨?_, ?_⟩
  · rintro ⟨k, hk, rfl⟩
    exact ⟨k, List.mem_range.mp hk, rfl⟩
  · rintro ⟨k, hk, rfl⟩
    exact ⟨k, List.mem_range.mpr hk, rfl⟩

lemma take_chunkSize (bytes : List Byte) (offset : ℕ) :
    (bytes.drop offset).take (if offset + CHUNK_DATA_SIZE > bytes.length then
      bytes.length - offset else CHUNK_DATA_SIZE) = (bytes.drop offset).take CHUNK_DATA_SIZE := by
  split
  · rw [List.take_of_length_le (by simp), List.take_of_length_le]
    rw [List.length_drop]
    omega
  · rfl

lemma datagram_eq (hf : f < 2 ^ 32) (h : Sendable bytes) (hk : k < chunkCount bytes) :
    datagram f bytes k = toLe 4 f ++ (toLe 2 k ++ (toLe 2 (chunkCount bytes) ++
      chunk CHUNK_DATA_SIZE bytes k)) := by
  have hlt := h.chunkCount_lt
  have hk' : (BitVec.ofNat 16 k).toNat = k := by
    rw [BitVec.toNat_ofNat]
    exact Nat.mod_eq_of_lt (by omega)
  have hf' : (BitVec.ofNat 32 f).toNat = f := by
    rw [BitVec.toNat_ofNat]
    exact Nat.mod_eq_of_lt hf
  simp only [datagram, packet, hk', hf', h.toNat_totalChunks, take_chunkSize, List.append_assoc]
  rfl

theorem unpackHeader_datagram (hf : f < 2 ^ 32) (h : Sendable bytes)
    (hk : k < chunkCount bytes) :
    unpackHeader (datagram f bytes k) = some (f, k, chunkCount bytes) ∧
      (datagram f bytes k).drop 8 = chunk CHUNK_DATA_SIZE bytes k := by
  have hlt := h.chunkCount_lt
  have h₁ := ofLe_toLe_of_lt (n := 4) (x := f) hf
  have h₂ := ofLe_toLe_of_lt (n := 2) (x := k) (by omega)
  have h₃ := ofLe_toLe_of_lt (n := 2) (x := chunkCount bytes) hlt
  have hlen : 8 ≤ (datagram f bytes k).length := by
    rw [datagram_eq hf h hk]
    simp only [List.length_append, length_toLe]
    omega
  have hdrop₄ : (datagram f bytes k).drop 4 =
      toLe 2 k ++ (toLe 2 (chunkCount bytes) ++ chunk CHUNK_DATA_SIZE bytes k) := by
    rw [datagram_eq hf h hk]
    exact List.drop_left' (length_toLe 4 f)
  have hdrop₆ : (datagram f bytes k).drop 6 =
      toLe 2 (chunkCount bytes) ++ chunk CHUNK_DATA_SIZE bytes k := by
    rw [show (6 : ℕ) = 4 + 2 from rfl, ← List.drop_drop, hdrop₄]
    exact List.drop_left' (length_toLe 2 k)
  have htake : (datagram f bytes k).take 4 = toLe 4 f := by
    rw [datagram_eq hf h hk]
    exact List.take_left' (length_toLe 4 f)
  refine ⟨?_, ?_⟩
  · rw [unpackHeader, if_pos (by rw [List.length_take]; omega), htake, hdrop₄, hdrop₆,
      List.take_left' (length_toLe 2 k), List.take_left' (length_toLe 2 (chunkCount bytes)),
      h₁, h₂, h₃]
  · rw [show (8 : ℕ) = 6 + 2 from rfl, ← List.drop_drop, hdrop₆]
    exact List.drop_left' (length_toLe 2 (chunkCount bytes))

lemma datagram_inj (hf : f < 2 ^ 32) (hf' : f' < 2 ^ 32) (h : Sendable bytes)
    (h' : Sendable bytes') (hk : k < chunkCount bytes) (hk' : k' < chunkCount bytes')
    (heq : datagram f bytes k = datagram f' bytes' k') : f = f' ∧ k = k' := by
  have h₁ := (unpackHeader_datagram hf h hk).1
  rw [heq, (unpackHeader_datagram hf' h' hk').1] at h₁
  simp only [Option.some.injEq, Prod.mk.injEq] at h₁
  exact ⟨h₁.1.symm, h₁.2.1.symm⟩

/-! ### One datagram -/

/-- The chunks of a frame that have come. -/
def Receiver.chunks (r : Receiver) (f : ℕ) : AList (fun _ : ℕ => List Byte) :=
  (r.frames.lookup f).getD ∅

/-- Some chunks of a buffer, under their numbers. -/
structure Collected (bytes : List Byte) (chunks : AList (fun _ : ℕ => List Byte)) : Prop where
  lt : ∀ k ∈ chunks.keys, k < chunkCount bytes
  eq : ∀ k part, chunks.lookup k = some part → part = chunk CHUNK_DATA_SIZE bytes k

variable {chunks : AList (fun _ : ℕ => List Byte)}

lemma collected_empty (bytes : List Byte) : Collected bytes ∅ where
  lt k hk := absurd hk (by simp)
  eq k part h := absurd h (by simp)

lemma Collected.insert (h : Collected bytes chunks) (hk : k < chunkCount bytes) :
    Collected bytes (chunks.insert k (chunk CHUNK_DATA_SIZE bytes k)) := by
  refine ⟨?_, ?_⟩
  · intro i hi
    rcases (AList.mem_insert chunks).mp (AList.mem_keys.mpr hi) with rfl | hi
    · exact hk
    · exact h.lt i (AList.mem_keys.mp hi)
  · intro i part hpart
    by_cases e : i = k
    · subst e
      rw [AList.lookup_insert] at hpart
      exact (Option.some.inj hpart).symm
    · rw [AList.lookup_insert_ne e] at hpart
      exact h.eq i part hpart

lemma Collected.length_le (h : Collected bytes chunks) :
    chunks.keys.length ≤ chunkCount bytes := length_le_of_nodup chunks.keys_nodup h.lt

lemma mapM_eq_some {α β : Type*} {f : α → Option β} {g : α → β} {l : List α}
    (h : ∀ a ∈ l, f a = some (g a)) : l.mapM f = some (l.map g) := by
  induction l with
  | nil => rfl
  | cons a l ih =>
    rw [List.mapM_cons, h a List.mem_cons_self, ih fun b hb => h b (List.mem_cons_of_mem a hb)]
    rfl

theorem Collected.parts (h : Collected bytes chunks)
    (hlen : chunks.keys.length = chunkCount bytes) :
    ∃ parts, ((List.range (chunkCount bytes)).mapM fun i => chunks.lookup i) = some parts ∧
      parts.flatten = bytes := by
  refine ⟨(List.range (chunkCount bytes)).map (chunk CHUNK_DATA_SIZE bytes), ?_,
    flatten_all_chunks (by decide) bytes⟩
  refine mapM_eq_some ?_
  intro i hi
  have hmem : i ∈ chunks.keys :=
    mem_of_nodup_of_length chunks.keys_nodup h.lt hlen (List.mem_range.mp hi)
  obtain ⟨part, hpart⟩ := Option.isSome_iff_exists.mp
    (AList.lookup_isSome.mpr (AList.mem_keys.mpr hmem))
  rw [hpart, h.eq i part hpart]

/-- The frame with one more chunk waits for others, or it is complete and shown. -/
def Received (r r' : Receiver) (f : ℕ) (bytes : List Byte) (k : ℕ) : Prop :=
  let chunks := (r.chunks f).insert k (chunk CHUNK_DATA_SIZE bytes k)
  (chunks.keys.length < chunkCount bytes ∧ r'.chunks f = chunks ∧ r'.shown = r.shown) ∨
    (chunks.keys.length = chunkCount bytes ∧ r'.chunks f = ∅ ∧
      r'.shown = r.shown ++ [(f, bytes)])

theorem assembleFrame_datagram {r : Receiver} (hf : f < 2 ^ 32) (h : Sendable bytes)
    (hk : k < chunkCount bytes) (hc : Collected bytes (r.chunks f)) :
    ∃ r', assembleFrame r (datagram f bytes k) = some r' ∧
      (∀ f', f' ≠ f → r'.chunks f' = r.chunks f') ∧ Received r r' f bytes k := by
  obtain ⟨hheader, hpayload⟩ := unpackHeader_datagram hf h hk
  have hc' := hc.insert hk
  have hle := hc'.length_le
  unfold assembleFrame
  rw [hheader, hpayload]
  simp only [Option.bind_eq_bind, Option.bind_some]
  rw [show (r.frames.lookup f).getD ∅ = r.chunks f from rfl]
  unfold Received
  generalize (r.chunks f).insert k (chunk CHUNK_DATA_SIZE bytes k) = c at hc' hle ⊢
  by_cases hlen : c.keys.length = chunkCount bytes
  · obtain ⟨parts, hparts, hflat⟩ := hc'.parts hlen
    rw [if_pos hlen, hparts]
    refine ⟨_, rfl, ?_, .inr ⟨hlen, ?_, ?_⟩⟩
    · intro f' hne
      rw [Receiver.chunks, AList.lookup_erase_ne hne, AList.lookup_insert_ne hne]
      rfl
    · rw [Receiver.chunks, AList.lookup_erase]
      rfl
    · rw [hflat]
  · rw [if_neg hlen]
    refine ⟨_, rfl, ?_, .inl ⟨by omega, ?_, rfl⟩⟩
    · intro f' hne
      rw [Receiver.chunks, AList.lookup_insert_ne hne]
      rfl
    · rw [Receiver.chunks, AList.lookup_insert]
      rfl

/-! ### Deliveries -/

/-- How often a frame was shown. -/
def Receiver.timesShown (r : Receiver) (f : ℕ) : ℕ := (r.shown.map Prod.fst).count f

/-- The datagrams of a frame that came so far are the chunks that wait, or they are all and the
frame was shown. -/
def OnceShown (past : List (List Byte)) (r : Receiver) (f : ℕ) (bytes : List Byte) : Prop :=
  (r.timesShown f = 0 ∧ ∀ k < chunkCount bytes,
      k ∈ (r.chunks f).keys ↔ datagram f bytes k ∈ past) ∨
    (r.timesShown f = 1 ∧ ∀ k < chunkCount bytes, datagram f bytes k ∈ past)

/-- What holds after some datagrams. -/
structure Assembled (buffers past : List (List Byte)) (r : Receiver) : Prop where
  /-- The chunks of a frame are some of those of a buffer, and not all. -/
  collected : ∀ f bytes, buffers[f]? = some bytes → Collected bytes (r.chunks f) ∧
    (r.chunks f).keys.length < chunkCount bytes
  shown : ∀ frame ∈ r.shown, buffers[frame.1]? = some frame.2
  /-- A frame whose datagrams did not come twice. -/
  once : ∀ f bytes, buffers[f]? = some bytes →
    (∀ k < chunkCount bytes, past.count (datagram f bytes k) ≤ 1) → OnceShown past r f bytes

section Run

variable {buffers past : List (List Byte)} {r : Receiver}

lemma assembled_init (hsize : ∀ bytes ∈ buffers, Sendable bytes) :
    Assembled buffers [] Receiver.init where
  collected f bytes h :=
    ⟨collected_empty bytes, (hsize bytes (List.mem_of_getElem? h)).chunkCount_pos⟩
  shown frame h := absurd h List.not_mem_nil
  once f bytes h _ := .inl ⟨rfl, fun k _ => iff_of_false (by simp [Receiver.chunks, Receiver.init])
    List.not_mem_nil⟩

lemma getElem?_lt {α : Type*} {l : List α} {i : ℕ} {a : α} (h : l[i]? = some a) :
    i < l.length := (List.getElem?_eq_some_iff.mp h).1

lemma OnceShown.other {r' : Receiver} (h : OnceShown past r f' bytes')
    (hchunks : r'.chunks f' = r.chunks f') (htimes : r'.timesShown f' = r.timesShown f')
    {d : List Byte} (hd : ∀ k < chunkCount bytes', datagram f' bytes' k ≠ d) :
    OnceShown (past ++ [d]) r' f' bytes' := by
  have hmem : ∀ k < chunkCount bytes',
      (datagram f' bytes' k ∈ past ++ [d] ↔ datagram f' bytes' k ∈ past) := by
    intro k hk
    rw [List.mem_append, List.mem_singleton, or_iff_left (hd k hk)]
  refine h.imp ?_ ?_
  · rintro ⟨hzero, hiff⟩
    refine ⟨htimes.trans hzero, ?_⟩
    intro k hk
    rw [hchunks, hiff k hk, hmem k hk]
  · rintro ⟨hone, hall⟩
    refine ⟨htimes.trans hone, ?_⟩
    intro k hk
    exact (hmem k hk).mpr (hall k hk)

lemma OnceShown.self {r' : Receiver} (h : OnceShown past r f bytes) (hf : f < 2 ^ 32)
    (hsend : Sendable bytes) (hk : k < chunkCount bytes) (hcoll : Collected bytes (r.chunks f))
    (hrec : Received r r' f bytes k) (hnew : datagram f bytes k ∉ past) :
    OnceShown (past ++ [datagram f bytes k]) r' f bytes := by
  have hkeys : ∀ k', k' ∈ ((r.chunks f).insert k (chunk CHUNK_DATA_SIZE bytes k)).keys ↔
      k' = k ∨ k' ∈ (r.chunks f).keys := by
    intro k'
    rw [← AList.mem_keys, ← AList.mem_keys, AList.mem_insert]
  have hmem : ∀ k' < chunkCount bytes, (datagram f bytes k' ∈ past ++ [datagram f bytes k] ↔
      k' = k ∨ datagram f bytes k' ∈ past) := by
    intro k' hk'
    rw [List.mem_append, List.mem_singleton, or_comm]
    refine or_congr_left ⟨?_, fun e => by rw [e]⟩
    intro e
    exact (datagram_inj hf hf hsend hsend hk' hk e).2
  rcases h with ⟨hzero, hiff⟩ | ⟨_, hall⟩
  · rcases hrec with ⟨_, hchunks, hshown⟩ | ⟨hlen, _, hshown⟩
    · refine .inl ⟨?_, ?_⟩
      · rw [Receiver.timesShown, hshown]
        exact hzero
      · intro k' hk'
        rw [hchunks, hkeys k', hmem k' hk', hiff k' hk']
    · refine .inr ⟨?_, ?_⟩
      · rw [Receiver.timesShown] at hzero ⊢
        rw [hshown, List.map_append, List.count_append, hzero]
        simp
      · intro k' hk'
        have hk'' := mem_of_nodup_of_length (AList.keys_nodup _) (hcoll.insert hk).lt hlen hk'
        rw [hmem k' hk', ← hiff k' hk', ← hkeys k']
        exact hk''
  · exact absurd (hall k hk) hnew

lemma Received.timesShown_of_ne {r' : Receiver} (h : Received r r' f bytes k) (hne : f' ≠ f) :
    r'.timesShown f' = r.timesShown f' := by
  rcases h with ⟨_, _, hshown⟩ | ⟨_, _, hshown⟩
  · rw [Receiver.timesShown, hshown, Receiver.timesShown]
  · rw [Receiver.timesShown, hshown, Receiver.timesShown, List.map_append, List.count_append]
    simp [hne.symm]

theorem Assembled.step (h : Assembled buffers past r) (hcount : buffers.length ≤ 2 ^ 32)
    (hsize : ∀ bytes ∈ buffers, Sendable bytes) (hf : buffers[f]? = some bytes)
    (hk : k < chunkCount bytes) :
    ∃ r', assembleFrame r (datagram f bytes k) = some r' ∧
      Assembled buffers (past ++ [datagram f bytes k]) r' := by
  have hlt : ∀ {f' bytes'}, buffers[f']? = some bytes' → f' < 2 ^ 32 ∧ Sendable bytes' := by
    intro f' bytes' h'
    exact ⟨Nat.lt_of_lt_of_le (getElem?_lt h') hcount, hsize _ (List.mem_of_getElem? h')⟩
  obtain ⟨hcoll, _⟩ := h.collected f bytes hf
  obtain ⟨r', hr', hother, hrec⟩ := assembleFrame_datagram (hlt hf).1 (hlt hf).2 hk hcoll
  refine ⟨r', hr', ?_, ?_, ?_⟩
  · intro f' bytes' hf'
    by_cases hne : f' = f
    · subst hne
      obtain rfl : bytes = bytes' := Option.some.inj (hf.symm.trans hf')
      rcases hrec with ⟨hlen, hchunks, _⟩ | ⟨_, hchunks, _⟩
      · rw [hchunks]
        exact ⟨hcoll.insert hk, hlen⟩
      · rw [hchunks]
        exact ⟨collected_empty bytes, (hlt hf).2.chunkCount_pos⟩
    · rw [hother f' hne]
      exact h.collected f' bytes' hf'
  · intro frame hframe
    rcases hrec with ⟨_, _, hshown⟩ | ⟨_, _, hshown⟩
    · exact h.shown frame (hshown ▸ hframe)
    · rw [hshown] at hframe
      rcases List.mem_append.mp hframe with hframe | hframe
      · exact h.shown frame hframe
      · rw [List.mem_singleton.mp hframe]
        exact hf
  · intro f' bytes' hf' hone
    have hpast : ∀ k' < chunkCount bytes', past.count (datagram f' bytes' k') ≤ 1 := by
      intro k' hk'
      have := hone k' hk'
      rw [List.count_append] at this
      omega
    have hbefore := h.once f' bytes' hf' hpast
    by_cases hne : f' = f
    · subst hne
      obtain rfl : bytes = bytes' := Option.some.inj (hf.symm.trans hf')
      refine hbefore.self (hlt hf).1 (hlt hf).2 hk hcoll hrec ?_
      intro hmem
      have hpos := List.count_pos_iff.mpr hmem
      have hle := hone k hk
      rw [List.count_append, List.count_singleton_self] at hle
      omega
    · refine hbefore.other (hother f' hne) (hrec.timesShown_of_ne hne) ?_
      intro k' hk' e
      exact hne (datagram_inj (hlt hf').1 (hlt hf).1 (hlt hf').2 (hlt hf).2 hk' hk e).1

lemma Assembled.receive (hcount : buffers.length ≤ 2 ^ 32)
    (hsize : ∀ bytes ∈ buffers, Sendable bytes) :
    ∀ (msgs : List (List Byte)) {past : List (List Byte)} {r : Receiver},
      Assembled buffers past r →
      (∀ d ∈ msgs, ∃ f bytes k, buffers[f]? = some bytes ∧ k < chunkCount bytes ∧
        d = datagram f bytes k) →
      ∃ r', receive r msgs = some r' ∧ Assembled buffers (past ++ msgs) r'
  | [], past, r, h, _ => ⟨r, rfl, by rwa [List.append_nil]⟩
  | d :: msgs, past, r, h, hmsgs => by
    obtain ⟨f, bytes, k, hf, hk, rfl⟩ := hmsgs d List.mem_cons_self
    obtain ⟨r₁, hr₁, h₁⟩ := h.step hcount hsize hf hk
    obtain ⟨r', hr', h'⟩ := Assembled.receive hcount hsize msgs h₁
      (fun d hd => hmsgs d (List.mem_cons_of_mem _ hd))
    refine ⟨r', ?_, ?_⟩
    · rw [App.receive, List.foldlM_cons, hr₁]
      exact hr'
    · rwa [List.append_assoc] at h'

/-- **Only whole transmitted frames are shown.** Whatever part of the datagrams comes, in whatever
order and how often, no exception is raised and every frame shown is a buffer; a buffer whose
datagrams all come once is shown once. -/
theorem frames_whole (buffers : List (List Byte)) (hcount : buffers.length ≤ 2 ^ 32)
    (hsize : ∀ bytes ∈ buffers, Sendable bytes) (msgs : List (List Byte))
    (hmsgs : ∀ d ∈ msgs, d ∈ (sendAll 0 buffers).flatten) :
    ∃ r, receive Receiver.init msgs = some r ∧
      (∀ frame ∈ r.shown, frame.2 ∈ buffers ∧ buffers[frame.1]? = some frame.2) ∧
      ∀ f datagrams, (sendAll 0 buffers)[f]? = some datagrams →
        (∀ d ∈ datagrams, msgs.count d = 1) → r.timesShown f = 1 := by
  have hsent : ∀ f, (sendAll 0 buffers)[f]? = buffers[f]?.map fun bytes =>
      (udpServerSendLarge (BitVec.ofNat 32 f) bytes).2 := by
    intro f
    have := getElem?_sendAll buffers 0 f
    rwa [Nat.zero_add] at this
  have hknown : ∀ d ∈ msgs, ∃ f bytes k, buffers[f]? = some bytes ∧ k < chunkCount bytes ∧
      d = datagram f bytes k := by
    intro d hd
    obtain ⟨ds, hds, hdmem⟩ := List.mem_flatten.mp (hmsgs d hd)
    obtain ⟨f, hf⟩ := List.mem_iff_getElem?.mp hds
    rw [hsent, Option.map_eq_some_iff] at hf
    obtain ⟨bytes, hbytes, rfl⟩ := hf
    obtain ⟨k, hk, rfl⟩ :=
      (mem_udpServerSendLarge (hsize bytes (List.mem_of_getElem? hbytes))).mp hdmem
    exact ⟨f, bytes, k, hbytes, hk, rfl⟩
  obtain ⟨r, hr, h⟩ := Assembled.receive hcount hsize msgs (assembled_init hsize) hknown
  refine ⟨r, hr, ?_, ?_⟩
  · intro frame hframe
    exact ⟨List.mem_of_getElem? (h.shown frame hframe), h.shown frame hframe⟩
  · intro f datagrams hf hall
    rw [hsent, Option.map_eq_some_iff] at hf
    obtain ⟨bytes, hbytes, rfl⟩ := hf
    have hone : ∀ k < chunkCount bytes, msgs.count (datagram f bytes k) = 1 := by
      intro k hk
      refine hall _ ?_
      exact (mem_udpServerSendLarge (hsize bytes (List.mem_of_getElem? hbytes))).mpr ⟨k, hk, rfl⟩
    rcases h.once f bytes hbytes (fun k hk => Nat.le_of_eq (hone k hk)) with ⟨_, hiff⟩ | ⟨hshown, _⟩
    · have hkeys : ∀ k < chunkCount bytes, k ∈ (r.chunks f).keys := by
        intro k hk
        refine (hiff k hk).mpr (List.count_pos_iff.mp ?_)
        rw [List.nil_append, hone k hk]
        exact Nat.one_pos
      have hlen := le_length_of_forall_mem hkeys
      have hinc := (h.collected f bytes hbytes).2
      omega
    · exact hshown

/-- A buffer of two chunks. -/
def twoChunks : List Byte := List.replicate 1392 1 ++ [2]

lemma sendable_twoChunks : Sendable twoChunks := by
  rw [Sendable, twoChunks, List.length_append, List.length_replicate, List.length_singleton]
  decide

theorem frames_whole_reversed : ∃ r,
    receive Receiver.init (sendAll 0 [twoChunks]).flatten.reverse = some r ∧
      r.timesShown 0 = 1 ∧ ∀ frame ∈ r.shown, frame.2 = twoChunks := by
  obtain ⟨r, hr, hshown, hone⟩ := frames_whole [twoChunks] (by decide)
    (List.forall_mem_singleton.2 sendable_twoChunks) _ fun d hd => List.mem_reverse.1 hd
  refine ⟨r, hr, hone 0 _ rfl ?_, fun frame hframe =>
    List.mem_singleton.1 (hshown frame hframe).1⟩
  decide +kernel

end Run

end PanTilt.App
