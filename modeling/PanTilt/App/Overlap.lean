import PanTilt.App.Threads

/-!
`main.c`, the transfers of the two threads beside each other.

Both threads call `read_write_encoder_pwm`, which has one pair of buffers and no lock.
`overlap_only_at_end` says which of their transfers can be under way together: the ones of
`init_fpga` and `homing_sequence` never are, and the last one of `state_end` can be.
-/

namespace PanTilt.App.Threads

/-! ### The steps of a line -/

lemma transition_ops (st : State) (line : String) :
    (transition st line).2 = [] ∨
      (transition st line = (.stateEnd, stopStartThread)) ∨
      transition st line = (st, [.printf "Invalid transition or command.\n"]) := by
  unfold transition
  split_ifs <;> simp

/-- **Only a line that leads to `STATE_START` sets the flag.** -/
lemma stateStart_of_setActive {pl : Platform} {st : State} {line : String}
    (h : Op.setActive true ∈ (processLine pl st line).2) :
    (processLine pl st line).1 = .stateStart := by
  have hdispatch : Op.setActive true ∈ dispatch pl (transition st line).1 := by
    rcases List.mem_append.1 h with h | h
    · rcases transition_ops st line with e | e | e
      · simp [e] at h
      · simp [e, stopStartThread] at h
      · simp [e] at h
    · exact h
  show (transition st line).1 = .stateStart
  revert hdispatch
  cases (transition st line).1 with
  | stateReady => simp [dispatch, stateReady]
  | stateInit => simp [dispatch, stateInit]
  | stateHome => simp [dispatch, stateHome]
  | stateStart => exact fun _ => rfl
  | stateEnd => simp [dispatch, stateEnd]

/-- **Once the control thread is started a line has at most one access**, the last one. -/
lemma access_of_started {pl : Platform} {st : State} {line : String} {op : HwOp}
    (h : Op.hw op ∈ (processLine pl st line).2)
    (hst : (processLine pl st line).1 = .stateStart ∨ (processLine pl st line).1 = .stateEnd) :
    (processLine pl st line).1 = .stateEnd ∧ op = .readWrite midWord midWord .current := by
  have hdispatch : Op.hw op ∈ dispatch pl (transition st line).1 := by
    rcases List.mem_append.1 h with h | h
    · rcases transition_ops st line with e | e | e
      · simp [e] at h
      · simp [e, stopStartThread] at h
      · simp [e] at h
    · exact h
  rcases hst with hst | hst
  · rw [show (transition st line).1 = .stateStart from hst] at hdispatch
    simp [dispatch, stateStart] at hdispatch
  · rw [show (transition st line).1 = .stateEnd from hst] at hdispatch
    refine ⟨hst, ?_⟩
    simpa [dispatch, stateEnd] using hdispatch

/-! ### The invariant -/

/-- The state of a main thread that has accepted `start`. -/
def Started : MainPc → Prop
  | .reading st => st = .stateStart
  | .running _ st => st = .stateStart ∨ st = .stateEnd
  | _ => True

/-- The main thread works off a line, and the flag is set by a line to `STATE_START` only. -/
structure Working (pl : Platform) (s : Threads) : Prop where
  line : ∀ ops st, s.main = .running ops st → ∃ st₀ line,
    ops <:+ (processLine pl st₀ line).2 ∧ (processLine pl st₀ line).1 = st
  started : s.startThreadActive = true → Started s.main

lemma working_start (pl : Platform) : Working pl start where
  line ops st h := by simp [start] at h
  started h := by simp [start] at h

lemma next_of_stateStart (pl : Platform) (line : String) :
    (processLine pl .stateStart line).1 = .stateStart ∨
      (processLine pl .stateStart line).1 = .stateEnd := by
  show (transition .stateStart line).1 = .stateStart ∨ (transition .stateStart line).1 = .stateEnd
  unfold transition
  simp only [reduceCtorEq, and_false, if_false, false_or, and_true]
  split_ifs <;> simp

lemma Working.main {pl : Platform} {s t : Threads} {input : Option String} (hs : Working pl s)
    (h : s.mainStep pl input = some t) : Working pl t := by
  unfold mainStep at h
  split at h
  · next st hm =>
    split at h
    · next line =>
      obtain rfl := Option.some.inj h
      refine ⟨fun ops st' e => ?_, fun ha => ?_⟩
      · obtain ⟨rfl, rfl⟩ := MainPc.running.inj e
        exact ⟨st, line, List.suffix_rfl, rfl⟩
      · have hst := hs.started ha
        rw [hm] at hst
        obtain rfl : st = .stateStart := hst
        exact next_of_stateStart pl line
    · obtain rfl := Option.some.inj h
      exact ⟨fun ops st' e => by simp at e, fun _ => trivial⟩
  · next op ops st hm =>
    obtain ⟨u, hu, rfl⟩ := Option.map_eq_some_iff.1 h
    obtain ⟨st₀, line, hsuffix, hst⟩ := hs.line _ _ hm
    refine ⟨fun ops' st' e => ?_, fun ha => ?_⟩
    · obtain ⟨rfl, rfl⟩ := MainPc.running.inj e
      exact ⟨st₀, line, (List.suffix_cons op ops).trans hsuffix, hst⟩
    · rcases (doOp_spec hu).2.2.2 with hop | hkeep
      · rw [show u.startThreadActive = true from ha] at hop
        have hmem : Op.setActive true ∈ (processLine pl st₀ line).2 :=
          hsuffix.subset (hop ▸ List.mem_cons_self)
        exact .inl (hst ▸ stateStart_of_setActive hmem)
      · have hmain := hs.started (hkeep ▸ ha)
        rwa [hm] at hmain
  · next st hm =>
    obtain rfl := Option.some.inj h
    refine ⟨fun ops st' e => ?_, fun ha => ?_⟩
    · split_ifs at e
    · have hmain := hs.started ha
      rw [hm] at hmain
      show Started (if st = .stateEnd then .cancel else .reading st)
      split_ifs with hend
      · trivial
      · exact hmain.resolve_right hend
  · obtain rfl := Option.some.inj h
    exact ⟨fun ops st' e => by simp at e, fun _ => trivial⟩
  · simp only [Option.ite_none_right_eq_some, Option.some.injEq] at h
    obtain ⟨-, rfl⟩ := h
    exact ⟨fun ops st' e => by simp at e, fun _ => trivial⟩
  · cases h

lemma Working.control {pl : Platform} {s t : Threads} (hs : Working pl s) (h : Moves s t) :
    Working pl t := by
  refine ⟨?_, ?_⟩
  · rw [h.main]
    exact hs.line
  · rw [h.main, h.active]
    exact hs.started

theorem working_of_reaches {pl : Platform} {s : Threads} (h : Reaches pl start s) :
    Working pl s := by
  apply h.invariant (working_start pl)
  intro s c t hs _ hstep
  cases c with
  | main input => exact hs.main hstep
  | control yawOutput pitchOutput => exact hs.control (controlStep_moves hstep)
  | cancelled => exact hs.control (cancelStep_moves hstep).1

/-! ### Overlap -/

/-- The control thread is about to transfer its pair. -/
def Transferring (s : Threads) : Prop := s.control = .firstWrite ∨ s.control = .write

/-- **When both threads can be in a transfer.** In every interleaving, while the control thread is
about to transfer its pair an access of the main thread is the last one of `state_end`. No reset, no
transfer of `init_fpga` and none of `homing_sequence` meets one of the control thread. -/
theorem overlap_only_at_end {pl : Platform} {s : Threads} (hs : Reaches pl start s)
    (hcontrol : s.Transferring) {op : HwOp} {ops : List Op} {st : State}
    (hmain : s.main = .running (.hw op :: ops) st) :
    st = .stateEnd ∧ op = .readWrite midWord midWord .current := by
  have hworking := working_of_reaches hs
  have hphase : phase s.control = .starting ∨ phase s.control = .looping := by
    rcases hcontrol with hc | hc <;> simp [hc, phase]
  have hst : st = .stateStart ∨ st = .stateEnd := by
    rcases (inv_of_reaches hs).inside hphase with hactive | hstop
    · have hstarted := hworking.started hactive
      rwa [hmain] at hstarted
    · rw [hmain] at hstop
      exact .inr hstop
  obtain ⟨st₀, line, hsuffix, rfl⟩ := hworking.line _ _ hmain
  exact access_of_started (hsuffix.subset List.mem_cons_self) hst

/-- The threads after `init`, `home`, `start` and `end`, when the control thread has seen the flag
and not yet made its first transfer. -/
def meeting (pl : Platform) : Threads where
  main := .running [.hw (.readWrite midWord midWord .current), .releaseResetGpio] .stateEnd
  control := .firstWrite
  pwm := neutral
  startThreadActive := false
  startThreadLock := none
  cancelRequested := false
  written := writtenBy homingSequence ++ writtenBy (initFpga pl)

theorem reaches_meeting (pl : Platform) : Reaches pl start (meeting pl) := by
  have hinit := reaches_action pl start .stateReady .stateInit "init" (initFpga pl) (by decide) rfl
  have hhome := reaches_action pl { start with written := writtenBy (initFpga pl) ++ [] }
    .stateInit .stateHome "home" homingSequence (by decide) rfl
  refine hinit.trans (hhome.trans ?_)
  rw [List.append_nil, meeting]
  generalize writtenBy homingSequence ++ writtenBy (initFpga pl) = written
  refine .cons (.main (some "start")) rfl ?_
  refine .cons (.main none) rfl <| .cons (.main none) rfl <| .cons (.main none) rfl <|
    .cons (.main none) rfl <| .cons (.main none) rfl <| .cons (.main none) rfl ?_
  refine .cons (.control 0 0) rfl <| .cons (.control 0 0) rfl <| .cons (.control 0 0) rfl ?_
  refine .cons (.main (some "end")) rfl ?_
  exact .cons (.main none) rfl <| .cons (.main none) rfl <| .cons (.main none) rfl <|
    .cons (.main none) rfl <| .cons (.main none) rfl .refl

theorem overlap_only_at_end_meeting :
    ∃ s : Threads, Reaches .rpi start s ∧ s.Transferring ∧ ∃ op ops st,
      s.main = .running (.hw op :: ops) st ∧ st = .stateEnd ∧
        op = .readWrite midWord midWord .current :=
  ⟨meeting .rpi, reaches_meeting .rpi, .inl rfl, _, _, _, rfl,
    overlap_only_at_end (reaches_meeting .rpi) (.inl rfl) rfl⟩

end PanTilt.App.Threads
