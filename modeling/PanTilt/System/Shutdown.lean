import PanTilt.App.Threads
import PanTilt.System.Session

/-!
The motors after the end of the program.

`state_end` writes the pair of the midpoints, and after the program nothing more comes to the FPGA.
Neither design has a watchdog, so that the pair that was written last stands for ever. `after_end`
is what the race of `main.c` between its two last writes means for the motors: they stand still for
ever, or a motor turns for ever.
-/

namespace PanTilt.System

open App App.Threads Fpga Lib.Clocked Lib.Quadrature Lib.Spi

/-! ### The pins of a word that stands -/

/-- No drive before clock `n`. -/
structure Still (g : ℕ → PwmGenerator) (n : ℕ) : Prop where
  dirA : (g n).dirA = false
  dirB : (g n).dirB = false
  pwmOut : (g n).pwmOut = false

/-- One direction before clock `n`, and a pulse in the period that follows. -/
structure Turning (g : ℕ → PwmGenerator) (n : ℕ) : Prop where
  direction : (g n).dirA ≠ (g n).dirB
  pulse : ∃ m, n ≤ m ∧ m < n + 2048 ∧ (g m).pwmOut = true

section Generator

variable {duty : ℕ → BitVec 16} {word : BitVec 16} {a n : ℕ}

lemma toNat_midWord : midWord.toNat = 2048 := by decide

theorem still_of_stands (hword : ∀ m, a ≤ m → duty m = midWord) (hn : a + 3 ≤ n) :
    Still (generator duty) n := by
  obtain ⟨hA, hB, hcard⟩ := commanded_of_stands hn fun m hm _ => hword m hm
  rw [toNat_midWord] at hA hB hcard
  refine ⟨?_, ?_, ?_⟩
  · rw [← Bool.not_eq_true, hA]
    decide
  · rw [← Bool.not_eq_true, hB]
    decide
  · have hnone := Finset.card_eq_zero.1 (hcard.trans (by decide))
    rw [Finset.filter_eq_empty_iff] at hnone
    exact Bool.not_eq_true _ ▸ hnone (Finset.mem_Ico.2 ⟨le_rfl, by omega⟩)

theorem turning_of_stands (hword : ∀ m, a ≤ m → duty m = word) (hne : word ≠ midWord)
    (hn : a + 3 ≤ n) : Turning (generator duty) n := by
  obtain ⟨hA, hB, hcard⟩ := commanded_of_stands hn fun m hm _ => hword m hm
  have hvalue : word.toNat ≠ 2048 := fun h =>
    hne (BitVec.eq_of_toNat_eq (h.trans toNat_midWord.symm))
  unfold PwmGenerator.magnitude at hcard
  unfold PwmGenerator.clamped at hA hB hcard
  refine ⟨fun heq => ?_, ?_⟩
  · rw [heq, hB] at hA
    omega
  · have hpos : 0 < ((Finset.Ico n (n + 2048)).filter fun m => (generator duty m).pwmOut).card := by
      omega
    obtain ⟨m, hm⟩ := Finset.card_pos.1 hpos
    obtain ⟨hmem, hpulse⟩ := Finset.mem_filter.1 hm
    obtain ⟨hlo, hhi⟩ := Finset.mem_Ico.1 hmem
    exact ⟨m, hlo, hhi, hpulse⟩

end Generator

/-! ### A design that the program has left -/

/-- The axes of a design that the program has left: the last transfer was of `pair`, whose words are
in effect from clock `a` on, and none comes any more. -/
inductive Left : Platform → BitVec 16 × BitVec 16 → (ℕ → Axes) → ℕ → Prop
  | lines {x : ℕ → Sample} {N : ℕ} {pair : BitVec 16 × BitVec 16} (pitchEnc yawEnc : ℕ → Level)
      (hlast : TopEntity.lastPair x N = pair.1 ++ pair.2)
      (hsilent : ∀ m, N ≤ m → (x m).cs = true) :
      Left .rpi pair (fun n => (TopEntity.run x pitchEnc yawEnc n).axes) (N + 3)
  | bus {cycle : ℕ → MemInterface.Cycle} {w : ℕ} {pair : BitVec 16 × BitVec 16} (m₀ : MemInterface)
      (pitchEnc yawEnc : ℕ → Level) (hlast : (cycle w).slaveWrite = true)
      (hdata : (cycle w).slaveWritedata = pwmRegister pair.1 pair.2)
      (hsilent : ∀ m, w < m → (cycle m).slaveWrite = false) :
      Left .de10 pair (fun n => (De10NanoSoc.run m₀ cycle pitchEnc yawEnc n).axes) (w + 1)

theorem Left.stands {pl : Platform} {pair : BitVec 16 × BitVec 16} {axes : ℕ → Axes} {a : ℕ}
    (h : Left pl pair axes a) :
    ∃ pitchPwm yawPwm : ℕ → BitVec 16, (∀ m, a ≤ m → pitchPwm m = pair.1) ∧
      (∀ m, a ≤ m → yawPwm m = pair.2) ∧
      (fun m => (axes m).pitchPwmGenerator) = generator pitchPwm ∧
      (fun m => (axes m).yawPwmGenerator) = generator yawPwm := by
  cases h with
  | @lines x N pair pitchEnc yawEnc hlast hsilent =>
    have hwords : ∀ m, N + 3 ≤ m → TopEntity.pitchPwm x pitchEnc yawEnc m = pair.1 ∧
        TopEntity.yawPwm x pitchEnc yawEnc m = pair.2 := by
      intro m hm
      have hwords := words_on_silent_lines pitchEnc yawEnc hsilent hm
      obtain ⟨hpitch, hyaw⟩ := SpiSlave.halves_append pair.1 pair.2
      rwa [hlast, hpitch, hyaw] at hwords
    exact ⟨_, _, fun m hm => (hwords m hm).1, fun m hm => (hwords m hm).2,
      generators_eq (TopEntity.axes_run x pitchEnc yawEnc)⟩
  | @bus cycle w pair m₀ pitchEnc yawEnc hlast hdata hsilent =>
    have hwords : ∀ m, w + 1 ≤ m → De10NanoSoc.pitchPwm m₀ cycle pitchEnc yawEnc m = pair.1 ∧
        De10NanoSoc.yawPwm m₀ cycle pitchEnc yawEnc m = pair.2 := by
      intro m hm
      have hvals := De10NanoSoc.pwmVals_run m₀ cycle pitchEnc yawEnc hm hlast fun k hk _ =>
        hsilent k hk
      rw [hdata, pwmRegister_eq] at hvals
      rw [De10NanoSoc.pitchPwm, De10NanoSoc.yawPwm, hvals]
      exact SpiSlave.halves_append _ _
    exact ⟨_, _, fun m hm => (hwords m hm).1, fun m hm => (hwords m hm).2,
      generators_eq (De10NanoSoc.axes_run m₀ cycle pitchEnc yawEnc)⟩

/-! ### The end of the program -/

/-- Neither motor gets a drive. -/
def BothStill (axes : ℕ → Axes) (n : ℕ) : Prop :=
  Still (fun m => (axes m).pitchPwmGenerator) n ∧ Still (fun m => (axes m).yawPwmGenerator) n

/-- A motor turns. -/
def OneTurning (axes : ℕ → Axes) (n : ℕ) : Prop :=
  Turning (fun m => (axes m).pitchPwmGenerator) n ∨ Turning (fun m => (axes m).yawPwmGenerator) n

section Left

variable {pl : Platform} {pair : BitVec 16 × BitVec 16} {axes : ℕ → Axes} {a n : ℕ}

lemma Left.bothStill (h : Left pl neutral axes a) (hn : a + 3 ≤ n) : BothStill axes n := by
  obtain ⟨pitchPwm, yawPwm, hpitch, hyaw, hpitchGen, hyawGen⟩ := h.stands
  unfold BothStill
  rw [hpitchGen, hyawGen]
  exact ⟨still_of_stands hpitch hn, still_of_stands hyaw hn⟩

lemma Left.oneTurning (h : Left pl pair axes a) (hne : pair ≠ neutral) (hn : a + 3 ≤ n) :
    OneTurning axes n := by
  obtain ⟨pitchPwm, yawPwm, hpitch, hyaw, hpitchGen, hyawGen⟩ := h.stands
  unfold OneTurning
  rw [hpitchGen, hyawGen]
  by_cases hmid : pair.1 = midWord
  · exact .inr (turning_of_stands hyaw (fun h' => hne (Prod.ext hmid h')) hn)
  · exact .inl (turning_of_stands hpitch hmid hn)

lemma exists_left (pl : Platform) (pair : BitVec 16 × BitVec 16) :
    ∃ axes a, Left pl pair axes a := by
  cases pl with
  | rpi =>
    exact ⟨_, _, .lines (fun _ => (false, false)) (fun _ => (false, false))
      (lastPair_pulses (pair.1 ++ pair.2) le_rfl) fun _ hm => cs_pulses (pair.1 ++ pair.2) hm⟩
  | de10 =>
    let cycle : ℕ → MemInterface.Cycle := fun n =>
      { slaveAddress := 0, slaveRead := false, slaveWrite := n == 0
        slaveWritedata := pwmRegister pair.1 pair.2, slaveByteenable := 0b1111 }
    have hsilent : ∀ m, 0 < m → (cycle m).slaveWrite = false := fun m hm => by
      simp [cycle, hm.ne']
    exact ⟨_, _, @Left.bus cycle 0 pair MemInterface.reset (fun _ => (false, false))
      (fun _ => (false, false)) rfl rfl hsilent⟩

end Left

/-- What the program leaves behind when it has returned in the state `t`: `P` at every clock from
the third on after the last pair has come into effect, in every design that the program has left
with it. -/
def Leaves (pl : Platform) (t : Threads) (P : (ℕ → Axes) → ℕ → Prop) : Prop :=
  ∃ pair, t.written.head? = some pair ∧
    ∀ axes a, Left pl pair axes a → ∀ n, a + 3 ≤ n → P axes n

lemma doOp_written {s t : Threads} {op : Op} (h : s.doOp op = some t) :
    s.written <:+ t.written := by
  cases op with
  | hw op =>
    obtain rfl := Option.some.inj h
    exact List.suffix_append _ _
  | lock =>
    simp only [doOp, Option.ite_none_right_eq_some, Option.some.injEq] at h
    obtain ⟨-, rfl⟩ := h
    exact List.suffix_rfl
  | printf | unlock | setActive | signal | releaseResetGpio =>
    obtain rfl := Option.some.inj h
    exact List.suffix_rfl

lemma mainStep_written {pl : Platform} {s t : Threads} {input : Option String}
    (h : s.mainStep pl input = some t) : s.written <:+ t.written := by
  unfold mainStep at h
  split at h
  · split at h
    · obtain rfl := Option.some.inj h
      exact List.suffix_rfl
    · obtain rfl := Option.some.inj h
      exact List.suffix_rfl
  · obtain ⟨s', hop, rfl⟩ := Option.map_eq_some_iff.1 h
    exact doOp_written (t := s') hop
  · obtain rfl := Option.some.inj h
    exact List.suffix_rfl
  · obtain rfl := Option.some.inj h
    exact List.suffix_rfl
  · simp only [Option.ite_none_right_eq_some, Option.some.injEq] at h
    obtain ⟨-, rfl⟩ := h
    exact List.suffix_rfl
  · cases h

lemma controlStep_written {s t : Threads} {yawOutput pitchOutput : ℚ}
    (h : s.controlStep yawOutput pitchOutput = some t) : s.written <:+ t.written := by
  unfold controlStep at h
  split at h
  case h_6 | h_10 =>
    -- the two transfers
    obtain rfl := Option.some.inj h
    exact List.suffix_cons _ _
  case h_9 =>
    split at h
    · obtain rfl := Option.some.inj h
      exact List.suffix_rfl
    · cases h
  case h_2 =>
    split at h <;> obtain rfl := Option.some.inj h <;> exact List.suffix_rfl
  case h_5 | h_7 | h_8 | h_11 =>
    obtain rfl := Option.some.inj h
    exact List.suffix_rfl
  case h_1 | h_3 | h_4 | h_12 =>
    simp only [Option.ite_none_right_eq_some, Option.ite_none_left_eq_some,
      Option.some.injEq] at h
    obtain ⟨-, rfl⟩ := h
    exact List.suffix_rfl
  case h_13 | h_14 => cases h

theorem step_written {pl : Platform} {s t : Threads} {c : Choice}
    (h : Threads.step pl s c = some t) : s.written <:+ t.written := by
  cases c with
  | main input => exact mainStep_written h
  | control yawOutput pitchOutput => exact controlStep_written h
  | cancelled => exact (cancelStep_moves h).2.2 ▸ List.suffix_rfl

lemma written_of_returned {pl : Platform} {s t : Threads} (hm : s.AtLastWrite)
    (h : Reaches pl s t) (hend : t.main = .returned) : t.written ≠ [] := by
  have hinv : t.AtLastWrite ∨ t.written ≠ [] := by
    apply h.invariant (.inl hm)
    intro s c t hs _ hstep
    have hsuffix := step_written hstep
    rcases hs with hm | hs
    · cases c with
      | main input =>
        rw [AtLastWrite] at hm
        simp only [Threads.step, mainStep, hm, doOp, Option.map_some, Option.some.injEq] at hstep
        subst hstep
        exact .inr (List.cons_ne_nil _ _)
      | control yawOutput pitchOutput => exact .inl ((controlStep_moves hstep).main.trans hm)
      | cancelled => exact .inl ((cancelStep_moves hstep).1.main.trans hm)
    · exact .inr fun hnil => hs (List.suffix_nil.1 (hnil ▸ hsuffix))
  refine hinv.resolve_left fun hlast => ?_
  rw [AtLastWrite, hend] at hlast
  cases hlast

/-- **The motors after the end of the program.** From every reachable state in which the main thread
is about to write the last pair of `state_end`: if the control thread is not armed, every
interleaving leaves both motors still for ever, and if it is armed, some interleaving leaves a motor
turning for ever. -/
theorem after_end {pl : Platform} {s : Threads} (hs : Reaches pl start s) (hm : s.AtLastWrite) :
    (¬ s.Armed → ∀ t, Reaches pl s t → t.main = .returned → Leaves pl t BothStill) ∧
      (s.Armed → ∃ t, Reaches pl s t ∧ t.main = .returned ∧ Leaves pl t OneTurning) := by
  have hinv := inv_of_reaches hs
  have hclear : s.startThreadActive = false := by
    have hflag := hinv.flag
    rw [hm, flagInv_running_end] at hflag
    exact hflag.2.resolve_left (by simp)
  constructor
  · intro ha t hreach hend
    have hsafe := safe_of_reaches ⟨hclear, (quiet_iff hinv).2 ha, .inl hm⟩ hreach
    rcases hsafe.last with ht | ht
    · exact absurd (hend.symm.trans ht) (by simp)
    · exact ⟨neutral, ht.2, fun _ _ hleft _ hn => hleft.bothStill hn⟩
  · intro ha
    obtain ⟨t, hreach, hend, hlast⟩ := exists_driven pl hm hclear ha
    obtain ⟨pair, hpair⟩ := Option.ne_none_iff_exists'.1 fun hnone =>
      written_of_returned hm hreach hend (List.head?_eq_none_iff.1 hnone)
    refine ⟨t, hreach, hend, pair, hpair, fun _ _ hleft _ hn => hleft.oneTurning ?_ hn⟩
    rintro rfl
    exact hlast hpair

/-- A run into the window of the race, and lines on which nothing comes after its last pair. -/
theorem after_end_racing : ∃ t pair axes a, Reaches .rpi (racing .rpi) t ∧ t.main = .returned ∧
    t.written.head? = some pair ∧ Left .rpi pair axes a ∧ ∀ n, a + 3 ≤ n → OneTurning axes n := by
  obtain ⟨t, hreach, hend, pair, hlast, hleaves⟩ :=
    (after_end (reaches_racing .rpi) rfl).2 (.inl rfl)
  obtain ⟨axes, a, hleft⟩ := exists_left .rpi pair
  exact ⟨t, pair, axes, a, hreach, hend, hlast, hleft, hleaves axes a hleft⟩

end PanTilt.System
