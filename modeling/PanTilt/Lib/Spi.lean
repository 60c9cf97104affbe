import Mathlib.Tactic.Common
import Mathlib.Data.List.Induction
import Mathlib.Data.Nat.Basic
import PanTilt.Lib.Clocked
import PanTilt.Lib.Words

/-!
A serial slave with words of `w` bits, on sampled lines.

The master drives a select line `cs` (active low), a clock `clk` and a data line `pico`; the slave
samples the three at every edge of its own clock. Inside a window of low `cs` it shifts a bit in at
every sampled rise of `clk`, hands a word over when `w` bits have come, and shifts the word it sends
at every sampled fall. The machine here has no synchroniser: it is the core to put behind one.

* `windows` cuts a list of samples at the samples with high `cs` and keeps the bits of each part;
  `frames` are the complete groups of `w` bits, each window cut from its own start.
* `word_trace`: one edge after the samples, the word handed over is the last complete group.
* `consumed_trace`: what consumes the words has consumed those of all complete groups.
* `within_trace` and `word_after`: what the machine has sent and received through one window.
-/

namespace PanTilt.Lib.Spi

open Clocked Words

/-- One sample of the lines the master drives. -/
structure Sample where
  cs : Bool
  clk : Bool
  pico : Bool

/-- The state of the slave: the previous samples of `clk` and `cs`, the number of bits of the
current group, the received bits, whether the last edge completed a group, the word handed over
and the word being sent. -/
structure Slave (w : ℕ) where
  clk : Bool
  cs : Bool
  cnt : ℕ
  shift : BitVec w
  got : Bool
  word : BitVec w
  sent : BitVec w

variable {w : ℕ}

/-- One edge of the slave's clock, with the word to send if a window starts. -/
def step (s : Slave w) (i : Sample × BitVec w) : Slave w where
  clk := i.1.clk
  cs := i.1.cs
  cnt := if i.1.cs then 0 else if !s.clk && i.1.clk then (s.cnt + 1) % w else s.cnt
  shift := if !i.1.cs && (!s.clk && i.1.clk) then s.shift.shiftConcat i.1.pico else s.shift
  got := !i.1.cs && (!s.clk && i.1.clk) && s.cnt == w - 1
  word := if s.got then s.shift else s.word
  sent :=
    if i.1.cs then 0
    else if s.cs then i.2
    else if s.clk && !i.1.clk then s.sent.shiftConcat false
    else s.sent

/-- Between windows: no bit counted, nothing received, nothing sent. -/
structure Idle (s : Slave w) : Prop where
  cnt : s.cnt = 0
  got : s.got = false
  sent : s.sent = 0

theorem idle_step (s : Slave w) (i : Sample × BitVec w) (h : i.1.cs = true) : Idle (step s i) :=
  ⟨by simp [step, h], by simp [step, h], by simp [step, h]⟩

/-! ### Windows and frames -/

/-- Every sample with the level of `clk` before it. -/
def withPrev (c : Bool) : List Sample → List (Sample × Bool)
  | [] => []
  | x :: xs => (x, c) :: withPrev x.clk xs

/-- The level of `clk` after the samples. -/
def lastClk (c : Bool) (xs : List Sample) : Bool := xs.foldl (fun _ x => x.clk) c

lemma lastClk_append (c : Bool) (xs : List Sample) (x : Sample) :
    lastClk c (xs ++ [x]) = x.clk := by
  simp [lastClk]

lemma withPrev_append (c : Bool) (xs : List Sample) (x : Sample) :
    withPrev c (xs ++ [x]) = withPrev c xs ++ [(x, lastClk c xs)] := by
  induction xs generalizing c with
  | nil => rfl
  | cons y ys ih => simp only [List.cons_append, withPrev, ih]; rfl

/-- A rise of `clk` at this sample. -/
def rises (p : Sample × Bool) : Bool := !p.2 && p.1.clk

/-- The bits of a part of the samples: the data line at every rise of `clk`. -/
def bitsAt (part : List (Sample × Bool)) : List Bool := (part.filter rises).map (·.1.pico)

/-- The bits of each window, the windows being the parts between the samples with high `cs`. -/
def windows (c : Bool) (xs : List Sample) : List (List Bool) :=
  ((withPrev c xs).splitOnP (·.1.cs)).map bitsAt

/-- The complete groups of all windows, in order. -/
def frames (w : ℕ) (c : Bool) (xs : List Sample) : List (List Bool) :=
  (windows c xs).flatMap (groups w)

/-- The last complete group, or `d` if there is none. -/
def lastFrame (d : BitVec w) (c : Bool) (xs : List Sample) : BitVec w :=
  ((frames w c xs).getLast?.map (wordOf w)).getD d

theorem splitOnP_append {α : Type*} {p : α → Bool} {xs : List α} {ps : List (List α)} {q : List α}
    (h : xs.splitOnP p = ps ++ [q]) (x : α) :
    (xs ++ [x]).splitOnP p = if p x then ps ++ [q, []] else ps ++ [q ++ [x]] := by
  induction xs generalizing ps q with
  | nil =>
    obtain ⟨rfl, rfl⟩ : ps = [] ∧ q = [] := by
      rw [List.splitOnP_nil] at h
      cases ps <;> simp_all
    simp [List.splitOnP_cons_eq_if_modifyHead]
  | cons y ys ih =>
    obtain ⟨ps', q', hs⟩ : ∃ ps' q', ys.splitOnP p = ps' ++ [q'] :=
      ⟨_, _, (List.dropLast_concat_getLast (List.splitOnP_ne_nil p ys)).symm⟩
    rw [List.cons_append, List.splitOnP_cons_eq_if_modifyHead, ih hs]
    rw [List.splitOnP_cons_eq_if_modifyHead, hs] at h
    by_cases hy : p y
    · rw [if_pos hy, ← List.cons_append] at h
      obtain ⟨rfl, hq⟩ := List.append_inj' h rfl
      obtain rfl := List.singleton_inj.1 hq
      rw [if_pos hy]
      split <;> rfl
    · rw [if_neg hy] at h ⊢
      -- the head of the split is the last part exactly when there is no other
      rcases ps' with _ | ⟨p₀, ps'⟩
      · rw [List.nil_append, List.modifyHead_cons, ← List.nil_append [_ :: _]] at h
        obtain ⟨rfl, hq⟩ := List.append_inj' h rfl
        obtain rfl := List.singleton_inj.1 hq
        split <;> rfl
      · rw [List.cons_append, List.modifyHead_cons, ← List.cons_append] at h
        obtain ⟨rfl, hq⟩ := List.append_inj' h rfl
        obtain rfl := List.singleton_inj.1 hq
        split <;> rfl

theorem exists_window (c : Bool) (xs : List Sample) : ∃ ws cur, windows c xs = ws ++ [cur] := by
  have h : windows c xs ≠ [] := by simp [windows, List.splitOnP_ne_nil]
  exact ⟨_, _, (List.dropLast_concat_getLast h).symm⟩

theorem windows_append {c : Bool} {xs : List Sample} {ws : List (List Bool)} {cur : List Bool}
    (h : windows c xs = ws ++ [cur]) (x : Sample) :
    windows c (xs ++ [x]) =
      if x.cs then ws ++ [cur, []]
      else if rises (x, lastClk c xs) then ws ++ [cur ++ [x.pico]] else ws ++ [cur] := by
  unfold windows at h ⊢
  obtain ⟨ps, q, hs⟩ : ∃ ps q, (withPrev c xs).splitOnP (·.1.cs) = ps ++ [q] :=
    ⟨_, _, (List.dropLast_concat_getLast (List.splitOnP_ne_nil _ _)).symm⟩
  rw [hs, List.map_append, List.map_singleton] at h
  obtain ⟨rfl, hq⟩ := List.append_inj' h rfl
  obtain rfl := List.singleton_inj.1 hq
  rw [withPrev_append, splitOnP_append hs]
  by_cases hc : x.cs
  · simp [hc, bitsAt]
  · by_cases hr : rises (x, lastClk c xs)
    · simp [hc, hr, bitsAt]
    · simp [hc, hr, bitsAt]

lemma frames_of_eq {c : Bool} {xs : List Sample} {ws : List (List Bool)} {cur : List Bool}
    (h : windows c xs = ws ++ [cur]) : frames w c xs = ws.flatMap (groups w) ++ groups w cur := by
  rw [frames, h, List.flatMap_append, List.flatMap_singleton]

theorem frames_append (hw : 0 < w) (c : Bool) (xs : List Sample) (x : Sample) :
    frames w c (xs ++ [x]) = frames w c xs ∨
      ∃ g, frames w c (xs ++ [x]) = frames w c xs ++ [g] := by
  obtain ⟨ws, cur, hW⟩ := exists_window c xs
  have hW' := windows_append hW x
  have hf := frames_of_eq (w := w) hW
  split at hW'
  · exact .inl (by rw [frames, hW', hf, List.flatMap_append]; simp)
  · split at hW'
    · rw [frames_of_eq hW', hf]
      by_cases h : (cur.length + 1) % w = 0
      · exact .inr ⟨_, by rw [groups_append_of_eq hw cur _ h, List.append_assoc]⟩
      · exact .inl (by rw [groups_append_of_ne cur _ h])
    · exact .inl (by rw [frames_of_eq hW', hf])

lemma frames_nil (c : Bool) : frames w c [] = [] := by simp [frames, windows, withPrev, bitsAt]

/-- **Windows do not see each other**: after a sample with high `cs` the groups are cut anew,
whatever the samples before it were. -/
theorem frames_append_cons (c : Bool) (xs : List Sample) {x : Sample} (h : x.cs = true)
    (ys : List Sample) : frames w c (xs ++ x :: ys) = frames w c xs ++ frames w x.clk ys := by
  have hprev : withPrev c (xs ++ x :: ys) =
      withPrev c xs ++ (x, lastClk c xs) :: withPrev x.clk ys := by
    induction xs generalizing c with
    | nil => rfl
    | cons z zs ih => simp only [List.cons_append, withPrev, ih]; rfl
  simp only [frames, windows]
  rw [hprev, List.splitOnP_append_cons _ _ (by simpa using h), List.map_append,
    List.flatMap_append]

/-- The number of windows that have ended, after a sample with the level `c` of `cs`. -/
def ends : Bool → List Sample → ℕ
  | _, [] => 0
  | c, x :: xs => (if x.cs && !c then 1 else 0) + ends x.cs xs

/-- The level of `cs` after the samples. -/
def lastCs (c : Bool) (xs : List Sample) : Bool := xs.foldl (fun _ x => x.cs) c

lemma lastCs_append (c : Bool) (xs : List Sample) (x : Sample) : lastCs c (xs ++ [x]) = x.cs := by
  simp [lastCs]

lemma ends_append (c : Bool) (xs : List Sample) (x : Sample) :
    ends c (xs ++ [x]) = ends c xs + if x.cs && !lastCs c xs then 1 else 0 := by
  induction xs generalizing c with
  | nil => simp [ends, lastCs]
  | cons y ys ih =>
    rw [List.cons_append, ends, ends, ih, Nat.add_assoc]
    rfl

/-! ### Receiving -/

/-- The word the slave holds after the next edge. -/
def pending (s : Slave w) : BitVec w := if s.got then s.shift else s.word

/-- What holds of the receiving half after the samples `xs`. -/
structure Received (d v : BitVec w) (c : Bool) (xs : List Sample) (s : Slave w) : Prop where
  clk : s.clk = lastClk c xs
  cnt : ∀ ws cur, windows c xs = ws ++ [cur] → s.cnt = cur.length % w
  shift : s.shift = shiftAll v (windows c xs).flatten
  pending : pending s = lastFrame d c xs

lemma eq_of_window_eq {W ws ws' : List (List Bool)} {cur cur' : List Bool} (h : W = ws ++ [cur])
    (h' : W = ws' ++ [cur']) : cur' = cur := by
  obtain ⟨-, hq⟩ := List.append_inj' (h'.symm.trans h) rfl
  exact (List.singleton_inj.1 hq)

section Received

variable {d v : BitVec w} {c : Bool} {xs : List Sample} {s : Slave w}

/-- An edge that completes no group hands over what was pending, and keeps the pending word. -/
lemma pending_step {i : Sample × BitVec w} (h : (step s i).got = false) :
    pending (step s i) = pending s := by
  unfold pending
  rw [h]
  rfl

theorem Received.close (h : Received d v c xs s) {i : Sample × BitVec w} (hcs : i.1.cs = true) :
    Received d v c (xs ++ [i.1]) (step s i) := by
  obtain ⟨ws, cur, hW⟩ := exists_window c xs
  have hW' := windows_append hW i.1
  rw [if_pos hcs] at hW'
  refine ⟨(lastClk_append ..).symm, ?_, ?_, ?_⟩
  · intro ws' cur' h'
    have hlast : windows c (xs ++ [i.1]) = (ws ++ [cur]) ++ [[]] := by simpa using hW'
    obtain rfl := eq_of_window_eq hlast h'
    simp [step, hcs]
  · rw [hW', show (step s i).shift = s.shift by simp [step, hcs], h.shift, hW]
    simp
  · have hf : frames w c (xs ++ [i.1]) = frames w c xs := by
      rw [frames, hW', frames_of_eq hW, List.flatMap_append]
      simp
    rw [pending_step (by simp [step, hcs]), h.pending, lastFrame, lastFrame, hf]

theorem Received.rest (h : Received d v c xs s) {i : Sample × BitVec w} (hcs : i.1.cs = false)
    (hr : rises (i.1, lastClk c xs) = false) : Received d v c (xs ++ [i.1]) (step s i) := by
  obtain ⟨ws, cur, hW⟩ := exists_window c xs
  have hr' : (!s.clk && i.1.clk) = false := by rw [h.clk]; exact hr
  have heq : windows c (xs ++ [i.1]) = windows c xs := by
    rw [windows_append hW i.1, if_neg (by simp [hcs]), if_neg (by simp [hr]), hW]
  refine ⟨(lastClk_append ..).symm, ?_, ?_, ?_⟩
  · intro ws' cur' h'
    rw [heq] at h'
    simpa [step, hcs, hr'] using h.cnt ws' cur' h'
  · rw [heq, ← h.shift]
    simp [step, hr']
  · rw [pending_step (by simp [step, hr']), h.pending, lastFrame, lastFrame, frames, frames,
      heq]

theorem Received.bit (hw : 0 < w) (h : Received d v c xs s) {i : Sample × BitVec w}
    (hcs : i.1.cs = false) (hr : rises (i.1, lastClk c xs) = true) :
    Received d v c (xs ++ [i.1]) (step s i) := by
  obtain ⟨ws, cur, hW⟩ := exists_window c xs
  have hcnt := h.cnt ws cur hW
  have hr' : (!s.clk && i.1.clk) = true := by rw [h.clk]; exact hr
  have hW' : windows c (xs ++ [i.1]) = ws ++ [cur ++ [i.1.pico]] := by
    rw [windows_append hW i.1, if_neg (by simp [hcs]), if_pos hr]
  have hshift : (step s i).shift = shiftAll v (windows c (xs ++ [i.1])).flatten := by
    rw [show (step s i).shift = s.shift.shiftConcat i.1.pico by simp [step, hcs, hr'], h.shift,
      hW', hW]
    simp
  have hfull : (cur.length + 1) % w = 0 ↔ s.cnt = w - 1 := by
    rw [hcnt]
    exact succ_mod_eq_zero hw _
  have hf' := frames_of_eq (w := w) hW'
  refine ⟨(lastClk_append ..).symm, ?_, hshift, ?_⟩
  · intro ws' cur' h'
    obtain rfl := eq_of_window_eq hW' h'
    simp [step, hcs, hr', hcnt, Nat.mod_add_mod]
  · by_cases hlast : s.cnt = w - 1
    · -- the word is the last `w` of all bits, which are the last `w` of the window
      have h0 := hfull.2 hlast
      have hlen : w ≤ cur.length + 1 := Nat.le_of_dvd (by omega) (Nat.dvd_of_mod_eq_zero h0)
      have hcut := (List.take_append_drop (cur.length + 1 - w) (cur ++ [i.1.pico])).symm
      rw [Spi.pending, if_pos (by simp [step, hcs, hr', hlast]), hshift, lastFrame, hf',
        groups_append_of_eq hw cur _ h0, ← List.append_assoc, List.getLast?_append, hW',
        List.flatten_append, List.flatten_singleton]
      conv_lhs => rw [hcut, ← List.append_assoc]
      rw [shiftAll_eq_wordOf _ _ (by simp; omega)]
      rfl
    · rw [pending_step (by simp [step, hlast]), h.pending, lastFrame, lastFrame, hf',
        groups_append_of_ne cur _ fun h0 => hlast (hfull.1 h0), ← frames_of_eq hW]

theorem Received.step (hw : 0 < w) (h : Received d v c xs s) (i : Sample × BitVec w) :
    Received d v c (xs ++ [i.1]) (step s i) := by
  rcases hcs : i.1.cs with _ | _
  · rcases hr : rises (i.1, lastClk c xs) with _ | _
    · exact h.rest hcs hr
    · exact h.bit hw hcs hr
  · exact h.close hcs

end Received

theorem Received.handed {d v : BitVec w} {c : Bool} {xs : List Sample} {s : Slave w} (hw : 0 < w)
    (h : Received d v c xs s) (i : Sample × BitVec w) :
    (frames w c (xs ++ [i.1])).map (wordOf w) = (frames w c xs).map (wordOf w) ++
      if (Spi.step s i).got then [(Spi.step s i).shift] else [] := by
  obtain ⟨ws, cur, hW⟩ := exists_window c xs
  have hW' := windows_append hW i.1
  have hf := frames_of_eq (w := w) hW
  by_cases hgot : (Spi.step s i).got = true
  · -- a rise that completes the group
    have hgot' := hgot
    simp only [Spi.step, Bool.and_eq_true, Bool.not_eq_true', beq_iff_eq] at hgot'
    obtain ⟨⟨hcs, hup⟩, hcnt⟩ := hgot'
    have hr : rises (i.1, lastClk c xs) = true := by
      rw [← h.clk]
      simpa [rises] using hup
    rw [if_neg (by simp [hcs]), if_pos hr] at hW'
    have hfull := (succ_mod_eq_zero hw _).2 ((h.cnt ws cur hW).symm.trans hcnt)
    have hpending := (h.step hw i).pending
    rw [Spi.pending, if_pos hgot, lastFrame, frames_of_eq hW', groups_append_of_eq hw cur _ hfull,
      ← List.append_assoc, List.getLast?_append, List.getLast?_singleton] at hpending
    rw [frames_of_eq hW', groups_append_of_eq hw cur _ hfull, ← List.append_assoc, ← hf,
      List.map_append, List.map_singleton, if_pos hgot, hpending]
    rfl
  · rw [if_neg hgot, List.append_nil]
    congr 1
    split at hW'
    · rw [frames, hW', hf, List.flatMap_append]
      simp
    · split at hW'
      case isFalse.isTrue hcs hr =>
        have hne : (cur.length + 1) % w ≠ 0 := by
          intro h0
          apply hgot
          have hcnt := (h.cnt ws cur hW).trans ((succ_mod_eq_zero hw _).1 h0)
          have hr' : (!s.clk && i.1.clk) = true := by rw [h.clk]; exact hr
          simp [Spi.step, hcs, hr', hcnt]
        rw [frames_of_eq hW', hf, groups_append_of_ne cur _ hne]
      case isFalse.isFalse => rw [frames_of_eq hW', hf]

/-- The samples before edge `n`. -/
def samples (x : ℕ → Sample) (n : ℕ) : List Sample := (List.range n).map x

@[simp] lemma samples_zero (x : ℕ → Sample) : samples x 0 = [] := rfl

lemma samples_add (x : ℕ → Sample) (m k : ℕ) :
    samples x (m + 1 + k) = samples x m ++ x m :: samples (fun j => x (m + 1 + j)) k := by
  simp [samples, List.range_add, List.range_succ, Function.comp_def]

lemma samples_succ (x : ℕ → Sample) (n : ℕ) : samples x (n + 1) = samples x n ++ [x n] := by
  simp [samples, List.range_succ]

lemma samples_late2 (a b : Sample) (x : ℕ → Sample) (n : ℕ) :
    samples (late2 a b x) (n + 2) = b :: a :: samples x n := by
  simp [samples, List.range_succ_eq_map, late2]

theorem frames_late2 {a b : Sample} (ha : a.cs = true) (hb : b.cs = true) (c : Bool)
    (h : a.clk = c) (x : ℕ → Sample) (n : ℕ) :
    frames w c (samples (late2 a b x) n) = frames w c (samples x (n - 2)) := by
  have hone : ∀ (c : Bool) (y : Sample) (ys : List Sample), y.cs = true →
      frames w c (y :: ys) = frames w y.clk ys := fun c y ys hy => by
    have := frames_append_cons (w := w) c [] hy ys
    rwa [frames_nil, List.nil_append, List.nil_append] at this
  rcases n with _ | _ | n
  · rfl
  · exact (hone c b [] hb).trans ((frames_nil _).trans (frames_nil _).symm)
  · rw [samples_late2, hone c b _ hb, hone b.clk a _ ha, h]
    rfl

section Runs

variable {s : Slave w} (x : ℕ → Sample) (d : ℕ → BitVec w)

theorem received_trace (hw : 0 < w) (hs : Idle s) (n : ℕ) :
    Received s.word s.shift s.clk (samples x n) (trace step s (fun m => (x m, d m)) n) := by
  induction n with
  | zero =>
    have hnil : windows s.clk [] = [] ++ [[]] := by simp [windows, withPrev, bitsAt]
    rw [samples_zero]
    refine ⟨rfl, ?_, rfl, by simp [pending, hs.got, lastFrame, frames, hnil]⟩
    intro ws cur h
    obtain rfl := eq_of_window_eq hnil h
    simp [hs.cnt]
  | succ n ih =>
    rw [samples_succ, trace_succ]
    exact ih.step hw (x n, d n)

theorem word_trace (hw : 0 < w) (hs : Idle s) (n : ℕ) :
    (trace step s (fun m => (x m, d m)) (n + 1)).word =
      lastFrame s.word s.clk (samples x n) := by
  rw [trace_succ]
  exact (received_trace x d hw hs n).pending

end Runs

/-- **A consumer of the words.** What takes a word at every edge after one at which it was handed
over has taken, one edge after the samples, the words of all complete groups. -/
theorem consumed_trace {B : Type*} (put : B → BitVec w → B) {s : Slave w} (x : ℕ → Sample)
    (d : ℕ → BitVec w) (hw : 0 < w) (hs : Idle s) {b : ℕ → B}
    (hb : ∀ n, b (n + 1) = if (trace step s (fun m => (x m, d m)) n).got
      then put (b n) (trace step s (fun m => (x m, d m)) n).shift else b n) (n : ℕ) :
    b (n + 1) = ((frames w s.clk (samples x n)).map (wordOf w)).foldl put (b 0) := by
  induction n with
  | zero =>
    rw [hb, trace_zero, if_neg (by simp [hs.got]), samples_zero]
    simp [frames, windows, withPrev, bitsAt]
  | succ n ih =>
    have hhanded := (received_trace x d hw hs n).handed hw (x n, d n)
    rw [← trace_succ step s (fun m => (x m, d m))] at hhanded
    rw [hb, samples_succ, hhanded, List.foldl_append, ← ih]
    split <;> rfl

/-! ### One window, pulse by pulse -/

/-- A window of `k` pulses of `clk`: it starts at sample `fall 0`, whose predecessor has high `cs`;
pulse `i` rises at sample `rise i` and falls at sample `fall (i + 1)`. -/
structure Pulses (x : ℕ → Sample) (k : ℕ) (fall rise : ℕ → ℕ) : Prop where
  before : ∀ n, fall 0 = n + 1 → (x n).cs = true
  fall_lt : ∀ i < k, fall i < rise i
  rise_lt : ∀ i < k, rise i < fall (i + 1)
  low : ∀ i < k, ∀ n, fall i ≤ n → n < rise i → (x n).clk = false
  high : ∀ i < k, ∀ n, rise i ≤ n → n < fall (i + 1) → (x n).clk = true
  select : ∀ n, fall 0 ≤ n → n < fall k → (x n).cs = false

/-- The bits on the data line at the first `i` rises. -/
def dataBits (x : ℕ → Sample) (rise : ℕ → ℕ) (i : ℕ) : List Bool :=
  (List.range i).map fun j => (x (rise j)).pico

lemma dataBits_succ (x : ℕ → Sample) (rise : ℕ → ℕ) (i : ℕ) :
    dataBits x rise (i + 1) = dataBits x rise i ++ [(x (rise i)).pico] := by
  simp [dataBits, List.range_succ]

/-- The slave inside a window: `clk` at the level `l`, `i` bits received after the word `v`, and
`j` bits of the word `u` sent. -/
structure Within (l : Bool) (i j : ℕ) (v u : BitVec w) (bits : List Bool) (s : Slave w) : Prop where
  clk : s.clk = l
  cs : s.cs = false
  cnt : s.cnt = i % w
  shift : s.shift = shiftAll v bits
  sent : s.sent = shiftAll u (List.replicate j false)

section Within

variable {l : Bool} {i j : ℕ} {v u : BitVec w} {bits : List Bool} {s : Slave w}

lemma Within.hold (h : Within l i j v u bits s) {y : Sample × BitVec w} (hcs : y.1.cs = false)
    (hclk : y.1.clk = l) : Within l i j v u bits (step s y) := by
  refine ⟨hclk, hcs, ?_, ?_, ?_⟩
  · simp [step, hcs, h.clk, hclk, h.cnt]
  · simp [step, h.clk, hclk, h.shift]
  · simp [step, hcs, h.cs, h.clk, hclk, h.sent]

lemma Within.rise (h : Within false i j v u bits s) {y : Sample × BitVec w} (hcs : y.1.cs = false)
    (hclk : y.1.clk = true) : Within true (i + 1) j v u (bits ++ [y.1.pico]) (step s y) := by
  refine ⟨hclk, hcs, ?_, ?_, ?_⟩
  · simp [step, hcs, h.clk, hclk, h.cnt, Nat.mod_add_mod]
  · simp [step, hcs, h.clk, hclk, h.shift]
  · simp [step, hcs, h.cs, h.clk, h.sent]

lemma Within.fall (h : Within true i j v u bits s) {y : Sample × BitVec w} (hcs : y.1.cs = false)
    (hclk : y.1.clk = false) : Within false i (j + 1) v u bits (step s y) := by
  refine ⟨hclk, hcs, ?_, ?_, ?_⟩
  · simp [step, hcs, h.clk, h.cnt]
  · simp [step, hcs, h.clk, h.shift]
  · rw [List.replicate_succ', shiftAll_append, shiftAll_singleton, ← h.sent]
    simp [step, hcs, h.cs, h.clk, hclk]

lemma Idle.select (h : Idle s) (hprev : s.cs = true) {y : Sample × BitVec w}
    (hcs : y.1.cs = false) (hclk : y.1.clk = false) :
    Within false 0 0 s.shift y.2 [] (step s y) := by
  refine ⟨hclk, hcs, ?_, ?_, ?_⟩
  · simp [step, hcs, hclk, h.cnt]
  · simp [step, hclk]
  · simp [step, hcs, hprev]

theorem Within.hold_trace {x : ℕ → Sample} {d : ℕ → BitVec w} {a b : ℕ}
    (h : Within l i j v u bits (trace step s (fun m => (x m, d m)) a)) (hab : a ≤ b)
    (hcs : ∀ n, a ≤ n → n < b → (x n).cs = false) (hclk : ∀ n, a ≤ n → n < b → (x n).clk = l) :
    Within l i j v u bits (trace step s (fun m => (x m, d m)) b) := by
  induction b, hab using Nat.le_induction with
  | base => exact h
  | succ b hab ih =>
    rw [trace_succ]
    exact (ih (fun n hn hb => hcs n hn (by omega)) (fun n hn hb => hclk n hn (by omega))).hold
      (hcs b hab (by omega)) (hclk b hab (by omega))

end Within

section Window

variable {s : Slave w} {x : ℕ → Sample} {d : ℕ → BitVec w} {k : ℕ} {fall rise : ℕ → ℕ}

lemma Pulses.fall_mono (h : Pulses x k fall rise) {i j : ℕ} (hij : i ≤ j) (hj : j ≤ k) :
    fall i ≤ fall j := by
  induction j, hij using Nat.le_induction with
  | base => exact le_rfl
  | succ j _ ih =>
    have h₁ := ih (by omega)
    have h₂ := h.fall_lt j (by omega)
    have h₃ := h.rise_lt j (by omega)
    omega

lemma Pulses.idle (h : Pulses x k fall rise) (hpos : 0 < fall 0) (s : Slave w)
    (d : ℕ → BitVec w) :
    Idle (trace step s (fun m => (x m, d m)) (fall 0)) ∧
      (trace step s (fun m => (x m, d m)) (fall 0)).cs = true := by
  obtain ⟨n, hn⟩ : ∃ n, fall 0 = n + 1 := ⟨fall 0 - 1, by omega⟩
  have hcs := h.before n hn
  rw [hn, trace_succ]
  exact ⟨idle_step _ _ hcs, hcs⟩

/-- **The slave through a window.** Between fall `i` and rise `i`, the first included, the slave
has received the bits of the first `i` rises and sent the first `i` bits of the word that was
present at the start of the window. -/
theorem within_trace (h : Pulses x k fall rise) (hpos : 0 < fall 0) :
    ∀ i < k, ∀ n, fall i < n → n ≤ rise i →
      Within false i i (trace step s (fun m => (x m, d m)) (fall 0)).shift (d (fall 0))
        (dataBits x rise i) (trace step s (fun m => (x m, d m)) n) := by
  intro i
  induction i with
  | zero =>
    intro hk n hn hn'
    obtain ⟨hidle, hprev⟩ := h.idle hpos s d
    have hlow := h.fall_lt 0 hk
    have hrise : rise 0 < fall 1 := h.rise_lt 0 hk
    have hmono := h.fall_mono (i := 1) hk le_rfl
    have hstart := hidle.select hprev (y := (x (fall 0), d (fall 0)))
      (h.select _ le_rfl (by omega)) (h.low 0 hk _ le_rfl hlow)
    rw [← trace_succ step s (fun m => (x m, d m))] at hstart
    exact hstart.hold_trace hn (fun m hm hm' => h.select m (by omega) (by omega))
      (fun m hm hm' => h.low 0 hk m (by omega) (by omega))
  | succ i ih =>
    intro hk n hn hn'
    have hlow := h.fall_lt i (by omega)
    have hhigh := h.rise_lt i (by omega)
    have hlow' := h.fall_lt (i + 1) hk
    have hhigh' : rise (i + 1) < fall (i + 2) := h.rise_lt (i + 1) hk
    have hfst := h.fall_mono (i := 0) (j := i) (by omega) (by omega)
    have hlst := h.fall_mono (i := i + 2) (j := k) (by omega) le_rfl
    have hsel : ∀ m, fall i ≤ m → m < fall (i + 2) → (x m).cs = false :=
      fun m hm hm' => h.select m (by omega) (by omega)
    -- the rise, the high half, the fall, the low half
    have h₁ := (ih (by omega) (rise i) hlow le_rfl).rise (y := (x (rise i), d (rise i)))
      (hsel _ (by omega) (by omega)) (h.high i (by omega) _ le_rfl hhigh)
    rw [← dataBits_succ, ← trace_succ step s (fun m => (x m, d m))] at h₁
    have h₂ := (h₁.hold_trace (b := fall (i + 1)) hhigh
      (fun m hm hm' => hsel m (by omega) (by omega))
      (fun m hm hm' => h.high i (by omega) m (by omega) hm')).fall
        (y := (x (fall (i + 1)), d (fall (i + 1)))) (hsel _ (by omega) (by omega))
        (h.low (i + 1) hk _ le_rfl hlow')
    rw [← trace_succ step s (fun m => (x m, d m))] at h₂
    exact h₂.hold_trace hn (fun m hm hm' => hsel m (by omega) (by omega))
      (fun m hm hm' => h.low (i + 1) hk m (by omega) (by omega))

/-- **A full window hands its word over.** Two edges after the last rise the slave holds the word
of the `w` bits, and keeps it while `clk` does not rise inside a window again. -/
theorem word_after (hw : 0 < w) (h : Pulses x w fall rise) (hpos : 0 < fall 0) {n : ℕ}
    (hn : rise (w - 1) + 2 ≤ n)
    (hafter : ∀ m, fall w ≤ m → m < n → (x m).cs = true ∨ (x m).clk = false) :
    (trace step s (fun m => (x m, d m)) n).word = wordOf w (dataBits x rise w) := by
  obtain ⟨k, rfl⟩ : ∃ k, w = k + 1 := ⟨w - 1, by omega⟩
  rw [Nat.add_sub_cancel] at hn
  have hlow := h.fall_lt k (by omega)
  have hhigh := h.rise_lt k (by omega)
  have hfst := h.fall_mono (i := 0) (j := k) (by omega) (by omega)
  have hcs : (x (rise k)).cs = false := h.select _ (by omega) hhigh
  have hclk : (x (rise k)).clk = true := h.high k (by omega) _ le_rfl hhigh
  have hin := within_trace (s := s) (d := d) h hpos k (by omega) (rise k) hlow le_rfl
  have hlast := hin.rise (y := (x (rise k), d (rise k))) hcs hclk
  rw [← dataBits_succ] at hlast
  -- after the last rise: `clk` is high in the pulse, and no rise comes after it
  have key : ∀ m, rise k + 1 ≤ m → m ≤ n →
      pending (trace step s (fun m => (x m, d m)) m) = wordOf (k + 1) (dataBits x rise (k + 1)) ∧
        (trace step s (fun m => (x m, d m)) m).clk = (x (m - 1)).clk ∧
        (rise k + 2 ≤ m → (trace step s (fun m => (x m, d m)) m).got = false) := by
    intro m hm
    induction m, hm using Nat.le_induction with
    | base =>
      refine fun _ => ⟨?_, rfl, fun hc => absurd hc (by omega)⟩
      have hgot : (trace step s (fun m => (x m, d m)) (rise k + 1)).got = true := by
        rw [trace_succ]
        simp [step, hcs, hclk, hin.clk, hin.cnt]
      rw [pending, if_pos hgot, trace_succ, hlast.shift]
      exact shiftAll_congr _ _ (by simp [dataBits])
    | succ m hm ih =>
      intro hmn
      obtain ⟨hp, hc, -⟩ := ih (by omega)
      have hgot : (trace step s (fun m => (x m, d m)) (m + 1)).got = false := by
        rw [trace_succ]
        rcases Nat.lt_or_ge m (fall (k + 1)) with hlt | hge
        · have : (x (m - 1)).clk = true := h.high k (by omega) _ (by omega) (by omega)
          simp [step, hc, this]
        · rcases hafter m hge (by omega) with h' | h'
          · simp [step, h']
          · simp [step, h']
      refine ⟨?_, rfl, fun _ => hgot⟩
      rw [trace_succ] at hgot ⊢
      rw [pending_step hgot, hp]
  obtain ⟨hp, -, hg⟩ := key n (by omega) le_rfl
  rw [← hp, pending, if_neg (by simp [hg hn])]

/-- **Behind a two-stage synchroniser the window comes two edges late.** -/
theorem Pulses.late (h : Pulses x k fall rise) {a b : Sample} (ha : a.cs = true) :
    Pulses (late2 a b x) k (fun i => fall i + 2) (fun i => rise i + 2) := by
  refine ⟨?_, fun i hi => Nat.add_lt_add_right (h.fall_lt i hi) 2,
    fun i hi => Nat.add_lt_add_right (h.rise_lt i hi) 2, ?_, ?_, ?_⟩
  · intro n hn
    rcases Nat.eq_zero_or_pos (fall 0) with h₀ | hpos
    · obtain rfl : n = 1 := by omega
      exact ha
    · rw [late2_of_ge _ _ _ (by omega)]
      exact h.before _ (by omega)
  · intro i hi n hn hn'
    rw [late2_of_ge _ _ _ (by omega)]
    exact h.low i hi _ (by omega) (by omega)
  · intro i hi n hn hn'
    rw [late2_of_ge _ _ _ (by omega)]
    exact h.high i hi _ (by omega) (by omega)
  · intro n hn hn'
    rw [late2_of_ge _ _ _ (by omega)]
    exact h.select _ (by omega) (by omega)

lemma dataBits_late (a b : Sample) (i : ℕ) :
    dataBits (late2 a b x) (fun i => rise i + 2) i = dataBits x rise i := rfl

end Window

/-! ### A window -/

/-- One window with a pulse of two samples for each bit. -/
def pulses (bits : List Bool) (n : ℕ) : Sample where
  cs := n == 0 || 2 * bits.length < n
  clk := 0 < n && n % 2 == 0
  pico := bits.getD ((n - 1) / 2) false

lemma pulses_pulses (bits : List Bool) :
    Pulses (pulses bits) bits.length (fun i => 2 * i + 1) (fun i => 2 * i + 2) := by
  refine ⟨?_, fun _ _ => by omega, fun _ _ => by omega, ?_, ?_, ?_⟩
  · intro n hn
    obtain rfl : n = 0 := by omega
    rfl
  · intro i _ n hn hn'
    obtain rfl : n = 2 * i + 1 := by omega
    simp [pulses]
  · intro i _ n hn hn'
    obtain rfl : n = 2 * i + 2 := by omega
    simp [pulses]
  · intro n hn hn'
    simp only [pulses, Bool.or_eq_false_iff, beq_eq_false_iff_ne, decide_eq_false_iff_not]
    omega

lemma dataBits_pulses (bits : List Bool) :
    dataBits (pulses bits) (fun i => 2 * i + 2) bits.length = bits := by
  refine List.ext_getElem (by simp [dataBits]) fun i hi hi' => ?_
  have hplace : (2 * i + 1) / 2 = i := by omega
  simp [dataBits, pulses, hplace, hi']

theorem lastFrame_pulses {bits : List Bool} (hw : bits.length = w) (hpos : 0 < w) (e : BitVec w)
    {n : ℕ} (hn : 2 * w + 1 ≤ n) :
    lastFrame e false (samples (pulses bits) n) = wordOf w bits := by
  subst hw
  have hidle : Idle (⟨false, true, 0, 0, false, e, 0⟩ : Slave bits.length) := ⟨rfl, rfl, rfl⟩
  have hword := word_trace (pulses bits) (fun _ => 0) hpos hidle n
  rw [← hword, word_after hpos (pulses_pulses bits) Nat.one_pos (by omega) fun m hm _ => ?_,
    dataBits_pulses]
  rcases Nat.lt_or_eq_of_le hm with hlt | rfl
  · refine .inl ?_
    simp only [pulses, Bool.or_eq_true, beq_iff_eq, decide_eq_true_eq]
    omega
  · refine .inr ?_
    simp [pulses]

end PanTilt.Lib.Spi
