import Mathlib.Algebra.Order.Floor.Semiring
import Mathlib.Tactic.Linarith
import PanTilt.Lib.Spi

/-!
The lines of a serial master in continuous time, and their samples.

The slave's clock ticks at the whole numbers and the master switches its lines at any times, a
`Window`; at the very moment of a switch a line can have either level. The `tick` of a switch is the
first sample that has seen it. A window whose phases are longer than one tick is sampled as a window
of pulses (`Mode0.pulses`), and with phases of four ticks it is carried through a slave behind a
two-stage synchroniser: `received` is what the slave hands over, `sent` what the master reads.
-/

namespace PanTilt.Lib.Spi

open Clocked Words

variable {K : Type*} [Field K] [LinearOrder K] [FloorSemiring K]

/-! ### Switches -/

/-- The first sample that has seen a line switch to the level `l` at time `t`: the first tick after
`t`, or the one at `t` if it already has the level. -/
def tick (f : ℕ → Bool) (t : K) (l : Bool) : ℕ :=
  if (⌈t⌉₊ : K) = t ∧ f ⌈t⌉₊ ≠ l then ⌈t⌉₊ + 1 else ⌈t⌉₊

section Tick

variable {f : ℕ → Bool} {t : K} {l : Bool}

/-- A sample before the tick is from before the switch. -/
lemma lt_or_eq_of_lt_tick {n : ℕ} (h : n < tick f t l) : (n : K) < t ∨ ((n : K) = t ∧ f n ≠ l) := by
  unfold tick at h
  split at h
  case isTrue hc =>
    rcases Nat.lt_succ_iff_lt_or_eq.1 h with hlt | rfl
    · exact .inl (Nat.lt_ceil.1 hlt)
    · exact .inr hc
  · exact .inl (Nat.lt_ceil.1 h)

variable [IsStrictOrderedRing K]

lemma le_tick : t ≤ tick f t l := by
  have hceil := Nat.le_ceil t
  unfold tick
  split
  · push_cast
    linarith
  · exact hceil

lemma tick_le (ht : 0 ≤ t) : (tick f t l : K) ≤ t + 1 := by
  unfold tick
  split
  case isTrue h =>
    push_cast
    linarith [h.1]
  · exact (Nat.ceil_lt_add_one ht).le

lemma lt_or_eq_of_tick_le {n : ℕ} (h : tick f t l ≤ n) : t < n ∨ ((n : K) = t ∧ f n = l) := by
  unfold tick at h
  split at h
  · exact .inl (Nat.lt_of_ceil_lt h)
  case isFalse hc =>
    rcases (Nat.ceil_le.1 h).lt_or_eq with hlt | heq
    · exact .inl hlt
    · obtain rfl : ⌈t⌉₊ = n := by rw [heq, Nat.ceil_natCast]
      exact .inr ⟨heq.symm, by_contra fun hne => hc ⟨heq.symm, hne⟩⟩

end Tick

/-! ### Windows in time -/

/-- The lines of the master over time. -/
structure Wires (K : Type*) where
  cs : K → Bool
  clk : K → Bool
  pico : K → Bool

/-- The samples of the lines at the ticks. -/
def Wires.sampled (v : Wires K) (n : ℕ) : Sample := ⟨v.cs n, v.clk n, v.pico n⟩

/-- The times of a window of `k` pulses with phases of at least `gap`: `cs` falls at `fall 0`, pulse
`i` rises at `rise i` and falls at `fall (i + 1)`, and `cs` rises after the last fall. -/
structure Window (gap : K) (k : ℕ) where
  fall : ℕ → K
  rise : ℕ → K
  csRise : K
  start : 0 ≤ fall 0
  low : ∀ i < k, fall i + gap ≤ rise i
  high : ∀ i < k, rise i + gap ≤ fall (i + 1)
  tail : fall k < csRise

/-- The master drives the window in mode 0: `clk` is low when `cs` falls and when it rises. -/
structure Mode0 {gap : K} {k : ℕ} (W : Window gap k) (v : Wires K) : Prop where
  before : ∀ t, 0 ≤ t → t < W.fall 0 → v.cs t = true
  select : ∀ t, W.fall 0 < t → t < W.csRise → v.cs t = false
  start : v.clk (W.fall 0) = false
  low : ∀ i < k, ∀ t, W.fall i < t → t < W.rise i → v.clk t = false
  high : ∀ i < k, ∀ t, W.rise i < t → t < W.fall (i + 1) → v.clk t = true
  rest : ∀ t, W.fall k < t → t ≤ W.csRise → v.clk t = false

section Window

variable {gap : K} {k : ℕ} {W : Window gap k} {v : Wires K}

/-- The samples that see the falls: of `cs` at the start, of `clk` after it. -/
def fallAt (W : Window gap k) (v : Wires K) : ℕ → ℕ
  | 0 => tick (fun n => v.cs n) (W.fall 0) false
  | i + 1 => tick (fun n => v.clk n) (W.fall (i + 1)) false

/-- The samples that see the rises of `clk`. -/
def riseAt (W : Window gap k) (v : Wires K) (i : ℕ) : ℕ := tick (fun n => v.clk n) (W.rise i) true

lemma fallAt_zero : fallAt W v 0 = tick (fun n => v.cs n) (W.fall 0) false := rfl

lemma fallAt_succ (i : ℕ) :
    fallAt W v (i + 1) = tick (fun n => v.clk n) (W.fall (i + 1)) false := rfl

variable [IsStrictOrderedRing K]

lemma Window.fall_mono (W : Window gap k) (hgap : 0 ≤ gap) {i j : ℕ} (hij : i ≤ j) (hj : j ≤ k) :
    W.fall i ≤ W.fall j := by
  induction j, hij using Nat.le_induction with
  | base => exact le_rfl
  | succ j _ ih => linarith [ih (by omega), W.low j (by omega), W.high j (by omega)]

lemma Window.fall_nonneg (W : Window gap k) (hgap : 0 ≤ gap) {i : ℕ} (hi : i ≤ k) :
    0 ≤ W.fall i := W.start.trans (W.fall_mono hgap (Nat.zero_le i) hi)

lemma Window.rise_nonneg (W : Window gap k) (hgap : 0 ≤ gap) {i : ℕ} (hi : i < k) :
    0 ≤ W.rise i := by linarith [W.fall_nonneg hgap hi.le, W.low i hi]

lemma le_fallAt (i : ℕ) : W.fall i ≤ fallAt W v i := by
  cases i with
  | zero =>
    rw [fallAt_zero]
    exact le_tick
  | succ i =>
    rw [fallAt_succ]
    exact le_tick

lemma fallAt_le (hgap : 0 ≤ gap) {i : ℕ} (hi : i ≤ k) : (fallAt W v i : K) ≤ W.fall i + 1 := by
  cases i with
  | zero =>
    rw [fallAt_zero]
    exact tick_le W.start
  | succ i =>
    rw [fallAt_succ]
    exact tick_le (W.fall_nonneg hgap hi)

lemma le_riseAt (i : ℕ) : W.rise i ≤ riseAt W v i := le_tick

lemma riseAt_le (hgap : 0 ≤ gap) {i : ℕ} (hi : i < k) : (riseAt W v i : K) ≤ W.rise i + 1 :=
  tick_le (W.rise_nonneg hgap hi)

lemma Mode0.lt_or_low (h : Mode0 W v) {i n : ℕ} (hn : fallAt W v i ≤ n) :
    W.fall i < n ∨ v.clk n = false := by
  cases i with
  | zero =>
    rw [fallAt_zero] at hn
    rcases lt_or_eq_of_tick_le hn with hlt | ⟨heq, -⟩
    · exact .inl hlt
    · exact .inr (heq ▸ h.start)
  | succ i =>
    rw [fallAt_succ] at hn
    rcases lt_or_eq_of_tick_le hn with hlt | ⟨-, hl⟩
    · exact .inl hlt
    · exact .inr hl

/-- **A window in time is sampled as a window of pulses**, if its phases are longer than a tick. -/
theorem Mode0.pulses (h : Mode0 W v) (hgap : 1 < gap) :
    Pulses v.sampled k (fallAt W v) (riseAt W v) := by
  have hgap₀ : 0 ≤ gap := zero_le_one.trans hgap.le
  refine ⟨?_, ?_, ?_, ?_, ?_, ?_⟩
  · intro n hn
    have hn' : n < fallAt W v 0 := by omega
    rw [fallAt_zero] at hn'
    rcases lt_or_eq_of_lt_tick hn' with hlt | ⟨-, hl⟩
    · exact h.before n n.cast_nonneg hlt
    · exact Bool.eq_true_of_not_eq_false hl
  · intro i hi
    have hlt : (fallAt W v i : K) < riseAt W v i :=
      calc (fallAt W v i : K) ≤ W.fall i + 1 := fallAt_le hgap₀ hi.le
        _ < W.rise i := by linarith [W.low i hi]
        _ ≤ riseAt W v i := le_riseAt i
    exact_mod_cast hlt
  · intro i hi
    have hlt : (riseAt W v i : K) < fallAt W v (i + 1) :=
      calc (riseAt W v i : K) ≤ W.rise i + 1 := riseAt_le hgap₀ hi
        _ < W.fall (i + 1) := by linarith [W.high i hi]
        _ ≤ fallAt W v (i + 1) := le_fallAt (i + 1)
    exact_mod_cast hlt
  · intro i hi n hn hn'
    rcases h.lt_or_low hn with hlt | hl
    · rcases lt_or_eq_of_lt_tick hn' with hlt' | ⟨-, hl⟩
      · exact h.low i hi n hlt hlt'
      · exact Bool.eq_false_of_not_eq_true hl
    · exact hl
  · intro i hi n hn hn'
    rw [fallAt_succ] at hn'
    rcases lt_or_eq_of_tick_le hn with hlt | ⟨-, hl⟩
    · rcases lt_or_eq_of_lt_tick hn' with hlt' | ⟨-, hl⟩
      · exact h.high i hi n hlt hlt'
      · exact Bool.eq_true_of_not_eq_false hl
    · exact hl
  · intro n hn hn'
    have hend : (n : K) < W.csRise := by
      have hle : (n : K) + 1 ≤ fallAt W v k := by exact_mod_cast hn'
      have hfall : (fallAt W v k : K) ≤ W.fall k + 1 := fallAt_le hgap₀ le_rfl
      linarith [W.tail]
    rw [fallAt_zero] at hn
    rcases lt_or_eq_of_tick_le hn with hlt | ⟨-, hl⟩
    · exact h.select n hlt hend
    · exact hl

/-- **What the master reads.** The word present at one tick between the fall of `cs` and the first
rise is, from the first rise on, shifted out by one bit a pulse: this is the state of the slave
behind a synchroniser at each rise of `clk` and one tick after it. -/
theorem Mode0.sent (h : Mode0 W v) (hgap : 4 ≤ gap) (hk : 0 < k) {w : ℕ} (s : Slave w)
    (d : ℕ → BitVec w) {a : Sample} (b : Sample) (ha : a.cs = true) :
    ∃ n : ℕ, W.fall 0 + 1 ≤ n ∧ n < W.rise 0 ∧
      ∀ i < k, ∀ m : ℕ, W.rise i ≤ m → (m : K) ≤ W.rise i + 1 →
        (trace step s (fun m => (late2 a b v.sampled m, d m)) m).sent =
          shiftAll (d n) (List.replicate i false) := by
  have hgap₀ : 0 ≤ gap := by linarith
  have hpulses := (h.pulses (by linarith)).late (b := b) ha
  have hfall : ∀ i < k, (fallAt W v i : K) ≤ W.fall i + 1 := fun i hi => fallAt_le hgap₀ hi.le
  refine ⟨fallAt W v 0 + 2, ?_, ?_, ?_⟩
  · push_cast
    linarith [le_fallAt (W := W) (v := v) 0]
  · push_cast
    linarith [hfall 0 hk, W.low 0 hk]
  · intro i hi m hm hm'
    have hlo : (fallAt W v i : K) + 2 < m := by linarith [hfall i hi, W.low i hi]
    have hhi : (m : K) ≤ riseAt W v i + 2 := by linarith [le_riseAt (W := W) (v := v) i]
    exact (within_trace hpulses (Nat.succ_pos _) i hi m (by exact_mod_cast hlo)
      (by exact_mod_cast hhi)).sent

/-- The master holds the bits of a list on the data line around the rises, one bit a pulse. -/
def Holds (W : Window gap k) (v : Wires K) (bits : List Bool) : Prop :=
  ∀ i < k, ∀ t, W.rise i ≤ t → t ≤ W.rise i + 1 → v.pico t = bits.getD i false

lemma Holds.dataBits {bits : List Bool} (h : Holds W v bits) (hgap : 0 ≤ gap)
    (hlength : bits.length = k) : dataBits v.sampled (riseAt W v) k = bits := by
  apply List.ext_getElem (by simp [Spi.dataBits, hlength])
  intro i h₁ h₂
  have hi : i < k := hlength ▸ h₂
  have hbit := h i hi _ (le_riseAt i) (riseAt_le (v := v) hgap hi)
  rw [List.getD_eq_getElem _ _ h₂] at hbit
  simpa [Spi.dataBits, Wires.sampled] using hbit

/-- **What the slave hands over.** After a window with one pulse for each bit of a word, the slave
behind a synchroniser holds the word of the bits on the data line, as long as `clk` does not rise in
another window. -/
theorem Mode0.handed {w : ℕ} {W : Window gap w} (h : Mode0 W v) (hgap : 4 ≤ gap) (hw : 0 < w)
    {bits : List Bool} (hlength : bits.length = w) (hbits : Holds W v bits) (s : Slave w)
    (d : ℕ → BitVec w) {a : Sample} (b : Sample) (ha : a.cs = true) {n : ℕ} (hn : W.csRise ≤ n)
    (hquiet : ∀ t, W.csRise < t → t < n → v.cs t = true ∨ v.clk t = false) :
    (trace step s (fun m => (late2 a b v.sampled m, d m)) n).word = wordOf w bits := by
  obtain ⟨k, rfl⟩ : ∃ k, w = k + 1 := ⟨w - 1, by omega⟩
  have hgap₀ : 0 ≤ gap := by linarith
  have hpulses := (h.pulses (by linarith)).late (b := b) ha
  have hlast : (riseAt W v k : K) + 3 < n := by
    have hrise : (riseAt W v k : K) ≤ W.rise k + 1 := riseAt_le hgap₀ k.lt_succ_self
    linarith [W.high k k.lt_succ_self, W.tail]
  have hlast' : riseAt W v k + 3 < n := by exact_mod_cast hlast
  have hword := word_after (s := s) (d := d) hw hpulses (Nat.succ_pos _) (n := n)
    (by rw [Nat.add_sub_cancel]; omega) fun m hm hm' => ?_
  · rw [hword, dataBits_late, hbits.dataBits hgap₀ hlength]
  · -- a sample after the last fall is from the rest of the window, or from after it
    rw [late2_of_ge _ _ _ (by omega)]
    rcases le_or_gt ((m - 2 : ℕ) : K) W.csRise with hle | hgt
    · rcases h.lt_or_low (i := k + 1) (n := m - 2) (by omega) with hlt | hl
      · exact .inr (h.rest _ hlt hle)
      · exact .inr hl
    · exact hquiet _ hgt (by exact_mod_cast (show m - 2 < n by omega))

theorem Mode0.received {w : ℕ} {W : Window gap w} (h : Mode0 W v) (hgap : 4 ≤ gap) (hw : 0 < w)
    {bits : List Bool} (hlength : bits.length = w) (hbits : Holds W v bits) (s : Slave w)
    (d : ℕ → BitVec w) {a : Sample} (b : Sample) (ha : a.cs = true) {n : ℕ} (hn : W.csRise ≤ n)
    (hcs : ∀ t, W.csRise < t → t < n → v.cs t = true) :
    (trace step s (fun m => (late2 a b v.sampled m, d m)) n).word = wordOf w bits :=
  h.handed hgap hw hlength hbits s d b ha hn fun t ht ht' => .inl (hcs t ht ht')

omit [FloorSemiring K] [IsStrictOrderedRing K] in
lemma Mode0.quiet (h : Mode0 W v) (hk : 0 < k) {t : K} (ht : 0 ≤ t) (ht' : t < W.rise 0) :
    v.cs t = true ∨ v.clk t = false := by
  rcases lt_trichotomy t (W.fall 0) with hlt | rfl | hgt
  · exact .inl (h.before t ht hlt)
  · exact .inr h.start
  · exact .inr (h.low 0 hk t hgt ht')

end Window

/-! ### One window after another -/

/-- The lines in the time since `T`. -/
def Wires.after (T : K) (v : Wires K) : Wires K where
  cs t := v.cs (T + t)
  clk t := v.clk (T + t)
  pico t := v.pico (T + t)

/-- The lines of `v` until `T`, and then those of `v'`. -/
def Wires.andThen (T : K) (v v' : Wires K) : Wires K where
  cs t := if t < T then v.cs t else v'.cs (t - T)
  clk t := if t < T then v.clk t else v'.clk (t - T)
  pico t := if t < T then v.pico t else v'.pico (t - T)

/-- The levels of the lines at a time. -/
def Wires.levels (v : Wires K) (t : K) : Sample := ⟨v.cs t, v.clk t, v.pico t⟩

section After

variable [IsStrictOrderedRing K] {gap : K} {k : ℕ} {W : Window gap k} {v v' : Wires K} {T t : K}

omit [LinearOrder K] [FloorSemiring K] [IsStrictOrderedRing K] in
lemma Wires.sampled_after (v : Wires K) (T n : ℕ) :
    (v.after (T : K)).sampled n = v.sampled (T + n) := by
  simp [Wires.sampled, Wires.after]

omit [FloorSemiring K] [IsStrictOrderedRing K] in
lemma Wires.levels_andThen (h : t < T) : (v.andThen T v').levels t = v.levels t := by
  simp [levels, andThen, h]

omit [FloorSemiring K] in
lemma Wires.levels_after_andThen (h : 0 ≤ t) :
    ((v.andThen T v').after T).levels t = v'.levels t := by
  simp [levels, andThen, after, h]

lemma Window.le_csRise (W : Window gap k) (hgap : 0 ≤ gap) {i : ℕ} (hi : i ≤ k) :
    W.fall i ≤ W.csRise :=
  (W.fall_mono hgap hi le_rfl).trans W.tail.le

theorem Mode0.congr (h : Mode0 W v) (hgap : 0 ≤ gap)
    (heq : ∀ t, 0 ≤ t → t ≤ W.csRise → v'.levels t = v.levels t) : Mode0 W v' := by
  have hcs : ∀ t, 0 ≤ t → t ≤ W.csRise → v'.cs t = v.cs t := fun t ht ht' =>
    congrArg Sample.cs (heq t ht ht')
  have hclk : ∀ t, 0 ≤ t → t ≤ W.csRise → v'.clk t = v.clk t := fun t ht ht' =>
    congrArg Sample.clk (heq t ht ht')
  have hstart := W.start
  have hend := W.le_csRise hgap (Nat.zero_le k)
  refine ⟨?_, ?_, ?_, ?_, ?_, ?_⟩
  · intro t ht ht'
    rw [hcs t ht (by linarith)]
    exact h.before t ht ht'
  · intro t ht ht'
    rw [hcs t (by linarith) ht'.le]
    exact h.select t ht ht'
  · rw [hclk _ hstart hend]
    exact h.start
  · intro i hi t ht ht'
    have hlo := W.fall_nonneg hgap hi.le
    have hhi := W.le_csRise hgap (Nat.succ_le_of_lt hi)
    rw [hclk t (by linarith) (by linarith [W.high i hi])]
    exact h.low i hi t ht ht'
  · intro i hi t ht ht'
    have hlo := W.rise_nonneg hgap hi
    have hhi := W.le_csRise hgap (Nat.succ_le_of_lt hi)
    rw [hclk t (by linarith) (by linarith)]
    exact h.high i hi t ht ht'
  · intro t ht ht'
    have hlo := W.fall_nonneg hgap (le_refl k)
    rw [hclk t (by linarith) ht']
    exact h.rest t ht ht'

theorem Holds.congr {bits : List Bool} (h : Holds W v bits) (hgap : 1 ≤ gap)
    (heq : ∀ t, 0 ≤ t → t ≤ W.csRise → v'.levels t = v.levels t) : Holds W v' bits := by
  intro i hi t ht ht'
  have hgap₀ : 0 ≤ gap := zero_le_one.trans hgap
  have hlo := W.rise_nonneg hgap₀ hi
  have hhi := W.le_csRise hgap₀ (Nat.succ_le_of_lt hi)
  have hpico : v'.pico t = v.pico t :=
    congrArg Sample.pico (heq t (by linarith) (by linarith [W.high i hi]))
  rw [hpico]
  exact h i hi t ht ht'

end After

/-! ### The steady window -/

/-- The window whose phases are all of the length `gap`: `cs` falls after phase 0, `clk` is high in
the phases 2, 4, .., `2 * k`, and `cs` rises after phase `2 * k + 1`. -/
def Window.steady [IsStrictOrderedRing K] (gap : K) (hgap : 0 < gap) (k : ℕ) : Window gap k where
  fall i := (2 * i + 1 : ℕ) * gap
  rise i := (2 * i + 2 : ℕ) * gap
  csRise := (2 * k + 2 : ℕ) * gap
  start := mul_nonneg (Nat.cast_nonneg _) hgap.le
  low i _ := by push_cast; linarith
  high i _ := by push_cast; linarith
  tail := mul_lt_mul_of_pos_right (by exact_mod_cast Nat.lt_succ_self _) hgap

/-- The phase at a time. -/
def phase (gap t : K) : ℕ := ⌊t / gap⌋₊

/-- The lines of the steady window, with the bits of a list on the data line. -/
def Wires.steady (gap : K) (k : ℕ) (bits : List Bool) : Wires K where
  cs t := phase gap t == 0 || decide (2 * k + 2 ≤ phase gap t)
  clk t := phase gap t % 2 == 0 && phase gap t != 0 && decide (phase gap t < 2 * k + 2)
  pico t := bits.getD (phase gap t / 2 - 1) false

section Steady

variable [IsStrictOrderedRing K] {gap : K} (hgap : 0 < gap) {t : K}

include hgap

lemma le_phase_iff (ht : 0 ≤ t) {a : ℕ} : a ≤ phase gap t ↔ a * gap ≤ t := by
  rw [phase, Nat.le_floor_iff (div_nonneg ht hgap.le), le_div_iff₀ hgap]

lemma phase_lt_iff (ht : 0 ≤ t) {a : ℕ} : phase gap t < a ↔ t < a * gap :=
  lt_iff_lt_of_le_iff_le (le_phase_iff hgap ht)

omit [FloorSemiring K] in
lemma nonneg_of_mul_le {a : ℕ} (h : a * gap ≤ t) : 0 ≤ t :=
  (mul_nonneg a.cast_nonneg hgap.le).trans h

lemma phase_of_lt {a b : ℕ} (h : a * gap < t) (h' : t < b * gap) :
    a ≤ phase gap t ∧ phase gap t < b := by
  have ht := nonneg_of_mul_le hgap h.le
  exact ⟨(le_phase_iff hgap ht).2 h.le, (phase_lt_iff hgap ht).2 h'⟩

theorem mode0_steady (k : ℕ) (bits : List Bool) :
    Mode0 (Window.steady gap hgap k) (Wires.steady gap k bits) := by
  refine ⟨?_, ?_, ?_, ?_, ?_, ?_⟩
  · intro t ht h
    have hq : phase gap t < 1 := (phase_lt_iff hgap ht).2 h
    simp [Wires.steady, Nat.lt_one_iff.1 hq]
  · intro t h h'
    obtain ⟨hlo, hhi⟩ := phase_of_lt hgap h h'
    simp only [Wires.steady, Bool.or_eq_false_iff, beq_eq_false_iff_ne, decide_eq_false_iff_not]
    omega
  · have hstart : phase gap ((Window.steady gap hgap k).fall 0) = 1 := by
      show phase gap ((2 * 0 + 1 : ℕ) * gap) = 1
      rw [phase, mul_div_cancel_right₀ _ hgap.ne', Nat.floor_natCast]
    simp [Wires.steady, hstart]
  · intro i hi t h h'
    obtain ⟨hlo, hhi⟩ := phase_of_lt hgap h h'
    have hq : phase gap t % 2 = 1 := by omega
    simp [Wires.steady, hq]
  · intro i hi t h h'
    obtain ⟨hlo, hhi⟩ := phase_of_lt hgap h h'
    simp only [Wires.steady, Bool.and_eq_true, beq_iff_eq, bne_iff_ne, decide_eq_true_eq]
    omega
  · intro t h h'
    have ht := nonneg_of_mul_le hgap (a := 2 * k + 1) h.le
    have hlo : 2 * k + 1 ≤ phase gap t := (le_phase_iff hgap ht).2 h.le
    have hodd : phase gap t = 2 * k + 1 ∨ 2 * k + 2 ≤ phase gap t := by omega
    rcases hodd with hq | hq
    · simp [Wires.steady, hq]
    · simp [Wires.steady, not_lt.2 hq]

theorem holds_steady (hone : 1 < gap) (k : ℕ) (bits : List Bool) :
    Holds (Window.steady gap hgap k) (Wires.steady gap k bits) bits := by
  intro i hi t h h'
  have ht := nonneg_of_mul_le hgap (a := 2 * i + 2) h
  have hend : t < (2 * i + 3 : ℕ) * gap := by
    apply h'.trans_lt
    show ((2 * i + 2 : ℕ) : K) * gap + 1 < _
    push_cast
    linarith
  have hlo : 2 * i + 2 ≤ phase gap t := (le_phase_iff hgap ht).2 h
  have hhi : phase gap t < 2 * i + 3 := (phase_lt_iff hgap ht).2 hend
  have hq : phase gap t / 2 - 1 = i := by omega
  show bits.getD (phase gap t / 2 - 1) false = bits.getD i false
  rw [hq]

end Steady

end PanTilt.Lib.Spi
