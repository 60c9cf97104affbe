import PanTilt.App.ControlLoop
import PanTilt.Fpga.PwmGenerator

/-!
From the output of a controller to the pins of its motor.

The program turns the output into a PWM word around a midpoint (`axisPwm_eq`), and `PWM_Generator`
turns the word back into a direction and a pulse width (`PwmGenerator.steady`). Put together, the
motor gets the sign of the output and its magnitude cut to an integer.
-/

namespace PanTilt.System

open App Fpga Lib.Clocked

/-- The outputs of a controller after its limiter. -/
def limited : Set ℚ := Set.Icc (-0.99) 0.99

/-- `MAX_COUNT` of the two generators of the design. -/
def MAX_COUNT : BitVec 16 := 4096

lemma maxCount_even : PwmGenerator.Even MAX_COUNT 2048 := ⟨by decide, by decide⟩

/-- The magnitude of an output in `M` steps. -/
def steps (M : ℕ) (output : ℚ) : ℕ := ⌊M * |output|⌋₊

/-- The PWM word is the midpoint moved by the output in `M` steps, and in the range of the
generator. -/
structure Encodes (M : ℕ) (output : ℚ) (word : BitVec 16) : Prop where
  value : (word.toNat : ℤ) = PWM_MID_POINT + signed output (steps M output)
  range : word.toNat ≤ 2 * PWM_MID_POINT

/-- The pins of a generator that holds the word since the state `s`, before clock `n`: the direction
is that of the output if it makes at least one step, and the pulse is as long as its steps. -/
structure Drives (M : ℕ) (output : ℚ) (word : BitVec 16) (s : PwmGenerator) (n : ℕ) : Prop where
  forwards : ((s.hold MAX_COUNT word n).dirA = true ∧ (s.hold MAX_COUNT word n).dirB = false) ↔
    steps M output ≠ 0 ∧ 0 < output
  backwards : ((s.hold MAX_COUNT word n).dirA = false ∧ (s.hold MAX_COUNT word n).dirB = true) ↔
    steps M output ≠ 0 ∧ output < 0
  still : ((s.hold MAX_COUNT word n).dirA = false ∧ (s.hold MAX_COUNT word n).dirB = false) ↔
    steps M output = 0
  pulses : ((Finset.Ico n (n + 2048)).filter fun m => (s.hold MAX_COUNT word m).pwmOut).card =
    steps M output

lemma steps_zero (M : ℕ) : steps M 0 = 0 := by simp [steps]

lemma Encodes.command {M : ℕ} {output : ℚ} {word : BitVec 16} (h : Encodes M output word) :
    PwmGenerator.magnitude 2048 word.toNat = steps M output ∧
      (2048 < PwmGenerator.clamped 2048 word.toNat ↔ steps M output ≠ 0 ∧ 0 < output) ∧
      (PwmGenerator.clamped 2048 word.toNat < 2048 ↔ steps M output ≠ 0 ∧ output < 0) := by
  have hvalue := h.value
  have hrange := h.range
  have hzero : output = 0 → steps M output = 0 := fun h₀ => h₀ ▸ steps_zero M
  unfold PWM_MID_POINT signed at hvalue
  unfold PWM_MID_POINT at hrange
  unfold PwmGenerator.magnitude PwmGenerator.clamped
  rcases lt_trichotomy output 0 with hneg | h₀ | hpos
  · rw [if_neg (not_lt.2 hneg.le)] at hvalue
    have hnot : ¬ 0 < output := not_lt.2 hneg.le
    simp only [hneg, hnot, and_true, and_false, iff_false]
    omega
  · have hm := hzero h₀
    rw [if_neg (by rw [h₀]; exact lt_irrefl 0)] at hvalue
    simp only [hm, ne_eq, not_true_eq_false, false_and, iff_false]
    omega
  · rw [if_pos hpos] at hvalue
    have hnot : ¬ output < 0 := not_lt.2 hpos.le
    simp only [hpos, hnot, and_true, and_false, iff_false]
    omega

lemma Encodes.direction {M : ℕ} {output : ℚ} {word : BitVec 16} (h : Encodes M output word)
    {dirA dirB : Bool} (hA : dirA = true ↔ 2048 < PwmGenerator.clamped 2048 word.toNat)
    (hB : dirB = true ↔ PwmGenerator.clamped 2048 word.toNat < 2048) :
    ((dirA = true ∧ dirB = false) ↔ steps M output ≠ 0 ∧ 0 < output) ∧
      ((dirA = false ∧ dirB = true) ↔ steps M output ≠ 0 ∧ output < 0) ∧
      ((dirA = false ∧ dirB = false) ↔ steps M output = 0) := by
  obtain ⟨-, hgt, hlt⟩ := h.command
  rw [hgt] at hA
  rw [hlt] at hB
  have hA' := not_congr hA
  have hB' := not_congr hB
  rw [Bool.not_eq_true] at hA' hB'
  have hzero : output = 0 → steps M output = 0 := fun h₀ => h₀ ▸ steps_zero M
  refine ⟨?_, ?_, ?_⟩
  · rw [hA, hB']
    refine ⟨fun e => e.1, fun e => ⟨e, fun e' => absurd e.2 (not_lt.2 e'.2.le)⟩⟩
  · rw [hA', hB]
    refine ⟨fun e => e.2, fun e => ⟨fun e' => absurd e'.2 (not_lt.2 e.2.le), e⟩⟩
  · rw [hA', hB']
    constructor
    · rintro ⟨hpos, hneg⟩
      by_contra hm
      rcases lt_trichotomy output 0 with hlt | h₀ | hgt
      · exact hneg ⟨hm, hlt⟩
      · exact hm (hzero h₀)
      · exact hpos ⟨hm, hgt⟩
    · exact fun hm => ⟨fun e => e.1 hm, fun e => e.1 hm⟩

theorem drives_of_encodes {M : ℕ} {output : ℚ} {word : BitVec 16} (h : Encodes M output word)
    {s : PwmGenerator}
    (hs : Reachable (PwmGenerator.step MAX_COUNT) (PwmGenerator.reset MAX_COUNT) s) {n : ℕ}
    (hn : 3 ≤ n) : Drives M output word s n := by
  obtain ⟨hA, hB, hcard⟩ := PwmGenerator.steady maxCount_even hs word hn
  obtain ⟨hforwards, hbackwards, hstill⟩ := h.direction hA hB
  exact ⟨hforwards, hbackwards, hstill, hcard.trans h.command.1⟩

lemma abs_le_one_of_limited {output : ℚ} (h : output ∈ limited) : |output| ≤ 1 := by
  refine abs_le.2 ⟨?_, ?_⟩
  · linarith [h.1]
  · linarith [h.2]

lemma exists_yawPwm {u : ℚ} (hu : u ∈ limited) :
    ∃ word, yawPwm u = some word ∧ Encodes 2048 u word := by
  obtain ⟨word, hword, hvalue, hrange⟩ := yawPwm_eq (abs_le_one_of_limited hu)
  exact ⟨word, hword, hvalue, hrange⟩

lemma exists_pitchPwm {v : ℚ} (hv : v ∈ limited) :
    ∃ word, pitchPwm v = some word ∧ Encodes 512 v word := by
  obtain ⟨word, hword, hvalue, hrange⟩ := pitchPwm_eq (abs_le_one_of_limited hv)
  exact ⟨word, hword, hvalue, hrange⟩

/-- **From the controllers to the pins.** For every pair of limited outputs the words are defined
and encode them, and a generator that holds such a word drives its motor as the output asks, from
the third clock on and from every state it can be in. -/
theorem outputs_reach_pins {u v : ℚ} (hu : u ∈ limited) (hv : v ∈ limited) :
    ∃ yawWord pitchWord, yawPwm u = some yawWord ∧ pitchPwm v = some pitchWord ∧
      Encodes 2048 u yawWord ∧ Encodes 512 v pitchWord ∧
      ∀ s, Reachable (PwmGenerator.step MAX_COUNT) (PwmGenerator.reset MAX_COUNT) s →
        ∀ n, 3 ≤ n → Drives 2048 u yawWord s n ∧ Drives 512 v pitchWord s n := by
  obtain ⟨yawWord, hyaw, hyawEnc⟩ := exists_yawPwm hu
  obtain ⟨pitchWord, hpitch, hpitchEnc⟩ := exists_pitchPwm hv
  refine ⟨yawWord, pitchWord, hyaw, hpitch, hyawEnc, hpitchEnc, fun s hs n hn => ⟨?_, ?_⟩⟩
  · exact drives_of_encodes hyawEnc hs hn
  · exact drives_of_encodes hpitchEnc hs hn

theorem half_and_quarter_reach_pins :
    ∃ yawWord pitchWord, yawPwm (1 / 2) = some yawWord ∧ pitchPwm (-1 / 4) = some pitchWord ∧
      Drives 2048 (1 / 2) yawWord (PwmGenerator.reset MAX_COUNT) 3 ∧
      Drives 512 (-1 / 4) pitchWord (PwmGenerator.reset MAX_COUNT) 3 := by
  obtain ⟨yawWord, pitchWord, hyaw, hpitch, -, -, hdrive⟩ :=
    outputs_reach_pins (u := 1 / 2) (v := -1 / 4) ⟨by norm_num, by norm_num⟩
      ⟨by norm_num, by norm_num⟩
  exact ⟨yawWord, pitchWord, hyaw, hpitch, hdrive _ .start 3 le_rfl⟩

end PanTilt.System
