import PanTilt.Fpga.TopEntity
import PanTilt.System.Angle
import PanTilt.System.MotorDrive

/-!
What the program sees of either design: a device that answers transfers.

A `Device` has the four modules of the axes, run on some PWM words, and transfers in the order of
time. It answers each one with the two positions of one clock, and the words of a transfer stand for
a while after it. This is all that the angles of the program (`Device.reports`) and the drive of the
motors (`Device.driven`) need of a design.
-/

namespace PanTilt.System

open App Fpga Lib.Clocked Lib.Quadrature

/-- A design as the program uses it, after a reset: `pair j` are the words of transfer `j`, the
pitch first, `received j` is its answer, and `axes n` are the modules before clock `n`. -/
structure Device (pitchEnc yawEnc : ℕ → Level) (pair : ℕ → BitVec 16 × BitVec 16)
    (received : ℕ → BitVec 32) (axes : ℕ → Axes) where
  clock : ℕ → ℕ
  mono : StrictMono clock
  answer : ∀ j, received j =
    (Encoder.run pitchEnc (clock j)).count ++ (Encoder.run yawEnc (clock j)).count
  since : ℕ → ℕ
  til : ℕ → ℕ
  pitchPwm : ℕ → BitVec 16
  yawPwm : ℕ → BitVec 16
  run : ∀ n, axes n = Axes.run MAX_COUNT pitchEnc yawEnc pitchPwm yawPwm n
  held : ∀ j n, since j ≤ n → n < til j → pitchPwm n = (pair j).1 ∧ yawPwm n = (pair j).2

/-! ### Angles -/

/-- The angles of both axes that the program reads off its settings after the transfers `r` of the
control loop: linear in the displacements of two motions, for each axis whose stops are apart. -/
structure Reports (settings : Reads → Settings) (pitch yaw : Motion) (clock : ℕ → ℕ) (c : Cpu) :
    Prop where
  pitch : pitch.displacement (beginClock clock c) ≠ pitch.displacement (endClock clock c) →
    Linear PITCH_MIN_RAD PITCH_MAX_RAD (pitch.displacement (beginClock clock c))
      (pitch.displacement (endClock clock c)) (fun r => pitch.displacement (lastClock clock c r))
      (fun r => (getRadFromEncoder (settings r)).1)
  yaw : yaw.displacement (beginClock clock c) ≠ yaw.displacement (endClock clock c) →
    Linear YAW_MIN_RAD YAW_MAX_RAD (yaw.displacement (beginClock clock c))
      (yaw.displacement (endClock clock c)) (fun r => yaw.displacement (lastClock clock c r))
      (fun r => (getRadFromEncoder (settings r)).2)

/-- The settings after `homing_sequence` and the transfers `r` of the control loop, with the answers
of a device. -/
def settingsOf (pl : Platform) (received : ℕ → BitVec 32) (c : Cpu) (r : Reads) : Settings :=
  (execAll pl received c (homingSequence ++ r.1)).settings

theorem Device.reports (pl : Platform) {pitch yaw : Motion} {pair : ℕ → BitVec 16 × BitVec 16}
    {received : ℕ → BitVec 32} {axes : ℕ → Axes}
    (D : Device pitch.level yaw.level pair received axes) (c : Cpu) :
    Reports (settingsOf pl received c) pitch yaw D.clock c := by
  have hanswers : received =
      answers (fun k => pitch.count (D.clock k)) fun k => yaw.count (D.clock k) := funext D.answer
  have hsettings : settingsOf pl received c = settingsAfter pl pitch yaw D.clock c :=
    congrArg (settingsOf pl · c) hanswers
  rw [hsettings]
  refine ⟨?_, ?_⟩
  · simp only [getRadFromEncoder]
    exact linear_of_captured PITCH_RAD_lt (settingsAfter_pitch pl pitch yaw D.clock c)
  · simp only [getRadFromEncoder]
    exact linear_of_captured YAW_RAD_lt (settingsAfter_yaw pl pitch yaw D.clock c)

/-! ### Drive -/

/-- The pins of a generator around clock `n` of its run: the direction is that of the output if it
makes at least one step, and the pulse is as long as its steps. -/
structure Driven (M : ℕ) (output : ℚ) (g : ℕ → PwmGenerator) (n : ℕ) : Prop where
  forwards : ((g n).dirA = true ∧ (g n).dirB = false) ↔ steps M output ≠ 0 ∧ 0 < output
  backwards : ((g n).dirA = false ∧ (g n).dirB = true) ↔ steps M output ≠ 0 ∧ output < 0
  still : ((g n).dirA = false ∧ (g n).dirB = false) ↔ steps M output = 0
  pulses : ((Finset.Ico n (n + 2048)).filter fun m => (g m).pwmOut).card = steps M output

/-- A generator on the words `duty`, from clock 0 after a reset. -/
def generator (duty : ℕ → BitVec 16) : ℕ → PwmGenerator :=
  PwmGenerator.run MAX_COUNT fun m => { rst := false, dutyCycle := duty m }

lemma generator_hold {word : BitVec 16} {duty : ℕ → BitVec 16} {a N : ℕ}
    (hword : ∀ m < N, duty (a + m) = word) {m : ℕ} (hm : m ≤ N) :
    generator duty (a + m) = (generator duty a).hold MAX_COUNT word m := by
  rw [generator, PwmGenerator.run, PwmGenerator.hold, trace_add]
  refine trace_congr fun i hi => ?_
  rw [hword i (by omega)]

lemma card_pulses {g g' : ℕ → PwmGenerator} {a n : ℕ}
    (h : ∀ m < n + 2048, g (a + m) = g' m) :
    ((Finset.Ico (a + n) (a + n + 2048)).filter fun m => (g m).pwmOut).card =
      ((Finset.Ico n (n + 2048)).filter fun m => (g' m).pwmOut).card := by
  rw [Nat.add_assoc, ← Finset.map_add_left_Ico, Finset.filter_map, Finset.card_map]
  refine congrArg Finset.card (Finset.filter_congr fun m hm => ?_)
  rw [← h m (Finset.mem_Ico.1 hm).2]
  rfl

/-- The pins of a generator around clock `n` of its run, as a word asks, whatever word it is: the
direction is the side of the midpoint on which the clamped word lies, and the pulse is as long as
its distance from the midpoint. -/
structure Commanded (word : BitVec 16) (g : ℕ → PwmGenerator) (n : ℕ) : Prop where
  forwards : (g n).dirA = true ↔ 2048 < PwmGenerator.clamped 2048 word.toNat
  backwards : (g n).dirB = true ↔ PwmGenerator.clamped 2048 word.toNat < 2048
  pulses : ((Finset.Ico n (n + 2048)).filter fun m => (g m).pwmOut).card =
    PwmGenerator.magnitude 2048 word.toNat

/-- **A word that stands commands its generator**, from the third clock on. -/
theorem commanded_of_stands {word : BitVec 16} {duty : ℕ → BitVec 16} {a n : ℕ} (hn : a + 3 ≤ n)
    (hword : ∀ m, a ≤ m → m < n + 2047 → duty m = word) : Commanded word (generator duty) n := by
  obtain ⟨i, rfl⟩ : ∃ i, n = a + i := ⟨n - a, by omega⟩
  have hhold : ∀ m < i + 2048, generator duty (a + m) =
      (generator duty a).hold MAX_COUNT word m := fun m hm =>
    generator_hold (N := i + 2047) (fun k hk => hword (a + k) (by omega) (by omega)) (by omega)
  obtain ⟨hA, hB, hcard⟩ := PwmGenerator.steady maxCount_even (s := generator duty a)
    (reachable_trace _ _ _ a) word (n := i) (by omega)
  rw [← hhold i (by omega)] at hA hB
  exact ⟨hA, hB, (card_pulses hhold).trans hcard⟩

lemma Commanded.driven {M : ℕ} {output : ℚ} {word : BitVec 16} {g : ℕ → PwmGenerator} {n : ℕ}
    (h : Commanded word g n) (hencodes : Encodes M output word) : Driven M output g n := by
  obtain ⟨hforwards, hbackwards, hstill⟩ := hencodes.direction h.forwards h.backwards
  exact ⟨hforwards, hbackwards, hstill, h.pulses.trans hencodes.command.1⟩

lemma generators_eq {pitchEnc yawEnc : ℕ → Level} {pitchPwm yawPwm : ℕ → BitVec 16}
    {axes : ℕ → Axes} (hrun : ∀ n, axes n = Axes.run MAX_COUNT pitchEnc yawEnc pitchPwm yawPwm n) :
    (fun m => (axes m).pitchPwmGenerator) = generator pitchPwm ∧
      (fun m => (axes m).yawPwmGenerator) = generator yawPwm := by
  have hgen := fun m => Axes.generators_run MAX_COUNT pitchEnc yawEnc pitchPwm yawPwm m
  exact ⟨funext fun m => (congrArg Axes.pitchPwmGenerator (hrun m)).trans (hgen m).1,
    funext fun m => (congrArg Axes.yawPwmGenerator (hrun m)).trans (hgen m).2⟩

/-- The pins of both motors around clock `n`, when the generators hold the words of two controller
outputs: they drive the motors as the outputs ask. -/
def DrivenBy (pair : BitVec 16 × BitVec 16) (axes : ℕ → Axes) (n : ℕ) : Prop :=
  ∀ u v : ℚ, Encodes 2048 u pair.2 → Encodes 512 v pair.1 →
    Driven 2048 u (fun m => (axes m).yawPwmGenerator) n ∧
      Driven 512 v (fun m => (axes m).pitchPwmGenerator) n

theorem drivenBy_of_held {pitchEnc yawEnc : ℕ → Level} {pitchPwm yawPwm : ℕ → BitVec 16}
    {axes : ℕ → Axes} (hrun : ∀ n, axes n = Axes.run MAX_COUNT pitchEnc yawEnc pitchPwm yawPwm n)
    {pair : BitVec 16 × BitVec 16} {a n : ℕ} (hn : a + 3 ≤ n)
    (hheld : ∀ m, a ≤ m → m < n + 2047 → pitchPwm m = pair.1 ∧ yawPwm m = pair.2) :
    DrivenBy pair axes n := by
  intro u v hyaw hpitch
  obtain ⟨hpitchGen, hyawGen⟩ := generators_eq hrun
  rw [hyawGen, hpitchGen]
  exact ⟨(commanded_of_stands hn fun m hm hm' => (hheld m hm hm').2).driven hyaw,
    (commanded_of_stands hn fun m hm hm' => (hheld m hm hm').1).driven hpitch⟩

theorem Device.driven {pitchEnc yawEnc : ℕ → Level} {pair : ℕ → BitVec 16 × BitVec 16}
    {received : ℕ → BitVec 32} {axes : ℕ → Axes} (D : Device pitchEnc yawEnc pair received axes)
    {j n : ℕ} (hsince : D.since j + 3 ≤ n) (htil : n + 2047 ≤ D.til j) : DrivenBy (pair j) axes n :=
  drivenBy_of_held D.run hsince fun m hm hm' => D.held j m hm (by omega)

end PanTilt.System
