import Mathlib.Data.Int.ConditionallyCompleteOrder
import PanTilt.App.HwInterface
import PanTilt.Fpga.Encoder
import PanTilt.Lib.Interpolate

/-!
From the motion of the motors to the angles the program works with.

An encoder counts modulo `ENCODER_MAX` from the middle of its range, `homing_sequence` and the
transfers of the control loop capture counts, and `get_rad_from_encoder` puts the last count on the
scale of the two stops. As long as no count wraps, that scale is linear in the displacement of the
motor, on whichever side of each other the stops are.
-/

namespace PanTilt.System

open App Fpga Lib.Interpolate Lib.Quadrature

/-- A motion of one motor since reset: one bit changes at a time, and the displacement never takes
the count out of its range. -/
structure Motion where
  level : ℕ → Level
  legal : Legal level
  noWrap : ∀ n, Encoder.displacement level n ∈ Set.Icc (-32000) 31999

namespace Motion

/-- The count of the encoder at clock `n`. -/
def count (m : Motion) (n : ℕ) : BitVec 16 := (Encoder.run m.level n).count

/-- The displacement that the count of clock `n` stands for. -/
def displacement (m : Motion) (n : ℕ) : ℤ := Encoder.displacement m.level n

theorem count_eq (m : Motion) (n : ℕ) :
    ((m.count n).toNat : ℤ) = 32000 + m.displacement n := by
  have hcount := (Encoder.count_run m.level n).2
  obtain ⟨hlo, hhi⟩ := m.noWrap n
  rw [count, displacement, hcount]
  omega

theorem displacement_eq (m : Motion) {p : ℕ → ℤ} (hp : IsPosition m.level p) {n : ℕ} (hn : 3 ≤ n) :
    m.displacement n = Encoder.resetOffset (m.level 0) + (p (n - 3) - p 0) := by
  rw [displacement, Encoder.displacement, if_neg (by omega), hp.sub_eq m.legal]

lemma count_ne (m : Motion) {b e : ℕ} (h : m.displacement b ≠ m.displacement e) :
    m.count b ≠ m.count e := by
  intro heq
  have hb := m.count_eq b
  have he := m.count_eq e
  rw [heq] at hb
  exact h (by omega)

theorem radFromCounts_eq (m : Motion) (minRad maxRad : ℚ) (settings : Slot → BitVec 16)
    {b e n : ℕ} (hb : settings .beginStop = m.count b) (he : settings .endStop = m.count e)
    (hn : settings .current = m.count n) (hne : m.displacement b ≠ m.displacement e) :
    radFromCounts minRad maxRad settings =
      interpolate minRad maxRad (m.displacement b : ℚ) (m.displacement e) (m.displacement n) := by
  rw [radFromCounts, hb, he, hn, if_neg (m.count_ne hne), m.count_eq b, m.count_eq e, m.count_eq n,
    interpolate]
  push_cast
  rw [add_sub_add_left_eq_sub, add_sub_add_left_eq_sub]

end Motion

/-- The angles of one axis in a program run: `angle r` is the one after the transfers `r` of the
control loop, the last of them made at displacement `d r`, and `b` and `e` are the displacements at
which the stops were captured. -/
structure Linear (minRad maxRad : ℚ) (b e : ℤ) {R : Type*} (d : R → ℤ) (angle : R → ℚ) :
    Prop where
  eq : ∀ r, angle r = minRad + (d r - b : ℚ) / (e - b) * (maxRad - minRad)
  mem : ∀ r, angle r ∈ Set.Icc minRad maxRad ↔ d r ∈ Set.uIcc b e
  up : b < e → ∀ r r', d r < d r' → angle r < angle r'
  down : e < b → ∀ r r', d r < d r' → angle r' < angle r

lemma mem_uIcc_cast {b e d : ℤ} : (d : ℚ) ∈ Set.uIcc (b : ℚ) e ↔ d ∈ Set.uIcc b e := by
  rw [Set.mem_uIcc, Set.mem_uIcc]
  norm_cast

theorem linear_of_interpolate {minRad maxRad : ℚ} (hlt : minRad < maxRad) {b e : ℤ} (hne : b ≠ e)
    {R : Type*} {d : R → ℤ} {angle : R → ℚ}
    (h : ∀ r, angle r = interpolate minRad maxRad (b : ℚ) e (d r)) :
    Linear minRad maxRad b e d angle where
  eq := h
  mem r := by
    rw [h, interpolate_mem_iff hlt (Int.cast_injective.ne hne), mem_uIcc_cast]
  up hbe r r' hd := by
    rw [h, h]
    exact interpolate_lt hlt (Int.cast_lt.2 hbe) (Int.cast_lt.2 hd)
  down hbe r r' hd := by
    rw [h, h]
    exact interpolate_gt hlt (Int.cast_lt.2 hbe) (Int.cast_lt.2 hd)

lemma PITCH_RAD_lt : PITCH_MIN_RAD < PITCH_MAX_RAD := by norm_num [PITCH_MIN_RAD, PITCH_MAX_RAD]

lemma YAW_RAD_lt : YAW_MIN_RAD < YAW_MAX_RAD := by norm_num [YAW_MIN_RAD, YAW_MAX_RAD]

theorem linear_of_captured {m : Motion} {minRad maxRad : ℚ} (hlt : minRad < maxRad) {b e : ℕ}
    {R : Type*} {t : R → ℕ} {settings : R → Slot → BitVec 16}
    (h : ∀ r, settings r .beginStop = m.count b ∧ settings r .endStop = m.count e ∧
      settings r .current = m.count (t r)) (hne : m.displacement b ≠ m.displacement e) :
    Linear minRad maxRad (m.displacement b) (m.displacement e) (fun r => m.displacement (t r))
      (fun r => radFromCounts minRad maxRad (settings r)) := by
  refine linear_of_interpolate hlt hne fun r => ?_
  obtain ⟨hb, he, hn⟩ := h r
  exact m.radFromCounts_eq minRad maxRad (settings r) hb he hn hne

/-- Transfers of the control loop, at least one. -/
def Reads : Type := { ops : List HwOp // Into .current ops ∧ ops ≠ [] }

section Run

variable (pl : Platform) (pitch yaw : Motion) (clock : ℕ → ℕ) (c : Cpu)

/-- The settings after `homing_sequence` and the transfers `r` of the control loop, when transfer
number `k` brings the counts of clock `clock k`. -/
def settingsAfter (r : Reads) : Settings :=
  (execAll pl (answers (fun k => pitch.count (clock k)) fun k => yaw.count (clock k)) c
    (homingSequence ++ r.1)).settings

/-- The clocks at which the begin stop, the end stop and the last position are captured. -/
def beginClock : ℕ := clock (c.transfers + 1002)

def endClock : ℕ := clock (c.transfers + 2004)

def lastClock (r : Reads) : ℕ := clock (c.transfers + 2004 + r.1.length)

lemma settingsAfter_pitch (r : Reads) :
    (settingsAfter pl pitch yaw clock c r).pitch .beginStop = pitch.count (beginClock clock c) ∧
      (settingsAfter pl pitch yaw clock c r).pitch .endStop = pitch.count (endClock clock c) ∧
      (settingsAfter pl pitch yaw clock c r).pitch .current =
        pitch.count (lastClock clock c r) := by
  rw [settingsAfter]
  exact (captured pl (fun k => pitch.count (clock k)) (fun k => yaw.count (clock k)) c r.2.1
    r.2.2).1

lemma settingsAfter_yaw (r : Reads) :
    (settingsAfter pl pitch yaw clock c r).yaw .beginStop = yaw.count (beginClock clock c) ∧
      (settingsAfter pl pitch yaw clock c r).yaw .endStop = yaw.count (endClock clock c) ∧
      (settingsAfter pl pitch yaw clock c r).yaw .current = yaw.count (lastClock clock c r) := by
  rw [settingsAfter]
  exact (captured pl (fun k => pitch.count (clock k)) (fun k => yaw.count (clock k)) c r.2.1
    r.2.2).2

/-- **The reported angles are linear in the displacements of the motors**, for all motions on which
no count wraps, all transfers of the control loop, and each axis whose stops are apart. -/
theorem angles_linear :
    (pitch.displacement (beginClock clock c) ≠ pitch.displacement (endClock clock c) →
      Linear PITCH_MIN_RAD PITCH_MAX_RAD (pitch.displacement (beginClock clock c))
        (pitch.displacement (endClock clock c)) (fun r => pitch.displacement (lastClock clock c r))
        (fun r => (getRadFromEncoder (settingsAfter pl pitch yaw clock c r)).1)) ∧
      (yaw.displacement (beginClock clock c) ≠ yaw.displacement (endClock clock c) →
        Linear YAW_MIN_RAD YAW_MAX_RAD (yaw.displacement (beginClock clock c))
          (yaw.displacement (endClock clock c)) (fun r => yaw.displacement (lastClock clock c r))
          (fun r => (getRadFromEncoder (settingsAfter pl pitch yaw clock c r)).2)) := by
  have hpitch := linear_of_captured PITCH_RAD_lt (settingsAfter_pitch pl pitch yaw clock c)
  have hyaw := linear_of_captured YAW_RAD_lt (settingsAfter_yaw pl pitch yaw clock c)
  simp only [getRadFromEncoder]
  exact ⟨hpitch, hyaw⟩

end Run

/-! ### A run -/

/-- The levels of a motor that makes one move before clock `N`. -/
def moveLevel (N : ℕ) (l : Level) (n : ℕ) : Level := if n < N then (false, false) else l

lemma position_moveLevel {N : ℕ} (hN : 0 < N) (l : Level) (n : ℕ) :
    position (moveLevel N l) n = if n < N then 0 else move (false, false) l := by
  induction n with
  | zero => rw [if_pos hN]; rfl
  | succ n ih =>
    rw [position, ih, moveLevel, moveLevel]
    rcases lt_trichotomy (n + 1) N with h | h | h
    · rw [if_pos (by omega), if_pos (by omega), if_pos (by omega), if_pos (by omega), move_self,
        Int.add_zero]
    · rw [if_pos (by omega), if_pos (by omega), if_neg (by omega), if_neg (by omega), Int.zero_add]
    · rw [if_neg (by omega), if_neg (by omega), if_neg (by omega), if_neg (by omega), move_self,
        Int.add_zero]

lemma displacement_moveLevel {N : ℕ} (hN : 0 < N) (l : Level) (n : ℕ) :
    Encoder.displacement (moveLevel N l) n =
      if n < N + 3 then 0 else move (false, false) l := by
  have hoffset : Encoder.resetOffset (moveLevel N l 0) = 0 := by
    rw [moveLevel, if_pos hN]
    rfl
  rw [Encoder.displacement, hoffset, position_moveLevel hN]
  split_ifs <;> first | rfl | omega

/-- The motion of that motor. -/
def moveAt (N : ℕ) (hN : 0 < N) (l : Level) (h : Adjacent (false, false) l) : Motion where
  level := moveLevel N l
  legal n := by
    unfold moveLevel
    rcases lt_trichotomy (n + 1) N with h' | h' | h'
    · rw [if_pos (by omega), if_pos h']
      exact .inl rfl
    · rw [if_pos (by omega), if_neg (by omega)]
      exact h
    · rw [if_neg (by omega), if_neg (by omega)]
      exact .inl rfl
  noWrap n := by
    have hmove := move_le (false, false) l
    rw [displacement_moveLevel hN, Set.mem_Icc]
    split_ifs <;> omega

/-- A motor that makes its move after the begin stop is captured, with transfer `k` at clock `k`. -/
def once (l : Level) (h : Adjacent (false, false) l) : Motion := moveAt 1500 (by decide) l h

/-- The program before its first transfer. -/
def noTransfer : Cpu where
  settings := { pitch := fun _ => 0, yaw := fun _ => 0 }
  transfers := 0

lemma once_apart {l : Level} (h : Adjacent (false, false) l) (hl : move (false, false) l ≠ 0) :
    (once l h).displacement (beginClock id noTransfer) ≠
      (once l h).displacement (endClock id noTransfer) := by
  have hbegin : (once l h).displacement 1002 = 0 :=
    displacement_moveLevel (by decide) l 1002
  have hend : (once l h).displacement 2004 = move (false, false) l :=
    displacement_moveLevel (by decide) l 2004
  rw [show beginClock id noTransfer = 1002 from rfl, show endClock id noTransfer = 2004 from rfl,
    hbegin, hend]
  exact hl.symm

theorem angles_linear_once :
    let pitch := once (false, true) (.inl rfl)
    let yaw := once (true, false) (.inr rfl)
    Linear PITCH_MIN_RAD PITCH_MAX_RAD (pitch.displacement (beginClock id noTransfer))
        (pitch.displacement (endClock id noTransfer))
        (fun r => pitch.displacement (lastClock id noTransfer r))
        (fun r => (getRadFromEncoder (settingsAfter .rpi pitch yaw id noTransfer r)).1) ∧
      Linear YAW_MIN_RAD YAW_MAX_RAD (yaw.displacement (beginClock id noTransfer))
        (yaw.displacement (endClock id noTransfer))
        (fun r => yaw.displacement (lastClock id noTransfer r))
        (fun r => (getRadFromEncoder (settingsAfter .rpi pitch yaw id noTransfer r)).2) := by
  intro pitch yaw
  have hlinear := angles_linear .rpi pitch yaw id noTransfer
  exact ⟨hlinear.1 (once_apart _ (by decide)), hlinear.2 (once_apart _ (by decide))⟩

end PanTilt.System
