import Mathlib.Algebra.Order.Field.Rat
import Mathlib.Logic.Function.Basic
import PanTilt.App.Config
import PanTilt.Lib.Words

/-!
`hw_interface.c`: the accesses of the program to the FPGA.

One call of `read_write_encoder_pwm` sends a pair of PWM words and brings a pair of encoder counts
back, over SPI on the Raspberry Pi and through two registers on the DE10. `readWriteEncoderPwm` is
its data path on both, from the word the FPGA answers; `readWriteEncoderPwm_eq` says that both carry
the two pairs unchanged. The functions that only string accesses together are lists of accesses
(`HwOp`), and `exec` runs one access against the answers of the FPGA.
-/

namespace PanTilt.App

open Lib.Words

/-! ### The two transports -/

/-- The four bytes the driver sends over SPI. -/
def txBuf (pitchPwm yawPwm : BitVec 16) : List (BitVec 8) :=
  [((pitchPwm >>> 8) &&& 0xFF).setWidth 8, (pitchPwm &&& 0xFF).setWidth 8,
    ((yawPwm >>> 8) &&& 0xFF).setWidth 8, (yawPwm &&& 0xFF).setWidth 8]

/-- Two received bytes as one encoder count; a plain `char` is unsigned on ARM. -/
def fromBytes (hi lo : BitVec 8) : BitVec 16 := (hi.setWidth 16 <<< 8) ||| lo.setWidth 16

/-- The encoder counts in the four received bytes. -/
def decodeRx (rx : List (BitVec 8)) : BitVec 16 × BitVec 16 :=
  (fromBytes (rx.getD 0 0) (rx.getD 1 0), fromBytes (rx.getD 2 0) (rx.getD 3 0))

/-- The bits of a buffer on the wire, each byte with its highest bit first. -/
def wireBits (buf : List (BitVec 8)) : List Bool := buf.flatMap bitsOf

/-- The four bytes of 32 bits of the wire. -/
def rxBuf (bits : List Bool) : List (BitVec 8) :=
  [wordOf 8 (bits.take 8), wordOf 8 ((bits.drop 8).take 8), wordOf 8 ((bits.drop 16).take 8),
    wordOf 8 ((bits.drop 24).take 8)]

/-- The word the driver stores in the PWM register of the DE10. -/
def pwmRegister (pitchPwm yawPwm : BitVec 16) : BitVec 32 :=
  (pitchPwm.setWidth 32 <<< 16) ||| yawPwm.setWidth 32

/-- The encoder counts in the encoder register of the DE10. -/
def decodeRegister (encoderVals : BitVec 32) : BitVec 16 × BitVec 16 :=
  ((encoderVals >>> 16).setWidth 16, (encoderVals &&& 0xFFFF).setWidth 16)

/-- `read_write_encoder_pwm`: the bits or the word that go out, as one word, and the encoder counts
read from the word that comes in. -/
def readWriteEncoderPwm (pl : Platform) (answer : BitVec 32) (pitchPwm yawPwm : BitVec 16) :
    BitVec 32 × (BitVec 16 × BitVec 16) :=
  match pl with
  | .rpi => (wordOf 32 (wireBits (txBuf pitchPwm yawPwm)), decodeRx (rxBuf (bitsOf answer)))
  | .de10 => (pwmRegister pitchPwm yawPwm, decodeRegister answer)

lemma getLsbD_ff : ∀ i < 8, (0xFF : BitVec 16).getLsbD i = true := by decide

lemma bytes_append (v : BitVec 16) :
    ((v >>> 8) &&& 0xFF).setWidth 8 ++ (v &&& 0xFF).setWidth 8 = v := by
  apply BitVec.eq_of_getLsbD_eq
  intro i hi
  rw [BitVec.getLsbD_append]
  by_cases h : i < 8
  · rw [if_pos h, BitVec.getLsbD_setWidth, BitVec.getLsbD_and, getLsbD_ff i h]
    simp [h]
  · have h' : i - 8 < 8 := by omega
    rw [if_neg h, BitVec.getLsbD_setWidth, BitVec.getLsbD_and, BitVec.getLsbD_ushiftRight,
      getLsbD_ff _ h', show 8 + (i - 8) = i by omega]
    simp [h']

lemma fromBytes_eq (hi lo : BitVec 8) : fromBytes hi lo = hi ++ lo := by
  apply BitVec.eq_of_getLsbD_eq
  intro i hlt
  rw [BitVec.getLsbD_append, fromBytes, BitVec.getLsbD_or, BitVec.getLsbD_shiftLeft]
  by_cases h : i < 8
  · simp [h, hlt]
  · simp [h, hlt, BitVec.getLsbD_of_ge lo i (by omega), show i - 8 < 16 by omega]

theorem wireBits_txBuf (pitchPwm yawPwm : BitVec 16) :
    wireBits (txBuf pitchPwm yawPwm) = bitsOf (pitchPwm ++ yawPwm) := by
  rw [bitsOf_append]
  conv_rhs => rw [← bytes_append pitchPwm, ← bytes_append yawPwm]
  rw [bitsOf_append, bitsOf_append]
  simp [wireBits, txBuf]

theorem decodeRx_rxBuf (pitch yaw : BitVec 16) :
    decodeRx (rxBuf (bitsOf (pitch ++ yaw))) = (pitch, yaw) := by
  have h : ∀ v : BitVec 16, fromBytes (wordOf 8 ((bitsOf v).take 8))
      (wordOf 8 ((bitsOf v).drop 8)) = v := fun v => by
    conv_lhs => rw [← bytes_append v]
    rw [bitsOf_append, List.take_left' (length_bitsOf _), List.drop_left' (length_bitsOf _),
      wordOf_bitsOf, wordOf_bitsOf, fromBytes_eq, bytes_append]
  have hp := length_bitsOf pitch
  have hy := length_bitsOf yaw
  have h₀ : (bitsOf pitch ++ bitsOf yaw).take 8 = (bitsOf pitch).take 8 :=
    List.take_append_of_le_length (by omega)
  have h₁ : ((bitsOf pitch ++ bitsOf yaw).drop 8).take 8 = (bitsOf pitch).drop 8 := by
    rw [List.drop_append_of_le_length (by omega), List.take_left' (by rw [List.length_drop]; omega)]
  have h₂ : (bitsOf pitch ++ bitsOf yaw).drop 16 = bitsOf yaw := List.drop_left' hp
  have h₃ : ((bitsOf pitch ++ bitsOf yaw).drop 24).take 8 = (bitsOf yaw).drop 8 := by
    rw [show 24 = 16 + 8 by rfl, ← List.drop_drop, h₂, List.take_of_length_le]
    rw [List.length_drop]
    omega
  rw [bitsOf_append]
  unfold decodeRx rxBuf
  rw [h₀, h₁, h₂, h₃]
  simp only [List.getD_cons_zero, List.getD_cons_succ, h]

theorem pwmRegister_eq (pitchPwm yawPwm : BitVec 16) :
    pwmRegister pitchPwm yawPwm = pitchPwm ++ yawPwm := by
  apply BitVec.eq_of_getLsbD_eq
  intro i hlt
  rw [BitVec.getLsbD_append, pwmRegister, BitVec.getLsbD_or, BitVec.getLsbD_shiftLeft]
  by_cases h : i < 16
  · simp [h, hlt]
  · simp [h, hlt, BitVec.getLsbD_of_ge yawPwm i (by omega), show i - 16 < 32 by omega]

lemma getLsbD_ffff : ∀ i < 16, (0xFFFF : BitVec 32).getLsbD i = true := by decide

theorem decodeRegister_append (pitch yaw : BitVec 16) :
    decodeRegister (pitch ++ yaw) = (pitch, yaw) := by
  refine Prod.ext (BitVec.eq_of_getLsbD_eq ?_) (BitVec.eq_of_getLsbD_eq ?_)
  · intro i hlt
    rw [decodeRegister, BitVec.getLsbD_setWidth, BitVec.getLsbD_ushiftRight, BitVec.getLsbD_append,
      if_neg (by omega), Nat.add_sub_cancel_left]
    simp [hlt]
  · intro i hlt
    rw [decodeRegister, BitVec.getLsbD_setWidth, BitVec.getLsbD_and, getLsbD_ffff i hlt,
      BitVec.getLsbD_append, if_pos hlt]
    simp [hlt]

theorem readWriteEncoderPwm_eq (pl : Platform) (pitch yaw pitchPwm yawPwm : BitVec 16) :
    readWriteEncoderPwm pl (pitch ++ yaw) pitchPwm yawPwm = (pitchPwm ++ yawPwm, (pitch, yaw)) := by
  cases pl with
  | rpi => rw [readWriteEncoderPwm, wireBits_txBuf, wordOf_bitsOf, decodeRx_rxBuf]
  | de10 => rw [readWriteEncoderPwm, pwmRegister_eq, decodeRegister_append]

/-! ### Accesses -/

/-- `get_pwm_value`: the word for a direction and a requested width. The sum is an `int`, cut to 16
bits at the end. -/
def getPwmValue (dir : ℤ) (requestedPwm : BitVec 16) : BitVec 16 :=
  BitVec.ofInt 16 (PWM_MID_POINT + requestedPwm.toNat * dir)

/-- The word at which a motor has no drive. -/
def midWord : BitVec 16 := BitVec.ofNat 16 PWM_MID_POINT

/-- The places of the encoder settings of a motor. -/
inductive Slot
  | start
  | beginStop
  | endStop
  | current
  deriving DecidableEq

/-- One access of the program to the FPGA: the pulse on the reset line of the Raspberry Pi, the
store in the PWM register with which the DE10 is reset, or a call of `read_write_encoder_pwm` whose
counts go to the place `slot` of the encoder settings. -/
inductive HwOp
  | resetLine
  | store (pitchPwm yawPwm : BitVec 16)
  | readWrite (pitchPwm yawPwm : BitVec 16) (slot : Slot)
  deriving DecidableEq

/-- The PWM pair an access writes. -/
def HwOp.pwm : HwOp → Option (BitVec 16 × BitVec 16)
  | .resetLine => none
  | .store p y => some (p, y)
  | .readWrite p y _ => some (p, y)

/-- `reset_fpga`. -/
def resetFpga : Platform → List HwOp
  | .rpi => [.resetLine]
  | .de10 => [.store midWord midWord]

/-- `init_fpga`, with the settings of the current position as its target. -/
def initFpga (pl : Platform) : List HwOp := resetFpga pl ++ [.readWrite midWord midWord .current]

/-- `homing_sequence`: the motors are read at rest, driven to the begin stop for a thousand
transfers, stopped and read, and the same for the end stop. -/
def homingSequence : List HwOp :=
  [.readWrite (getPwmValue (-1) 0) (getPwmValue (-1) 0) .start] ++
    List.replicate 1000 (.readWrite (getPwmValue (-1) 128) (getPwmValue (-1) 512) .beginStop) ++
    [.readWrite (getPwmValue (-1) 0) (getPwmValue (-1) 0) .beginStop,
      .readWrite (getPwmValue (-1) 0) (getPwmValue (-1) 0) .beginStop] ++
    List.replicate 1000 (.readWrite (getPwmValue 1 128) (getPwmValue 1 512) .endStop) ++
    [.readWrite (getPwmValue 1 0) (getPwmValue 1 0) .endStop,
      .readWrite (getPwmValue 1 0) (getPwmValue 1 0) .endStop]

/-- The encoder settings of the two motors: start, begin, end, current. -/
structure Settings where
  pitch : Slot → BitVec 16
  yaw : Slot → BitVec 16

/-- The settings of the program, and the number of transfers made. -/
structure Cpu where
  settings : Settings
  transfers : ℕ

/-- One access, when the FPGA answers `answer k` to transfer number `k`. -/
def exec (pl : Platform) (answer : ℕ → BitVec 32) (c : Cpu) : HwOp → Cpu
  | .readWrite p y slot =>
    let counts := (readWriteEncoderPwm pl (answer c.transfers) p y).2
    { settings :=
        { pitch := Function.update c.settings.pitch slot counts.1
          yaw := Function.update c.settings.yaw slot counts.2 }
      transfers := c.transfers + 1 }
  | .resetLine => c
  | .store _ _ => c

/-- A list of accesses, one after the other. -/
def execAll (pl : Platform) (answer : ℕ → BitVec 32) (c : Cpu) (ops : List HwOp) : Cpu :=
  ops.foldl (exec pl answer) c

/-! ### What the transfers capture -/

section Capture

variable (pl : Platform) (pitch yaw : ℕ → BitVec 16)

/-- The words of an FPGA whose encoder counts are `pitch k` and `yaw k` at transfer number `k`. -/
def answers (k : ℕ) : BitVec 32 := pitch k ++ yaw k

/-- The settings with the counts of transfer number `k` in one place. -/
def Settings.capture (s : Settings) (slot : Slot) (k : ℕ) : Settings where
  pitch := Function.update s.pitch slot (pitch k)
  yaw := Function.update s.yaw slot (yaw k)

lemma exec_readWrite (c : Cpu) (p y : BitVec 16) (slot : Slot) :
    exec pl (answers pitch yaw) c (.readWrite p y slot) =
      { settings := c.settings.capture pitch yaw slot c.transfers
        transfers := c.transfers + 1 } := by
  simp only [exec, answers, readWriteEncoderPwm_eq, Settings.capture]

/-- All accesses are transfers whose counts go to one place. -/
def Into (slot : Slot) (ops : List HwOp) : Prop := ∀ op ∈ ops, ∃ p y, op = .readWrite p y slot

lemma execAll_append (answer : ℕ → BitVec 32) (c : Cpu) (ops ops' : List HwOp) :
    execAll pl answer c (ops ++ ops') = execAll pl answer (execAll pl answer c ops) ops' :=
  List.foldl_append ..

theorem execAll_into {slot : Slot} {ops : List HwOp} (h : Into slot ops) (hne : ops ≠ [])
    (c : Cpu) : execAll pl (answers pitch yaw) c ops =
      { settings := c.settings.capture pitch yaw slot (c.transfers + ops.length - 1)
        transfers := c.transfers + ops.length } := by
  induction ops generalizing c with
  | nil => exact absurd rfl hne
  | cons op ops ih =>
    obtain ⟨p, y, rfl⟩ := h op List.mem_cons_self
    rcases ops with _ | ⟨op, ops⟩
    · exact exec_readWrite pl pitch yaw c p y slot
    · have hops := ih (fun o ho => h o (List.mem_cons_of_mem _ ho)) (List.cons_ne_nil _ _)
        (exec pl (answers pitch yaw) c (.readWrite p y slot))
      rw [execAll, List.foldl_cons, ← execAll, hops, exec_readWrite]
      simp only [Settings.capture, Function.update_idem, List.length_cons,
        show c.transfers + 1 + (ops.length + 1) = c.transfers + (ops.length + 1 + 1) by omega]

/-- One leg of `homing_sequence`: the motors are driven to a stop, stopped and read. -/
def homingLeg (dir : ℤ) (slot : Slot) : List HwOp :=
  List.replicate 1000 (.readWrite (getPwmValue dir 128) (getPwmValue dir 512) slot) ++
    [.readWrite (getPwmValue dir 0) (getPwmValue dir 0) slot,
      .readWrite (getPwmValue dir 0) (getPwmValue dir 0) slot]

lemma homingSequence_eq : homingSequence =
    [.readWrite (getPwmValue (-1) 0) (getPwmValue (-1) 0) .start] ++
      (homingLeg (-1) .beginStop ++ homingLeg 1 .endStop) := by
  simp only [homingSequence, homingLeg, List.append_assoc]

lemma execAll_homingLeg (dir : ℤ) (slot : Slot) (c : Cpu) :
    execAll pl (answers pitch yaw) c (homingLeg dir slot) =
      { settings := c.settings.capture pitch yaw slot (c.transfers + 1001)
        transfers := c.transfers + 1002 } := by
  have hlength : (homingLeg dir slot).length = 1002 := by
    rw [homingLeg, List.length_append, List.length_replicate]
    rfl
  have hinto : Into slot (homingLeg dir slot) := by
    intro op hop
    rcases List.mem_append.1 hop with hop | hop
    · exact ⟨_, _, List.eq_of_mem_replicate hop⟩
    · exact ⟨getPwmValue dir 0, getPwmValue dir 0, by simpa using hop⟩
  rw [execAll_into pl pitch yaw hinto (List.ne_nil_of_length_eq_add_one hlength), hlength]
  rfl

/-- **What `homing_sequence` captures**: the counts at rest, at the begin stop and at the end
stop. -/
theorem execAll_homingSequence (c : Cpu) :
    execAll pl (answers pitch yaw) c homingSequence =
      { settings := ((c.settings.capture pitch yaw .start c.transfers).capture pitch yaw
          .beginStop (c.transfers + 1002)).capture pitch yaw .endStop (c.transfers + 2004)
        transfers := c.transfers + 2005 } := by
  have hfirst := exec_readWrite pl pitch yaw c (getPwmValue (-1) 0) (getPwmValue (-1) 0) .start
  rw [homingSequence_eq, execAll_append, execAll_append, execAll_homingLeg, execAll_homingLeg,
    execAll, List.foldl_cons, List.foldl_nil, hfirst]

/-- **What `get_rad_from_encoder` reads after `homing_sequence` and transfers of the control
loop**: the counts at the stops and those of the last transfer. -/
theorem captured (c : Cpu) {ops : List HwOp} (h : Into .current ops) (hne : ops ≠ []) :
    let s := (execAll pl (answers pitch yaw) c (homingSequence ++ ops)).settings
    (s.pitch .beginStop = pitch (c.transfers + 1002) ∧
        s.pitch .endStop = pitch (c.transfers + 2004) ∧
        s.pitch .current = pitch (c.transfers + 2004 + ops.length)) ∧
      s.yaw .beginStop = yaw (c.transfers + 1002) ∧ s.yaw .endStop = yaw (c.transfers + 2004) ∧
        s.yaw .current = yaw (c.transfers + 2004 + ops.length) := by
  have hlast : c.transfers + 2005 + ops.length - 1 = c.transfers + 2004 + ops.length := by omega
  rw [execAll_append, execAll_homingSequence, execAll_into pl pitch yaw h hne, hlast]
  exact ⟨⟨rfl, rfl, rfl⟩, rfl, rfl, rfl⟩

end Capture

/-! ### Angles -/

/-- One axis of `get_rad_from_encoder`: the differences of counts are taken as `int`. -/
def radFromCounts (minRad maxRad : ℚ) (settings : Slot → BitVec 16) : ℚ :=
  if settings .beginStop = settings .endStop then minRad
  else
    let ratio : ℚ := (((settings .current).toNat : ℤ) - (settings .beginStop).toNat : ℤ) /
      (((settings .endStop).toNat : ℤ) - (settings .beginStop).toNat : ℤ)
    minRad + ratio * (maxRad - minRad)

/-- `get_rad_from_encoder`: the pitch angle and the yaw angle. -/
def getRadFromEncoder (s : Settings) : ℚ × ℚ :=
  (radFromCounts PITCH_MIN_RAD PITCH_MAX_RAD s.pitch,
    radFromCounts YAW_MIN_RAD YAW_MAX_RAD s.yaw)

end PanTilt.App
