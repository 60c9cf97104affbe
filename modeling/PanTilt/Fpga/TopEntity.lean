import PanTilt.Fpga.Encoder
import PanTilt.Fpga.PwmDirection
import PanTilt.Fpga.SpiSlave

/-!
The two designs: `TopEntity.v` for the Raspberry Pi and `DE10_NANO_SoC.v` with `mem_interface.v`.

Both have two encoders and two PWM generators, the four `Axes`, and differ in what stands between
them and the program: the serial slave, or two registers on a bus.

* `Axes.counts_run` and `generators_run`, `TopEntity.spi_run`: each module of a design runs as it
  does alone, on the signals of the others.
* `TopEntity.axes_apart`: what the pins of a motor depend on.
* `De10NanoSoc.pwmVals_run` and `readdata_run`: the two registers after any cycles of the bus.
-/

namespace PanTilt.Fpga

open Lib.Clocked Lib.Quadrature Lib.Words Lib.Spi

/-! ### The axes -/

/-- The encoders and the generators of the two axes. -/
structure Axes where
  pitchEncoder : Encoder
  yawEncoder : Encoder
  pitchPwmGenerator : PwmGenerator
  yawPwmGenerator : PwmGenerator

/-- What the four modules get: their reset, the encoder lines of the motors and the PWM words. -/
structure AxesPins where
  rst : Bool
  pitchEnc : Level
  yawEnc : Level
  pitchPwm : BitVec 16
  yawPwm : BitVec 16

namespace AxesPins

/-- The pins of each of the four modules. -/
def pitchEncoder (i : AxesPins) : Encoder.Pins :=
  { rst := i.rst, a := i.pitchEnc.1, b := i.pitchEnc.2 }

def yawEncoder (i : AxesPins) : Encoder.Pins := { rst := i.rst, a := i.yawEnc.1, b := i.yawEnc.2 }

def pitchPwmGenerator (i : AxesPins) : PwmGenerator.Pins :=
  { rst := i.rst, dutyCycle := i.pitchPwm }

def yawPwmGenerator (i : AxesPins) : PwmGenerator.Pins := { rst := i.rst, dutyCycle := i.yawPwm }

end AxesPins

namespace Axes

variable (MAX_COUNT : BitVec 16)

/-- The four modules after a clock with `rst`. -/
def reset : Axes where
  pitchEncoder := Encoder.reset
  yawEncoder := Encoder.reset
  pitchPwmGenerator := PwmGenerator.reset MAX_COUNT
  yawPwmGenerator := PwmGenerator.reset MAX_COUNT

/-- One rising edge of `clk` on the four modules. -/
def step (s : Axes) (i : AxesPins) : Axes where
  pitchEncoder := s.pitchEncoder.step i.pitchEncoder
  yawEncoder := s.yawEncoder.step i.yawEncoder
  pitchPwmGenerator := s.pitchPwmGenerator.step MAX_COUNT i.pitchPwmGenerator
  yawPwmGenerator := s.yawPwmGenerator.step MAX_COUNT i.yawPwmGenerator

/-- The two positions, the pitch first. -/
def counts (s : Axes) : BitVec 16 × BitVec 16 := (s.pitchEncoder.count, s.yawEncoder.count)

lemma step_rst (s : Axes) (i : AxesPins) (h : i.rst = true) :
    s.step MAX_COUNT i = reset MAX_COUNT := by
  rw [step, Encoder.step_rst _ _ h, Encoder.step_rst _ _ h, PwmGenerator.step_rst _ _ _ h,
    PwmGenerator.step_rst _ _ _ h, reset]

section Run

variable (pitchEnc yawEnc : ℕ → Level) (pitchPwm yawPwm : ℕ → BitVec 16)

/-- The pins outside a reset. -/
def pinsAt (n : ℕ) : AxesPins where
  rst := false
  pitchEnc := pitchEnc n
  yawEnc := yawEnc n
  pitchPwm := pitchPwm n
  yawPwm := yawPwm n

/-- The four modules before clock `n` after a reset. -/
def run (n : ℕ) : Axes :=
  trace (step MAX_COUNT) (reset MAX_COUNT) (pinsAt pitchEnc yawEnc pitchPwm yawPwm) n

theorem counts_run (n : ℕ) : (run MAX_COUNT pitchEnc yawEnc pitchPwm yawPwm n).counts =
    ((Encoder.run pitchEnc n).count, (Encoder.run yawEnc n).count) := by
  have hpitch : (run MAX_COUNT pitchEnc yawEnc pitchPwm yawPwm n).pitchEncoder =
      Encoder.run pitchEnc n :=
    trace_map (fun s : Axes => s.pitchEncoder) AxesPins.pitchEncoder (fun _ _ => rfl) _ n
  have hyaw : (run MAX_COUNT pitchEnc yawEnc pitchPwm yawPwm n).yawEncoder =
      Encoder.run yawEnc n :=
    trace_map (fun s : Axes => s.yawEncoder) AxesPins.yawEncoder (fun _ _ => rfl) _ n
  rw [counts, hpitch, hyaw]

theorem generators_run (n : ℕ) :
    (run MAX_COUNT pitchEnc yawEnc pitchPwm yawPwm n).pitchPwmGenerator =
        PwmGenerator.run MAX_COUNT (fun m => { rst := false, dutyCycle := pitchPwm m }) n ∧
      (run MAX_COUNT pitchEnc yawEnc pitchPwm yawPwm n).yawPwmGenerator =
        PwmGenerator.run MAX_COUNT (fun m => { rst := false, dutyCycle := yawPwm m }) n :=
  ⟨trace_map (fun s : Axes => s.pitchPwmGenerator) AxesPins.pitchPwmGenerator (fun _ _ => rfl) _ n,
    trace_map (fun s : Axes => s.yawPwmGenerator) AxesPins.yawPwmGenerator (fun _ _ => rfl) _ n⟩

end Run

end Axes

/-! ### The design for the Raspberry Pi -/

/-- The modules of `TopEntity`. -/
structure TopEntity where
  axes : Axes
  spiInterface : SpiSlave

namespace TopEntity

/-- The input pins of `TopEntity`. -/
@[ext] structure Pins where
  reset : Bool
  spi : Sample
  pitchEnc : Level
  yawEnc : Level

/-- The local parameter with which the design instantiates its modules. -/
def MAX_COUNT : BitVec 16 := 4096

/-- The design after a clock with `reset`. -/
def reset : TopEntity where
  axes := Axes.reset MAX_COUNT
  spiInterface := SpiSlave.reset MAX_COUNT

/-- What the four modules get, with the PWM words of the serial slave. -/
def axesPins (s : TopEntity) (i : Pins) : AxesPins where
  rst := i.reset
  pitchEnc := i.pitchEnc
  yawEnc := i.yawEnc
  pitchPwm := s.spiInterface.pitchPwm
  yawPwm := s.spiInterface.yawPwm

/-- What the serial slave gets, with the positions of the encoders. -/
def spiPins (s : TopEntity) (i : Pins) : SpiSlave.Pins where
  rst := i.reset
  spiClk := i.spi.clk
  spiPico := i.spi.pico
  spiCs := i.spi.cs
  pitchData := s.axes.pitchEncoder.count
  yawData := s.axes.yawEncoder.count

/-- One rising edge of `clk`. -/
def step (s : TopEntity) (i : Pins) : TopEntity where
  axes := s.axes.step MAX_COUNT (s.axesPins i)
  spiInterface := s.spiInterface.step MAX_COUNT (s.spiPins i)

theorem step_reset (s : TopEntity) (i : Pins) (h : i.reset = true) : s.step i = reset := by
  rw [step, Axes.step_rst MAX_COUNT _ _ h, SpiSlave.step_rst MAX_COUNT _ _ h, reset]

section Run

variable (x : ℕ → Sample) (pitchEnc yawEnc : ℕ → Level)

/-- The pins outside a reset. -/
def pinsAt (n : ℕ) : Pins where
  reset := false
  spi := x n
  pitchEnc := pitchEnc n
  yawEnc := yawEnc n

/-- The design before clock `n` after a reset. -/
def run (n : ℕ) : TopEntity := trace step reset (pinsAt x pitchEnc yawEnc) n

lemma run_succ (n : ℕ) : run x pitchEnc yawEnc (n + 1) =
    (run x pitchEnc yawEnc n).step (pinsAt x pitchEnc yawEnc n) := rfl

/-- The words of the serial slave before each clock. -/
def pitchPwm (n : ℕ) : BitVec 16 := (run x pitchEnc yawEnc n).spiInterface.pitchPwm

def yawPwm (n : ℕ) : BitVec 16 := (run x pitchEnc yawEnc n).spiInterface.yawPwm

theorem axes_run (n : ℕ) : (run x pitchEnc yawEnc n).axes =
    Axes.run MAX_COUNT pitchEnc yawEnc (pitchPwm x pitchEnc yawEnc) (yawPwm x pitchEnc yawEnc) n :=
  trace_map_loop (fun s : TopEntity => s.axes) axesPins (fun _ _ => rfl) reset n

/-- The positions before each clock. -/
def positions (n : ℕ) : BitVec 16 × BitVec 16 :=
  ((Encoder.run pitchEnc n).count, (Encoder.run yawEnc n).count)

theorem spi_run (n : ℕ) : (run x pitchEnc yawEnc n).spiInterface =
    SpiSlave.run MAX_COUNT (SpiSlave.reset MAX_COUNT) x (positions pitchEnc yawEnc) n := by
  have hloop : (run x pitchEnc yawEnc n).spiInterface = trace (SpiSlave.step MAX_COUNT)
      (SpiSlave.reset MAX_COUNT)
      (fun m => (run x pitchEnc yawEnc m).spiPins (pinsAt x pitchEnc yawEnc m)) n :=
    trace_map_loop (fun s : TopEntity => s.spiInterface) spiPins (fun _ _ => rfl) reset n
  rw [hloop, SpiSlave.run]
  refine trace_congr fun m _ => ?_
  have hcounts := (congrArg Axes.counts (axes_run x pitchEnc yawEnc m)).trans
    (Axes.counts_run MAX_COUNT pitchEnc yawEnc _ _ m)
  obtain ⟨hpitch, hyaw⟩ := Prod.mk.inj hcounts
  rw [spiPins, hpitch, hyaw]
  rfl

theorem run_of_reset (s : TopEntity) {i : ℕ → Pins} {R : ℕ} (hR : (i R).reset = true)
    (hlow : ∀ n, (i (R + 1 + n)).reset = false) (n : ℕ) :
    trace step s i (R + 1 + n) = run (fun n => (i (R + 1 + n)).spi)
      (fun n => (i (R + 1 + n)).pitchEnc) (fun n => (i (R + 1 + n)).yawEnc) n := by
  rw [trace_of_reset step_reset s hR, run]
  exact trace_congr fun m _ => Pins.ext (hlow m) rfl rfl rfl

/-- The PWM pair of the last complete frame before sample `n`, or the midpoint twice. -/
def lastPair (n : ℕ) : BitVec 32 :=
  lastFrame (MAX_COUNT >>> 1 ++ MAX_COUNT >>> 1) false (samples x n)

lemma lastPair_of_high {x : ℕ → Sample} {N : ℕ} (h : ∀ m, N ≤ m → (x m).cs = true) (k : ℕ) :
    lastPair x (N + k) = lastPair x N := by
  induction k with
  | zero => rfl
  | succ k ih =>
    have hframes := frames_append_cons (w := 32) false (samples x (N + k)) (h (N + k) (by omega)) []
    rw [frames_nil, List.append_nil] at hframes
    rw [← ih, ← Nat.add_assoc, lastPair, samples_succ, lastFrame, hframes]
    rfl

/-- The words of the serial slave are the halves of the last pair, three clocks late. -/
lemma words_run (n : ℕ) :
    (run x pitchEnc yawEnc n).spiInterface.pitchPwm = (lastPair x (n - 3)).extractLsb 31 16 ∧
      (run x pitchEnc yawEnc n).spiInterface.yawPwm = (lastPair x (n - 3)).extractLsb 15 0 := by
  obtain ⟨hp, hy⟩ := SpiSlave.halves_append (run x pitchEnc yawEnc n).spiInterface.pitchPwm
    (run x pitchEnc yawEnc n).spiInterface.yawPwm
  have hpair : (run x pitchEnc yawEnc n).spiInterface.pitchPwm ++
      (run x pitchEnc yawEnc n).spiInterface.yawPwm = lastPair x (n - 3) := by
    rw [spi_run, SpiSlave.pwm_run, lastPair]
  rw [hpair] at hp hy
  exact ⟨hp.symm, hy.symm⟩

end Run

/-- **The axes are apart.** Two runs after a reset, with any lines and any motion of the motors: the
pins of a motor agree as long as its own halves of the last complete frames do. They depend neither
on the words of the other axis, nor on an encoder, nor on what an incomplete frame brought. -/
theorem axes_apart (x x' : ℕ → Sample) (pitchEnc yawEnc pitchEnc' yawEnc' : ℕ → Level) (n : ℕ) :
    ((∀ m < n, (lastPair x (m - 3)).extractLsb 31 16 = (lastPair x' (m - 3)).extractLsb 31 16) →
      (run x pitchEnc yawEnc n).axes.pitchPwmGenerator =
        (run x' pitchEnc' yawEnc' n).axes.pitchPwmGenerator) ∧
    ((∀ m < n, (lastPair x (m - 3)).extractLsb 15 0 = (lastPair x' (m - 3)).extractLsb 15 0) →
      (run x pitchEnc yawEnc n).axes.yawPwmGenerator =
        (run x' pitchEnc' yawEnc' n).axes.yawPwmGenerator) := by
  rw [axes_run, axes_run, (Axes.generators_run ..).1, (Axes.generators_run ..).1,
    (Axes.generators_run ..).2, (Axes.generators_run ..).2]
  refine ⟨fun h => trace_congr fun m hm => ?_, fun h => trace_congr fun m hm => ?_⟩
  · rw [pitchPwm, pitchPwm, (words_run x pitchEnc yawEnc m).1,
      (words_run x' pitchEnc' yawEnc' m).1, h m hm]
  · rw [yawPwm, yawPwm, (words_run x pitchEnc yawEnc m).2, (words_run x' pitchEnc' yawEnc' m).2,
      h m hm]

theorem axes_apart_one_pitch :
    (run (pulses (bitsOf (0x0900#16 ++ 0x0780#16))) (fun _ => (false, false))
        (fun _ => (false, false)) 80).axes.pitchPwmGenerator =
      (run (pulses (bitsOf (0x0900#16 ++ 0x0001#16))) (fun n => forward^[n] (false, true))
        (fun _ => (false, false)) 80).axes.pitchPwmGenerator :=
  (axes_apart _ _ _ _ _ _ 80).1 (by decide +kernel)

end TopEntity

/-! ### The design for the DE10 -/

/-- The registers of `mem_interface`. -/
structure MemInterface where
  pwmVals : BitVec 32
  slaveReaddata : BitVec 32
  deriving DecidableEq

namespace MemInterface

/-- One cycle of the bus. The module does not look at the address nor at the enabled bytes. -/
structure Cycle where
  slaveAddress : BitVec 8
  slaveRead : Bool
  slaveWrite : Bool
  slaveWritedata : BitVec 32
  slaveByteenable : BitVec 4

/-- The input pins. -/
structure Pins where
  reset : Bool
  cycle : Cycle
  encoderVals : BitVec 32

/-- The registers during a reset. -/
def reset : MemInterface where
  pwmVals := 2048#16 ++ 2048#16
  slaveReaddata := 0

/-- One rising edge of `clk`. -/
def step (s : MemInterface) (i : Pins) : MemInterface :=
  if i.reset then reset
  else
    { pwmVals := if i.cycle.slaveWrite then i.cycle.slaveWritedata else s.pwmVals
      slaveReaddata := if i.cycle.slaveRead then i.encoderVals else s.slaveReaddata }

lemma step_rst (s : MemInterface) (i : Pins) (h : i.reset = true) : s.step i = reset := by
  rw [step, if_pos h]

end MemInterface

/-- The modules of `DE10_NANO_SoC` that the program reaches. -/
structure De10NanoSoc where
  axes : Axes
  memInterface : MemInterface

namespace De10NanoSoc

/-- The input pins: `reset` is `KEY[0]`, low while the button is pressed, negated. -/
@[ext] structure Pins where
  reset : Bool
  busReset : Bool
  cycle : MemInterface.Cycle
  pitchEnc : Level
  yawEnc : Level

/-- The local parameter with which the design instantiates its modules. -/
def MAX_COUNT : BitVec 16 := 4096

/-- What the four modules get, with the halves of the PWM register. -/
def axesPins (s : De10NanoSoc) (i : Pins) : AxesPins where
  rst := i.reset
  pitchEnc := i.pitchEnc
  yawEnc := i.yawEnc
  pitchPwm := s.memInterface.pwmVals.extractLsb 31 16
  yawPwm := s.memInterface.pwmVals.extractLsb 15 0

/-- What the bus slave gets, with the positions of the encoders. -/
def memPins (s : De10NanoSoc) (i : Pins) : MemInterface.Pins where
  reset := i.busReset
  cycle := i.cycle
  encoderVals := s.axes.pitchEncoder.count ++ s.axes.yawEncoder.count

/-- One rising edge of `FPGA_CLK1_50`. -/
def step (s : De10NanoSoc) (i : Pins) : De10NanoSoc where
  axes := s.axes.step MAX_COUNT (s.axesPins i)
  memInterface := s.memInterface.step (s.memPins i)

/-- The design after a clock with the button pressed, which does not reach the bus slave. -/
def afterButton (m : MemInterface) : De10NanoSoc where
  axes := Axes.reset MAX_COUNT
  memInterface := m

lemma step_reset (s : De10NanoSoc) (i : Pins) (h : i.reset = true) :
    s.step i = afterButton (s.memInterface.step (s.memPins i)) := by
  rw [step, Axes.step_rst MAX_COUNT _ _ h, afterButton]

section Run

variable (m₀ : MemInterface) (cycle : ℕ → MemInterface.Cycle) (pitchEnc yawEnc : ℕ → Level)

/-- The pins outside a reset. -/
def pinsAt (n : ℕ) : Pins where
  reset := false
  busReset := false
  cycle := cycle n
  pitchEnc := pitchEnc n
  yawEnc := yawEnc n

/-- The design before clock `n` after the button, with any content of the bus slave. -/
def run (n : ℕ) : De10NanoSoc := trace step (afterButton m₀) (pinsAt cycle pitchEnc yawEnc) n

/-- The halves of the PWM register before each clock. -/
def pitchPwm (n : ℕ) : BitVec 16 :=
  (run m₀ cycle pitchEnc yawEnc n).memInterface.pwmVals.extractLsb 31 16

def yawPwm (n : ℕ) : BitVec 16 :=
  (run m₀ cycle pitchEnc yawEnc n).memInterface.pwmVals.extractLsb 15 0

theorem axes_run (n : ℕ) : (run m₀ cycle pitchEnc yawEnc n).axes =
    Axes.run MAX_COUNT pitchEnc yawEnc (pitchPwm m₀ cycle pitchEnc yawEnc)
      (yawPwm m₀ cycle pitchEnc yawEnc) n :=
  trace_map_loop (fun s : De10NanoSoc => s.axes) axesPins (fun _ _ => rfl) (afterButton m₀) n

theorem run_of_reset (s : De10NanoSoc) {i : ℕ → Pins} {R : ℕ} (hR : (i R).reset = true)
    (hlow : ∀ n, (i (R + 1 + n)).reset = false ∧ (i (R + 1 + n)).busReset = false) (n : ℕ) :
    trace step s i (R + 1 + n) = run (trace step s i (R + 1)).memInterface
      (fun n => (i (R + 1 + n)).cycle) (fun n => (i (R + 1 + n)).pitchEnc)
      (fun n => (i (R + 1 + n)).yawEnc) n := by
  have hbutton : trace step s i (R + 1) = afterButton (trace step s i (R + 1)).memInterface := by
    rw [trace_succ, step_reset _ _ hR]
    rfl
  rw [trace_add, hbutton, run]
  exact trace_congr fun m _ => Pins.ext (hlow m).1 (hlow m).2 rfl rfl rfl

lemma pwmVals_succ (n : ℕ) : (run m₀ cycle pitchEnc yawEnc (n + 1)).memInterface.pwmVals =
    if (cycle n).slaveWrite then (cycle n).slaveWritedata
    else (run m₀ cycle pitchEnc yawEnc n).memInterface.pwmVals := rfl

theorem pwmVals_run {w n : ℕ} (hwn : w < n) (hw : (cycle w).slaveWrite = true)
    (hlast : ∀ m, w < m → m < n → (cycle m).slaveWrite = false) :
    (run m₀ cycle pitchEnc yawEnc n).memInterface.pwmVals = (cycle w).slaveWritedata := by
  exact register_eq (fun n => (run m₀ cycle pitchEnc yawEnc n).memInterface.pwmVals)
    (fun n => (cycle n).slaveWritedata) (fun n => (cycle n).slaveWrite)
    (pwmVals_succ m₀ cycle pitchEnc yawEnc) hwn hw hlast

theorem readdata_run {r n : ℕ} (hrn : r < n) (hr : (cycle r).slaveRead = true)
    (hlast : ∀ m, r < m → m < n → (cycle m).slaveRead = false) :
    (run m₀ cycle pitchEnc yawEnc n).memInterface.slaveReaddata =
      (Encoder.run pitchEnc r).count ++ (Encoder.run yawEnc r).count := by
  have hcounts := (congrArg Axes.counts (axes_run m₀ cycle pitchEnc yawEnc r)).trans
    (Axes.counts_run MAX_COUNT pitchEnc yawEnc _ _ r)
  obtain ⟨hpitch, hyaw⟩ := Prod.mk.inj hcounts
  have hload : ∀ n, (run m₀ cycle pitchEnc yawEnc (n + 1)).memInterface.slaveReaddata =
      if (cycle n).slaveRead then
        (run m₀ cycle pitchEnc yawEnc n).axes.pitchEncoder.count ++
          (run m₀ cycle pitchEnc yawEnc n).axes.yawEncoder.count
      else (run m₀ cycle pitchEnc yawEnc n).memInterface.slaveReaddata := fun _ => rfl
  have hlatest := register_eq
    (fun n => (run m₀ cycle pitchEnc yawEnc n).memInterface.slaveReaddata) _
    (fun n => (cycle n).slaveRead) hload hrn hr hlast
  exact hlatest.trans (congrArg₂ BitVec.append hpitch hyaw)

end Run

end De10NanoSoc

end PanTilt.Fpga
