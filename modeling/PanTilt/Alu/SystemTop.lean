import PanTilt.Alu.Main
import PanTilt.Alu.ProductOrder
import PanTilt.Alu.QuotientOrder
import PanTilt.Alu.SpiSlave

/-!
`System_Top`: the slave and the arithmetic unit.

The registers are those of the slave. The unit is combinational, so the word the slave sends next is
at every clock the operation on its two operands; over a run the module is the synchronised slave
that sends these words (`core_run`).

A frame has its first word in `operand2`, and the unit takes `operand1` first. `OrderFree` says when
the operation does not see that (`main_swap_iff`).
-/

namespace PanTilt.Alu

open BitVec (ofBool)
open Lib.Clocked Lib.Spi

namespace SystemTop

/-- The input pins. -/
structure Pins where
  reset : Bool
  spiClk : Bool
  spiPico : Bool
  spiCs : Bool
  opcode1 : Bool
  opcode2 : Bool
  opcode3 : Bool

/-- The operation the unit performs. -/
def Pins.oper (i : Pins) : BitVec 2 := ofBool i.opcode2 ++ ofBool i.opcode1

/-- The output of the unit, with `x` for the bit that `div` reads and does not have. -/
def result (x : Bool) (s : SpiSlave) (oper : BitVec 2) : BitVec 32 :=
  (main x s.operand1 s.operand2 oper).result

/-- The word at the input `alu_results` of the slave. -/
def aluResults (x : Bool) (s : SpiSlave) (oper : BitVec 2) : BitVec 64 := 0#32 ++ result x s oper

/-- One rising edge of `sys_clock`. -/
def step (x : Bool) (s : SpiSlave) (i : Pins) : SpiSlave :=
  s.step
    { rst := i.reset
      spiClk := i.spiClk
      spiPico := i.spiPico
      spiCs := i.spiCs
      aluResults := aluResults x s i.oper }

/-- The pins outside a reset, with the operation `oper` and any `opcode3`. -/
def Pins.of (oper : BitVec 2) (opcode3 : Bool) (y : Sample) : Pins where
  reset := false
  spiClk := y.clk
  spiPico := y.pico
  spiCs := y.cs
  opcode1 := oper.getLsbD 0
  opcode2 := oper.getLsbD 1
  opcode3 := opcode3

lemma oper_of (oper : BitVec 2) (opcode3 : Bool) (y : Sample) :
    (Pins.of oper opcode3 y).oper = oper := by
  have h : ∀ o : BitVec 2, ofBool (o.getLsbD 1) ++ ofBool (o.getLsbD 0) = o := by decide
  exact h oper

section Run

variable (x : Bool) (oper : BitVec 2) (opcode3 : ℕ → Bool) (s : SpiSlave) (y : ℕ → Sample)

/-- The registers before clock `n` of a run without reset. -/
def run (n : ℕ) : SpiSlave := trace (step x) s (fun m => Pins.of oper (opcode3 m) (y m)) n

lemma run_add (m n : ℕ) : run x oper opcode3 s y (m + n) =
    run x oper (fun k => opcode3 (m + k)) (run x oper opcode3 s y m) (fun k => y (m + k)) n :=
  trace_add ..

lemma idle_run {n : ℕ} (h : (y n).cs = true) : (run x oper opcode3 s y (n + 1)).idle = true := by
  have hshift := (Fpga.SpiSlave.shift3 (run x oper opcode3 s y n).spiCsr (y n).cs).1
  exact hshift.trans h

theorem core_run (n : ℕ) :
    (run x oper opcode3 s y n).synced.core =
      trace Lib.Spi.step s.synced.core (fun m => (late2 s.synced.stage₀ s.synced.stage₁ y m,
        aluResults x (run x oper opcode3 s y m) oper)) n := by
  have hstep : ∀ (s : SpiSlave) (n : ℕ), (step x s (Pins.of oper (opcode3 n) (y n))).synced =
      sync2 Lib.Spi.step s.synced (y n, aluResults x s oper) := by
    intro s n
    have h := SpiSlave.synced_step s
      { rst := false
        spiClk := (y n).clk
        spiPico := (y n).pico
        spiCs := (y n).cs
        aluResults := aluResults x s (Pins.of oper (opcode3 n) (y n)).oper } rfl
    rw [oper_of] at h
    unfold step
    rw [oper_of]
    exact h
  have h := trace_map_loop SpiSlave.synced
    (fun s (i : Pins) => ((⟨i.spiCs, i.spiClk, i.spiPico⟩ : Sample), aluResults x s oper)) hstep s n
  rw [run, h]
  exact congrArg Synced.core (trace_sync2 Lib.Spi.step s.synced y _ n)

end Run

end SystemTop

/-! ### The order of the operands -/

/-- The operation `oper` gives the same word in both orders. -/
def OrderFree (x : Bool) (oper : BitVec 2) (a b : Fields) : Prop :=
  if oper.getLsbD 1 then
    if oper.getLsbD 0 then byClass (QuotientSame x) (QuotientMixed x) a b
    else byClass (fun _ _ => True) ProductMixed a b
  else byClass (SumSame (oper.getLsbD 0)) (SumMixed (oper.getLsbD 0)) a b

theorem main_swap_iff (x : Bool) (a b : BitVec 32) (oper : BitVec 2) :
    (main x b a oper).result = (main x a b oper).result ↔
      OrderFree x oper (fields a) (fields b) := by
  have ha := valid_fields a
  have hb := valid_fields b
  rw [← fields_inj, fields_main, fields_main]
  unfold mainOutcome OrderFree
  split
  · split
    · exact quotient_commutes_iff x ha hb
    · exact product_commutes_iff ha hb
  · exact sum_commutes_iff (oper.getLsbD 0) ha hb

end PanTilt.Alu
