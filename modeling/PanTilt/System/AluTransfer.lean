import PanTilt.Alu.SystemTop
import PanTilt.System.SpiTransfer

/-!
Two calls of `send_frame` with the same operands, down to the arithmetic unit.

The host packs the two words into a frame of eight bytes and sends it twice; the answer to the
operands of the first frame comes back with the second one. The frames are windows of 64 pulses in
real time, in periods of `sys_clock`.

The frame arrives with its first word in `operand2`, so the answer is the operation on the words in
the other order (`Twice.answered`), and is the operation in the order sent exactly for the words
whose order the operation does not see (`in_order_iff`).
-/

namespace PanTilt.System

open Alu Alu.SystemTop App Lib.Clocked Lib.Words Lib.Spi

/-! ### The bytes of a frame -/

/-- `float_to_bytes`: the bytes of a word, the highest first. -/
def floatToBytes (f : BitVec 32) : List (BitVec 8) :=
  [f.extractLsb 31 24, f.extractLsb 23 16, f.extractLsb 15 8, f.extractLsb 7 0]

/-- `bytes_to_float`: the word of four bytes. -/
def bytesToFloat (b : List (BitVec 8)) : BitVec 32 :=
  b.getD 0 0 ++ b.getD 1 0 ++ b.getD 2 0 ++ b.getD 3 0

/-- The frame of `send_frame`. -/
def txFrame (operand1 operand2 : BitVec 32) : List (BitVec 8) :=
  floatToBytes operand1 ++ floatToBytes operand2

/-- The eight bytes of 64 bits of the wire. -/
def rxFrame (bits : List Bool) : List (BitVec 8) :=
  (List.range 8).map fun k => wordOf 8 ((bits.drop (8 * k)).take 8)

/-- The result of `send_frame`: the word of the last four bytes. -/
def resultOf (bits : List Bool) : BitVec 32 := bytesToFloat ((rxFrame bits).drop 4)

lemma bytes_append_float (f : BitVec 32) :
    f.extractLsb 31 24 ++ f.extractLsb 23 16 ++ f.extractLsb 15 8 ++ f.extractLsb 7 0 = f := by
  unfold BitVec.extractLsb
  rw [BitVec.extractLsb'_append_extractLsb'_eq_extractLsb' (by decide),
    BitVec.extractLsb'_append_extractLsb'_eq_extractLsb' (by decide)]
  exact BitVec.extractLsb'_append_extractLsb'

lemma wireBits_floatToBytes (f : BitVec 32) : wireBits (floatToBytes f) = bitsOf f := by
  conv_rhs => rw [← bytes_append_float f]
  rw [bitsOf_append, bitsOf_append, bitsOf_append]
  simp [wireBits, floatToBytes]

theorem wireBits_txFrame (a b : BitVec 32) : wireBits (txFrame a b) = bitsOf (a ++ b) := by
  rw [bitsOf_append, ← wireBits_floatToBytes, ← wireBits_floatToBytes]
  exact List.flatMap_append

lemma wordOf_wireBits (buf : List (BitVec 8)) {k : ℕ} (hk : k < buf.length) :
    wordOf 8 (((wireBits buf).drop (8 * k)).take 8) = buf[k] := by
  induction buf generalizing k with
  | nil => exact absurd hk (Nat.not_lt_zero k)
  | cons b buf ih =>
    have hsplit : wireBits (b :: buf) = bitsOf b ++ wireBits buf := List.flatMap_cons
    rcases k with _ | k
    · rw [hsplit, Nat.mul_zero, List.drop_zero, List.take_left' (length_bitsOf b), wordOf_bitsOf]
      rfl
    · have hdrop : (wireBits (b :: buf)).drop (8 * (k + 1)) = (wireBits buf).drop (8 * k) := by
        rw [hsplit, show 8 * (k + 1) = 8 + 8 * k by omega, ← List.drop_drop,
          List.drop_left' (length_bitsOf b)]
      rw [hdrop, ih (Nat.lt_of_succ_lt_succ hk)]
      rfl

theorem rxFrame_wireBits {buf : List (BitVec 8)} (h : buf.length = 8) :
    rxFrame (wireBits buf) = buf := by
  apply List.ext_getElem (by simp [rxFrame, h])
  intro k _ hk
  simp only [rxFrame, List.getElem_map, List.getElem_range]
  exact wordOf_wireBits buf hk

lemma bytesToFloat_floatToBytes (f : BitVec 32) : bytesToFloat (floatToBytes f) = f :=
  bytes_append_float f

theorem resultOf_bitsOf (p q : BitVec 32) : resultOf (bitsOf (p ++ q)) = q := by
  have hlength : (txFrame p q).length = 8 := rfl
  rw [← wireBits_txFrame, resultOf, rxFrame_wireBits hlength]
  exact bytesToFloat_floatToBytes q

/-! ### Two frames -/

/-- The frame of `a` and `b`, sent twice to a module that starts in `s`: the first window is over
when tick `T - 1` samples the high level of `SPI_CS` again, the second one is timed from tick `T`,
and `poci` is what the host reads at its rises. -/
structure Twice (x : Bool) (oper : BitVec 2) (opcode3 : ℕ → Bool) (s : SpiSlave) (a b : BitVec 32)
    (W₁ W₂ : Window (5 : ℝ) 64) (T : ℕ) (v : Wires ℝ) (poci : ℕ → Bool) : Prop where
  first : Mode0 W₁ v
  firstPico : Holds W₁ v (wireBits (txFrame a b))
  ended : W₁.csRise + 1 ≤ T
  high : ∀ t, W₁.csRise < t → t < T → v.cs t = true
  idle : v.cs (T - 1) = true
  second : Mode0 W₂ (v.after T)
  secondPico : Holds W₂ (v.after T) (wireBits (txFrame a b))
  poci : ∀ i < 64, ReadAt (fun n => (run x oper opcode3 s v.sampled (T + n)).spiPoci) (W₂.rise i)
    (poci i)

section Twice

variable {x : Bool} {oper : BitVec 2} {opcode3 : ℕ → Bool} {s : SpiSlave} {a b : BitVec 32}
  {W₁ W₂ : Window (5 : ℝ) 64} {T : ℕ} {v : Wires ℝ} {poci : ℕ → Bool}

/-- Up to the first pulse of the second window the module holds the operands of the first, the first
word in `operand2`. -/
theorem Twice.operands (h : Twice x oper opcode3 s a b W₁ W₂ T v poci) (hs : s.idle = true) {n : ℕ}
    (hn : n < W₂.rise 0) :
    (run x oper opcode3 s v.sampled (T + n)).operand2 = a ∧
      (run x oper opcode3 s v.sampled (T + n)).operand1 = b := by
  apply SpiSlave.operands_eq
  have hquiet : ∀ t, W₁.csRise < t → t < (T + n : ℕ) → v.cs t = true ∨ v.clk t = false := by
    intro t ht ht'
    rcases lt_or_ge t T with hlt | hge
    · exact .inl (h.high t ht hlt)
    · push_cast at ht'
      have hafter := h.second.quiet (by norm_num) (sub_nonneg.2 hge) (by linarith)
      simpa [Wires.after] using hafter
  have hend : W₁.csRise ≤ (T + n : ℕ) := by
    push_cast
    linarith [h.ended, n.cast_nonneg (α := ℝ)]
  rw [core_run, h.first.handed (by norm_num) (by norm_num)
    (by rw [wireBits_txFrame, length_bitsOf]) h.firstPico _ _ _ hs hend hquiet, wireBits_txFrame,
    wordOf_bitsOf]

lemma Twice.idle_between (h : Twice x oper opcode3 s a b W₁ W₂ T v poci) :
    (run x oper opcode3 s v.sampled T).idle = true := by
  have hpos : 0 < T := by
    have hstart := W₁.le_csRise (by norm_num) (Nat.zero_le 64)
    have hone : (1 : ℝ) ≤ T := by linarith [h.ended, W₁.start]
    exact_mod_cast hone
  obtain ⟨n, rfl⟩ : ∃ n, T = n + 1 := ⟨T - 1, by omega⟩
  have hidle := h.idle
  push_cast at hidle
  rw [add_sub_cancel_right] at hidle
  exact idle_run x oper opcode3 s _ hidle

lemma core_run_after (x : Bool) (oper : BitVec 2) (opcode3 : ℕ → Bool) (s : SpiSlave) (v : Wires ℝ)
    (T m : ℕ) :
    (run x oper opcode3 s v.sampled (T + m)).synced.core =
      trace Lib.Spi.step (run x oper opcode3 s v.sampled T).synced.core
        (fun k => (late2 (run x oper opcode3 s v.sampled T).synced.stage₀
            (run x oper opcode3 s v.sampled T).synced.stage₁ (v.after (T : ℝ)).sampled k,
          aluResults x (run x oper opcode3 s v.sampled (T + k)) oper)) m := by
  have hlines : (v.after (T : ℝ)).sampled = fun k => v.sampled (T + k) :=
    funext fun k => v.sampled_after T k
  simp only [run_add, hlines]
  exact core_run ..

theorem Twice.answered (h : Twice x oper opcode3 s a b W₁ W₂ T v poci) (hs : s.idle = true) :
    resultOf ((List.range 64).map poci) = (main x b a oper).result := by
  -- the word sent is that at a clock before the first pulse
  obtain ⟨n, -, hhi, hsent⟩ := h.second.sent (by norm_num) (by norm_num)
    (run x oper opcode3 s v.sampled T).synced.core
    (fun m => aluResults x (run x oper opcode3 s v.sampled (T + m)) oper)
    (run x oper opcode3 s v.sampled T).synced.stage₁
    (a := (run x oper opcode3 s v.sampled T).synced.stage₀) h.idle_between
  have hbits : (List.range 64).map poci =
      bitsOf (aluResults x (run x oper opcode3 s v.sampled (T + n)) oper) := by
    apply map_range_eq_bitsOf
    intro i hi
    refine ReadAt.bit hi (h.poci i hi) fun m hm hm' => ?_
    exact (congrArg Slave.sent (core_run_after ..)).trans (hsent i hi m hm hm')
  obtain ⟨ha, hb⟩ := h.operands hs hhi
  rw [hbits, aluResults, resultOf_bitsOf, result, ha, hb]

/-- **In the order sent.** From every idle state of the module, for every pair of words, every
operation and every pair of windows: the last four bytes of the second reply are the operation on
the words in the order sent exactly if the operation does not see their order. -/
theorem in_order_iff (hs : s.idle = true) (h : Twice x oper opcode3 s a b W₁ W₂ T v poci) :
    resultOf ((List.range 64).map poci) = (main x a b oper).result ↔
      OrderFree x oper (fields a) (fields b) := by
  rw [h.answered hs]
  exact main_swap_iff x a b oper

end Twice

/-! ### Two frames after a reset -/

/-- The lines with the frame of two words in the window with phases of five periods, where `SPI_CS`
falls at 5 and rises at 650, and again from tick 660 on. -/
noncomputable def twiceWires (a b : BitVec 32) : Wires ℝ :=
  (fivePeriodsWires 64 (wireBits (txFrame a b))).andThen (660 : ℕ)
    (fivePeriodsWires 64 (wireBits (txFrame a b)))

/-- What the host reads at the rises of the second window. -/
noncomputable def twicePoci (x : Bool) (oper : BitVec 2) (a b : BitVec 32) (i : ℕ) : Bool :=
  (run x oper (fun _ => false) SpiSlave.reset (twiceWires a b).sampled
    (660 + (10 * i + 10))).spiPoci

lemma twiceWires_cs (a b : BitVec 32) {t : ℝ} (ht : 650 ≤ t) (ht' : t < 660) :
    (twiceWires a b).cs t = true := by
  have hphase : 2 * 64 + 2 ≤ phase 5 t := by
    rw [le_phase_iff (by norm_num) (by linarith)]
    norm_num
    exact ht
  simp [twiceWires, fivePeriodsWires, Wires.andThen, ht', Wires.steady, hphase]

lemma twice_steady (x : Bool) (oper : BitVec 2) (a b : BitVec 32) :
    Twice x oper (fun _ => false) SpiSlave.reset a b (fivePeriods 64) (fivePeriods 64) 660
      (twiceWires a b) (twicePoci x oper a b) := by
  have hend : (fivePeriods 64).csRise = 650 := fivePeriods_csRise 64
  have hmode := mode0_fivePeriods 64 (wireBits (txFrame a b))
  have hpico := holds_fivePeriods 64 (wireBits (txFrame a b))
  have hfirst : ∀ t, 0 ≤ t → t ≤ (fivePeriods 64).csRise →
      (twiceWires a b).levels t = (fivePeriodsWires 64 (wireBits (txFrame a b))).levels t := by
    intro t _ ht
    rw [hend] at ht
    exact Wires.levels_andThen (ht.trans_lt (by norm_num))
  have hsecond : ∀ t, 0 ≤ t → t ≤ (fivePeriods 64).csRise →
      ((twiceWires a b).after ((660 : ℕ) : ℝ)).levels t =
        (fivePeriodsWires 64 (wireBits (txFrame a b))).levels t :=
    fun t ht _ => Wires.levels_after_andThen ht
  refine ⟨hmode.congr (by norm_num) hfirst, hpico.congr (by norm_num) hfirst, ?_, ?_, ?_,
    hmode.congr (by norm_num) hsecond, hpico.congr (by norm_num) hsecond, ?_⟩
  · rw [hend]
    norm_num
  · intro t ht ht'
    rw [hend] at ht
    exact twiceWires_cs a b ht.le (by exact_mod_cast ht')
  · exact twiceWires_cs a b (by norm_num) (by norm_num)
  · intro i _
    exact readAt_fivePeriods (fun n => (run x oper (fun _ => false) SpiSlave.reset
      (twiceWires a b).sampled (660 + n)).spiPoci) 64 i

theorem product_in_order :
    resultOf ((List.range 64).map (twicePoci false 0b10 0x40400000 0x40000000)) =
      (main false 0x40400000 0x40000000 0b10).result := by
  apply (in_order_iff (by decide) (twice_steady false 0b10 0x40400000 0x40000000)).2
  unfold OrderFree
  rw [if_pos (by decide), if_neg (by decide), byClass, if_pos (by decide)]
  trivial

/-- `3 - 1` comes back as `1 - 3`. -/
theorem difference_out_of_order :
    SpiSlave.reset.idle = true ∧
    Twice false 0b01 (fun _ => false) SpiSlave.reset 0x40400000 0x3F800000 (fivePeriods 64)
      (fivePeriods 64) 660 (twiceWires 0x40400000 0x3F800000)
      (twicePoci false 0b01 0x40400000 0x3F800000) ∧
    resultOf ((List.range 64).map (twicePoci false 0b01 0x40400000 0x3F800000)) = 0xC0000000 ∧
    (main false 0x40400000 0x3F800000 0b01).result = 0x40000000 := by
  have h := twice_steady false 0b01 0x40400000 0x3F800000
  refine ⟨by decide, h, ?_, by decide +kernel⟩
  rw [h.answered (by decide)]
  decide +kernel

end PanTilt.System
