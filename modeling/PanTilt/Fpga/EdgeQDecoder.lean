import PanTilt.Lib.Clocked
import PanTilt.Lib.Quadrature

/-!
`edge_q_decoder` of `edge_q_decoder.v`: the position from the edges of the quadrature signals.

The two lines go through a two-stage synchroniser and from there through a shift register of two
bits each. An edge in a shift register moves the position by the level of the other line, which is
read at the synchroniser, one clock later than the edge; a level that is held for two clocks is the
same there. `position_run` says what the position is: the negative of the position of the motion
four clocks ago. Only the position is reset, so the eight other registers have to be flushed.
-/

namespace PanTilt.Fpga

open Lib.Clocked Lib.Quadrature
open BitVec (ofBool)

/-- The registers of `edge_q_decoder`. -/
structure EdgeQDecoder where
  aSync₀ : Bool
  aSync₁ : Bool
  bSync₀ : Bool
  bSync₁ : Bool
  aShift : BitVec 2
  bShift : BitVec 2
  position : BitVec 32
  deriving DecidableEq

namespace EdgeQDecoder

/-- The input pins. -/
structure Pins where
  rst : Bool
  aRaw : Bool
  bRaw : Bool

/-! ### The wires -/

section Wires

variable (q : EdgeQDecoder)

def aRise : Bool := q.aShift == 0b01#2
def aFall : Bool := q.aShift == 0b10#2
def bRise : Bool := q.bShift == 0b01#2
def bFall : Bool := q.bShift == 0b10#2

/-- The position after a clock outside a reset. -/
def nextPosition : BitVec 32 :=
  if q.aRise then q.position + (if q.bSync₁ then -1 else 1)
  else if q.aFall then q.position + (if q.bSync₁ then 1 else -1)
  else if q.bRise then q.position + (if q.aSync₁ then 1 else -1)
  else if q.bFall then q.position + (if q.aSync₁ then -1 else 1)
  else q.position

end Wires

/-- One rising edge of `clk`. -/
def step (q : EdgeQDecoder) (i : Pins) : EdgeQDecoder where
  aSync₀ := i.aRaw
  aSync₁ := q.aSync₀
  bSync₀ := i.bRaw
  bSync₁ := q.bSync₀
  aShift := ofBool (q.aShift.getLsbD 0) ++ ofBool q.aSync₁
  bShift := ofBool (q.bShift.getLsbD 0) ++ ofBool q.bSync₁
  position := if i.rst then 0 else q.nextPosition

/-- The registers before clock `n` of a run from any content, with `rst` up to clock `R`. -/
def heldRun (q₀ : EdgeQDecoder) (s : ℕ → Level) (R n : ℕ) : EdgeQDecoder :=
  trace step q₀ (fun m => { rst := decide (m < R), aRaw := (s m).1, bRaw := (s m).2 }) n

/-- The registers behind the pins hold the level `00`. -/
structure Flushed (q : EdgeQDecoder) : Prop where
  sync₀ : (q.aSync₀, q.bSync₀) = (false, false)
  sync₁ : (q.aSync₁, q.bSync₁) = (false, false)
  aShift : q.aShift = 0
  bShift : q.bShift = 0

lemma shifted_low : ∀ x y : Bool, (ofBool x ++ ofBool y : BitVec 2).getLsbD 0 = y := by decide

/-- **Four clocks flush the registers**, whatever they hold at first. -/
theorem flushed_of_le (q₀ : EdgeQDecoder) {s : ℕ → Level} {R n : ℕ}
    (hrest : ∀ m < R, s m = (false, false)) (hR : 4 ≤ n) (hn : n ≤ R) :
    (heldRun q₀ s R n).Flushed := by
  obtain ⟨m, rfl⟩ := Nat.exists_eq_add_of_le' hR
  have h₀ := hrest m (by omega)
  have h₁ := hrest (m + 1) (by omega)
  have h₂ := hrest (m + 2) (by omega)
  have h₃ := hrest (m + 3) (by omega)
  refine ⟨h₃, h₂, ?_, ?_⟩
  · unfold heldRun
    simp only [trace_succ, step, shifted_low, h₀, h₁]
    rfl
  · unfold heldRun
    simp only [trace_succ, step, shifted_low, h₀, h₁]
    rfl

/-! ### One clock -/

/-- What an edge in the shift registers adds, by the level in the synchroniser. -/
def turn (aShift bShift : BitVec 2) (k : Level) : BitVec 32 :=
  if aShift = 0b01#2 then (if k.2 then -1 else 1)
  else if aShift = 0b10#2 then (if k.2 then 1 else -1)
  else if bShift = 0b01#2 then (if k.1 then 1 else -1)
  else if bShift = 0b10#2 then (if k.1 then -1 else 1)
  else 0

lemma nextPosition_eq_add (q : EdgeQDecoder) :
    q.nextPosition = q.position + turn q.aShift q.bShift (q.aSync₁, q.bSync₁) := by
  unfold nextPosition turn aRise aFall bRise bFall
  simp only [beq_iff_eq]
  split_ifs <;> simp

lemma turn_still : ∀ l k : Level,
    turn (ofBool l.1 ++ ofBool l.1) (ofBool l.2 ++ ofBool l.2) k = 0 := by
  decide

/-- With the new level still in the synchroniser an edge adds the negative of the move. -/
lemma turn_held : ∀ l m : Level, Adjacent l m →
    turn (ofBool l.1 ++ ofBool m.1) (ofBool l.2 ++ ofBool m.2) m = -BitVec.ofInt 32 (move l m) := by
  decide

/-- **The position moves against the motion**: with `l` and `m` in the shift registers and `m` held
in the synchroniser, by the negative of the move from `l` to `m`. -/
theorem nextPosition_eq {q : EdgeQDecoder} {l m k : Level}
    (ha : q.aShift = ofBool l.1 ++ ofBool m.1) (hb : q.bShift = ofBool l.2 ++ ofBool m.2)
    (hk : (q.aSync₁, q.bSync₁) = k) (hadj : Adjacent l m) (hheld : m ≠ l → k = m) :
    q.nextPosition = q.position + -BitVec.ofInt 32 (move l m) := by
  rw [nextPosition_eq_add, ha, hb, hk]
  by_cases hml : m = l
  · rw [hml, turn_still, move_self]
    rfl
  · rw [hheld hml, turn_held l m hadj]

/-! ### Runs -/

/-- What holds of the registers before clock `n`, for the levels `s` as the decoder sees them: the
four pairs are the last four levels, and the position is the negative of that of the oldest. -/
structure Inv (s : ℕ → Level) (n : ℕ) (q : EdgeQDecoder) : Prop where
  sync₀ : (q.aSync₀, q.bSync₀) = s (n + 3)
  sync₁ : (q.aSync₁, q.bSync₁) = s (n + 2)
  aShift : q.aShift = ofBool (s n).1 ++ ofBool (s (n + 1)).1
  bShift : q.bShift = ofBool (s n).2 ++ ofBool (s (n + 1)).2
  position : q.position = -BitVec.ofInt 32 (Lib.Quadrature.position s n)

theorem Inv.step {s : ℕ → Level} {n : ℕ} {q : EdgeQDecoder} (h : Inv s n q) (hlegal : Legal s)
    (hheld : Held s) :
    Inv s (n + 1) (step q { rst := false, aRaw := (s (n + 4)).1, bRaw := (s (n + 4)).2 }) := by
  have hsync : q.aSync₁ = (s (n + 2)).1 ∧ q.bSync₁ = (s (n + 2)).2 :=
    ⟨congrArg Prod.fst h.sync₁, congrArg Prod.snd h.sync₁⟩
  refine ⟨rfl, h.sync₀, ?_, ?_, ?_⟩
  · show (ofBool (q.aShift.getLsbD 0) ++ ofBool q.aSync₁ : BitVec 2) = _
    rw [h.aShift, shifted_low, hsync.1]
  · show (ofBool (q.bShift.getLsbD 0) ++ ofBool q.bSync₁ : BitVec 2) = _
    rw [h.bShift, shifted_low, hsync.2]
  · show q.nextPosition = _
    rw [nextPosition_eq h.aShift h.bShift h.sync₁ (hlegal n) (hheld n), h.position,
      Lib.Quadrature.position, BitVec.ofInt_add, BitVec.neg_add, BitVec.sub_eq_add_neg]

section Run

variable {s : ℕ → Level} {R : ℕ} (q₀ : EdgeQDecoder) (hreset : 0 < R)
  (hrest : ∀ n < R, s n = (false, false)) (hlegal : Legal s) (hheld : Held s)
  (hflushed : (heldRun q₀ s R R).Flushed)

include hreset hrest hlegal hheld hflushed

theorem inv_run (n : ℕ) : Inv (delay 4 s) (R + n) (heldRun q₀ s R (R + n)) := by
  have h₀ := hrest 0 hreset
  induction n with
  | zero =>
    have hlate : ∀ m < R + 4, delay 4 s m = (false, false) := fun m => delay_of_lt hrest
    have hstill : Lib.Quadrature.position (delay 4 s) R = 0 := by
      have := @position_of_still (delay 4 s) 0 R fun j hj => by
        rw [hlate _ (by omega), hlate _ (by omega)]
      rwa [Nat.zero_add] at this
    refine ⟨?_, ?_, ?_, ?_, ?_⟩
    · rw [Nat.add_zero, hlate _ (by omega), hflushed.sync₀]
    · rw [Nat.add_zero, hlate _ (by omega), hflushed.sync₁]
    · rw [Nat.add_zero, hlate _ (by omega), hlate _ (by omega), hflushed.aShift]
      rfl
    · rw [Nat.add_zero, hlate _ (by omega), hlate _ (by omega), hflushed.bShift]
      rfl
    · -- the last clock of the reset clears the position
      obtain ⟨r, rfl⟩ := Nat.exists_eq_succ_of_ne_zero hreset.ne'
      rw [Nat.add_zero, hstill]
      show (if decide (r < r + 1) then (0 : BitVec 32) else _) = _
      rw [if_pos (decide_eq_true (Nat.lt_succ_self r))]
      rfl
  | succ n ih =>
    have hstep := ih.step (hlegal.delay h₀ 4) (hheld.delay h₀ 4)
    rw [delay_add] at hstep
    have hrst : decide (R + n < R) = false := decide_eq_false (by omega)
    rw [← Nat.add_assoc, heldRun, trace_succ, hrst]
    exact hstep

theorem position_run {n : ℕ} (hn : R ≤ n + 4) :
    (heldRun q₀ s R (n + 4)).position = -BitVec.ofInt 32 (Lib.Quadrature.position s n) := by
  have h := (inv_run q₀ hreset hrest hlegal hheld hflushed (n + 4 - R)).position
  rw [Nat.add_sub_cancel' hn, position_delay (hrest 0 hreset)] at h
  exact h

end Run

end EdgeQDecoder

end PanTilt.Fpga
