import Mathlib.Data.Int.ModEq
import PanTilt.App.EncoderReader
import PanTilt.Fpga.EdgeQDecoder
import PanTilt.Fpga.Encoder

/-!
The three decoders of the quadrature signals on one motion.

The encoder of the drive is three clocks late and counts modulo `ENCODER_MAX`, the edge decoder is
four clocks late and counts the other way, and the reader on the processor is called on every change
of the level. On a motion that is held for two clocks at every level and has come to rest they have
counted the same moves (`decoders_agree`); the count and the position of the reader part only where
the position has wrapped in its 32 bits.
-/

namespace PanTilt.System

open App.EncoderReader Fpga Lib.Quadrature

/-- A legal motion from `00`, each level held for two clocks, under a reset up to clock `R`. -/
structure HeldMotion (s : ℕ → Level) (R : ℕ) : Prop where
  reset : 0 < R
  rest : ∀ n < R, s n = (false, false)
  legal : Legal s
  held : Held s

/-- The count has changed by the position of the reader, and the edge decoder has the negative of
that position. -/
def Agree (e : Encoder) (q : EdgeQDecoder) (r : Reader) : Prop :=
  (e.count.toNat : ℤ) - 32000 ≡ r.position.toInt [ZMOD 64000] ∧ q.position = -r.position

section Still

variable {s : ℕ → Level} {R n : ℕ}

lemma count_still (e₀ : Encoder) (h : HeldMotion s R) (hn : R ≤ n + 4)
    (hstill : ∀ k < 4, s (n + k) = s n) :
    ((Encoder.heldRun e₀ s R (n + 4)).count.toNat : ℤ) = (32000 + added s (n + 3)) % 64000 := by
  have hcount := @Encoder.count_heldRun s R e₀ h.reset h.rest (n + 1) hn
  rw [added_eq, position_of_still 3 fun k hk => hstill k (by omega)]
  rw [position_of_still 1 fun k hk => hstill k (by omega)] at hcount
  exact hcount

lemma position_still (q₀ : EdgeQDecoder) (h : HeldMotion s R)
    (hflushed : (EdgeQDecoder.heldRun q₀ s R R).Flushed) (hn : R ≤ n + 4)
    (hstill : ∀ k < 4, s (n + k) = s n) :
    (EdgeQDecoder.heldRun q₀ s R (n + 4)).position = -(follow s (n + 3)).position := by
  rw [position_follow, added_eq, position_of_still 3 fun k hk => hstill k (by omega)]
  exact EdgeQDecoder.position_run q₀ h.reset h.rest h.legal h.held hflushed hn

/-- **The three decoders agree** once the levels have been still for four clocks: the count has
changed by what the reader has added, which is its position unless that has wrapped, and the edge
decoder has the negative of the position. -/
theorem decoders_agree (e₀ : Encoder) (q₀ : EdgeQDecoder) (h : HeldMotion s R)
    (hflushed : (EdgeQDecoder.heldRun q₀ s R R).Flushed) (hn : R ≤ n + 4)
    (hstill : ∀ k < 4, s (n + k) = s n) :
    ((Encoder.heldRun e₀ s R (n + 4)).count.toNat : ℤ) - 32000 ≡ added s (n + 3) [ZMOD 64000] ∧
      (follow s (n + 3)).position = BitVec.ofInt 32 (added s (n + 3)) ∧
      (EdgeQDecoder.heldRun q₀ s R (n + 4)).position = -(follow s (n + 3)).position ∧
      (-2 ^ 31 ≤ added s (n + 3) → added s (n + 3) < 2 ^ 31 →
        Agree (Encoder.heldRun e₀ s R (n + 4)) (EdgeQDecoder.heldRun q₀ s R (n + 4))
          (follow s (n + 3))) := by
  have hcount : ((Encoder.heldRun e₀ s R (n + 4)).count.toNat : ℤ) - 32000 ≡
      added s (n + 3) [ZMOD 64000] := by
    have heq := count_still e₀ h hn hstill
    unfold Int.ModEq
    omega
  have hposition := position_still q₀ h hflushed hn hstill
  refine ⟨hcount, position_follow s (n + 3), hposition, fun hlo hhi => ⟨?_, hposition⟩⟩
  have hint : (follow s (n + 3)).position.toInt = added s (n + 3) := by
    rw [position_follow, BitVec.toInt_ofInt]
    exact Int.bmod_eq_of_le hlo hhi
  rw [hint]
  exact hcount

end Still

/-! ### A motor that turns -/

/-- The levels of a motor that makes `N` moves forwards, one every second clock. -/
def spin (N k : ℕ) : Level := forward^[min N ((k - 2) / 2)] (false, false)

lemma spin_succ (N k : ℕ) :
    spin N (k + 1) = if min N ((k - 1) / 2) = min N ((k - 2) / 2) then spin N k
      else forward (spin N k) := by
  unfold spin
  rw [show k + 1 - 2 = k - 1 by omega]
  split
  case isTrue h => rw [h]
  case isFalse h =>
    rw [← Function.iterate_succ_apply' forward, show min N ((k - 1) / 2) =
      (min N ((k - 2) / 2)).succ by omega]

lemma heldMotion_spin (N : ℕ) : HeldMotion (spin N) 4 where
  reset := by decide
  rest n hn := by
    rw [spin, show (n - 2) / 2 = 0 by omega, Nat.min_zero, Function.iterate_zero_apply]
  legal n := by
    rw [adjacent_iff, spin_succ]
    split
    · exact .inl rfl
    · exact .inr (.inl rfl)
  held n hne := by
    rw [spin_succ] at hne
    split at hne
    · exact absurd rfl hne
    · next h => rw [spin_succ N (n + 1), if_pos (by omega)]

lemma position_spin (N k : ℕ) : position (spin N) k = (min N ((k - 2) / 2) : ℕ) := by
  induction k with
  | zero => simp [position]
  | succ k ih =>
    rw [position, ih, spin_succ]
    split
    · rw [move_self]
      omega
    · rw [move_forward]
      omega

lemma spin_still {N n : ℕ} (h : 2 * N + 2 ≤ n) (k : ℕ) : spin N (n + k) = spin N n := by
  unfold spin
  rw [Nat.min_eq_left (by omega), Nat.min_eq_left (by omega)]

/-- The registers of the edge decoder before the reset. -/
def powerUp : EdgeQDecoder := ⟨true, false, true, true, 0b01, 0b10, 17⟩

lemma flushed_spin (N : ℕ) : (EdgeQDecoder.heldRun powerUp (spin N) 4 4).Flushed :=
  EdgeQDecoder.flushed_of_le powerUp (heldMotion_spin N).rest le_rfl le_rfl

theorem decoders_agree_spin :
    Agree (Encoder.heldRun Encoder.reset (spin 3) 4 12) (EdgeQDecoder.heldRun powerUp (spin 3) 4 12)
      (follow (spin 3) 11) := by
  have hadded : added (spin 3) 11 = 3 := by rw [added_eq, position_spin]; rfl
  refine (decoders_agree (n := 8) Encoder.reset powerUp (heldMotion_spin 3) (flushed_spin 3)
    (by decide) (fun k _ => spin_still (by decide) k)).2.2.2 ?_ ?_
  · rw [hadded]
    decide
  · rw [hadded]
    decide

/-- After `2 ^ 31` moves the position of the reader has wrapped, and the count has not changed by
it. -/
theorem not_agree_spin :
    HeldMotion (spin (2 ^ 31)) 4 ∧
      (EdgeQDecoder.heldRun powerUp (spin (2 ^ 31)) 4 4).Flushed ∧
      (∀ k < 4, spin (2 ^ 31) (2 ^ 32 + 2 + k) = spin (2 ^ 31) (2 ^ 32 + 2)) ∧
      ¬ Agree (Encoder.heldRun Encoder.reset (spin (2 ^ 31)) 4 (2 ^ 32 + 2 + 4))
        (EdgeQDecoder.heldRun powerUp (spin (2 ^ 31)) 4 (2 ^ 32 + 2 + 4))
        (follow (spin (2 ^ 31)) (2 ^ 32 + 2 + 3)) := by
  have hmotion := heldMotion_spin (2 ^ 31)
  have hstill : ∀ k < 4, spin (2 ^ 31) (2 ^ 32 + 2 + k) = spin (2 ^ 31) (2 ^ 32 + 2) :=
    fun k _ => spin_still (by omega) k
  refine ⟨hmotion, flushed_spin _, hstill, fun hagree => ?_⟩
  have hadded : added (spin (2 ^ 31)) (2 ^ 32 + 2 + 3) = 2 ^ 31 := by
    rw [added_eq, position_spin]
    omega
  have hcount := count_still Encoder.reset hmotion (by omega) hstill
  have hint : (follow (spin (2 ^ 31)) (2 ^ 32 + 2 + 3)).position.toInt = -2 ^ 31 := by
    rw [position_follow, hadded]
    decide
  have hmod := hagree.1
  rw [hcount, hint, hadded] at hmod
  exact absurd hmod (by decide)

end PanTilt.System
