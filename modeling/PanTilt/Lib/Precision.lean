import Mathlib.Algebra.Order.Floor.Ring
import Mathlib.Data.Int.Log
import Mathlib.Tactic.Linarith
import Mathlib.Tactic.Ring

/-!
Numbers of `p` significant bits: the unit in the last place of a number, and the number chopped to
`p` bits.

A positive number is a significand of `n + 1` bits, with a rest below one, in units of a power of
two; `log_significand` is its logarithm, and `chop_significand` what is left of it.
-/

namespace PanTilt.Lib.Precision

variable {K : Type*} [Field K] [LinearOrder K] [IsStrictOrderedRing K] [FloorRing K]

/-- The unit in the last place of a number with `p` significant bits. -/
def ulp (p : ℕ) (v : K) : K := ((2 : ℕ) : K) ^ (Int.log 2 |v| + 1 - p)

/-- A number cut to `p` significant bits, towards zero. -/
def chop (p : ℕ) (v : K) : K :=
  if v < 0 then -(⌊|v| / ulp p v⌋ * ulp p v) else ⌊|v| / ulp p v⌋ * ulp p v

lemma two_zpow_le_iff {v : K} (hv : v ≠ 0) {k : ℤ} : 2 ^ k ≤ |v| ↔ k ≤ Int.log 2 |v| := by
  rw [← Int.zpow_le_iff_le_log Nat.one_lt_two (abs_pos.mpr hv), Nat.cast_ofNat]

lemma lt_two_zpow_iff {v : K} (hv : v ≠ 0) {k : ℤ} : |v| < 2 ^ k ↔ Int.log 2 |v| < k := by
  rw [← Int.lt_zpow_iff_log_lt Nat.one_lt_two (abs_pos.mpr hv), Nat.cast_ofNat]

lemma exists_rest (m : ℕ) {k : ℕ} (hk : 0 < k) :
    ∃ θ : K, (0 ≤ θ ∧ θ < 1) ∧ (θ = 0 ↔ m % k = 0) ∧ (m : K) / k = (m / k : ℕ) + θ := by
  have hpos : (0 : K) < k := Nat.cast_pos.mpr hk
  have hmod : ((m % k : ℕ) : K) < k := Nat.cast_lt.mpr (Nat.mod_lt m hk)
  have hsplit : (m : K) = k * (m / k : ℕ) + (m % k : ℕ) := by
    exact_mod_cast (Nat.div_add_mod m k).symm
  refine ⟨((m % k : ℕ) : K) / k, ⟨by positivity, (div_lt_one hpos).mpr hmod⟩, ?_, ?_⟩
  · rw [div_eq_zero_iff, or_iff_left hpos.ne', Nat.cast_eq_zero]
  · rw [hsplit, add_div, mul_div_cancel_left₀ _ hpos.ne']

omit [FloorRing K] in
lemma lt_sub_rest_iff {m k : ℕ} {θ : K} (hθ : 0 ≤ θ ∧ θ < 1) : (k : K) < m - θ ↔ k < m := by
  constructor
  · intro h
    have hcast : (k : K) < m := by linarith [hθ.1]
    exact Nat.cast_lt.mp hcast
  · intro h
    have hcast : ((k + 1 : ℕ) : K) ≤ m := Nat.cast_le.mpr h
    push_cast at hcast
    linarith [hθ.2]

omit [FloorRing K] in
lemma sub_rest_le_iff {m k : ℕ} {θ : K} (hθ : 0 ≤ θ ∧ θ < 1) : (m : K) - θ ≤ k ↔ m ≤ k := by
  rw [← not_lt, lt_sub_rest_iff hθ, Nat.not_lt]

section Significand

variable {n m : ℕ} {θ v : K} {k : ℤ}

lemma log_significand (hlo : 2 ^ n ≤ m) (hhi : m < 2 ^ (n + 1)) (hθ : 0 ≤ θ ∧ θ < 1)
    (hv : |v| = (m + θ) * 2 ^ k) : Int.log 2 |v| = n + k := by
  have hunit : (0 : K) < 2 ^ k := zpow_pos two_pos k
  have hlo' : (2 : K) ^ (n : ℤ) ≤ m + θ := by
    have hcast : ((2 ^ n : ℕ) : K) ≤ m := Nat.cast_le.mpr hlo
    rw [zpow_natCast]
    push_cast at hcast
    linarith [hθ.1]
  have hhi' : m + θ < (2 : K) ^ ((n : ℤ) + 1) := by
    have hcast : ((m + 1 : ℕ) : K) ≤ (2 ^ (n + 1) : ℕ) := Nat.cast_le.mpr hhi
    have hpow : (2 : K) ^ ((n : ℤ) + 1) = 2 ^ (n + 1) := by exact_mod_cast rfl
    rw [hpow]
    push_cast at hcast
    linarith [hθ.2]
  have hle : ((2 : ℕ) : K) ^ ((n : ℤ) + k) ≤ |v| := by
    rw [hv, Nat.cast_ofNat, zpow_add₀ two_ne_zero]
    exact mul_le_mul_of_nonneg_right hlo' hunit.le
  have hlt : |v| < ((2 : ℕ) : K) ^ ((n : ℤ) + k + 1) := by
    rw [hv, Nat.cast_ofNat, show (n : ℤ) + k + 1 = n + 1 + k by ring, zpow_add₀ two_ne_zero]
    exact mul_lt_mul_of_pos_right hhi' hunit
  have hpos : 0 < |v| := lt_of_lt_of_le (zpow_pos (by norm_num) _) hle
  refine le_antisymm ?_ ((Int.zpow_le_iff_le_log Nat.one_lt_two hpos).mp hle)
  exact Int.lt_add_one_iff.mp ((Int.lt_zpow_iff_log_lt Nat.one_lt_two hpos).mp hlt)

lemma ulp_significand (hlo : 2 ^ n ≤ m) (hhi : m < 2 ^ (n + 1)) (hθ : 0 ≤ θ ∧ θ < 1)
    (hv : |v| = (m + θ) * 2 ^ k) : ulp (n + 1) v = 2 ^ k := by
  rw [ulp, Nat.cast_ofNat, log_significand hlo hhi hθ hv]
  congr 1
  push_cast
  ring

/-- **Chopping drops the rest.** -/
lemma chop_significand (hlo : 2 ^ n ≤ m) (hhi : m < 2 ^ (n + 1)) (hθ : 0 ≤ θ ∧ θ < 1)
    (hv : |v| = (m + θ) * 2 ^ k) :
    chop (n + 1) v = if v < 0 then -((m : K) * 2 ^ k) else (m : K) * 2 ^ k := by
  have hunit : (0 : K) < 2 ^ k := zpow_pos two_pos k
  have hfloor : ⌊|v| / 2 ^ k⌋ = (m : ℤ) := by
    rw [hv, mul_div_cancel_right₀ _ hunit.ne', Int.floor_eq_iff]
    push_cast
    exact ⟨by linarith [hθ.1], by linarith [hθ.2]⟩
  rw [chop, ulp_significand hlo hhi hθ hv, hfloor, Int.cast_natCast]

end Significand

end PanTilt.Lib.Precision
