import Mathlib.Algebra.BigOperators.Intervals
import Mathlib.Algebra.Order.Archimedean.Basic
import Mathlib.Analysis.SpecificLimits.ArithmeticGeometric
import Mathlib.Tactic.FieldSimp
import Mathlib.Tactic.Linarith
import Mathlib.Tactic.LinearCombination
import PanTilt.Lib.Clocked

/-!
A discrete PID controller with a filtered derivative, over any ordered field.

The proportional and the derivative action are one filter `uD` of the error, the integral action
`uI` sums what comes out of it. The filter forgets its past by the factor `ratio` at each step.

* `abs_uD_le`: errors of at most `E` keep the filter within `gain * E`.
* `output_const`: the output under a constant error, in closed form.
* `conserved`, `output_accumulates`: the output is the accumulated error, up to a deviation that is
  bounded by the errors. Nothing bounds the accumulated error itself, so that a limit on the output
  holds until it is paid back (`windup`).
-/

namespace PanTilt.Lib.Pid

open Clocked

/-- The gain and the times of a controller, and the time between two steps. -/
structure Params (K : Type*) where
  kp : K
  tauD : K
  beta : K
  tauI : K
  sampletime : K

/-- The two actions and the error of the last step. -/
structure State (K : Type*) where
  uD : K
  error : K
  uI : K
  deriving DecidableEq

section Step

variable {K : Type*} [Field K]

def Params.factor (p : Params K) : K := 1 / (p.sampletime + p.tauD * p.beta)

/-- One step, with the error of that time. -/
def step (p : Params K) (s : State K) (error : K) : State K where
  uD := p.factor * (((p.tauD * s.uD) * p.beta + (p.tauD * p.kp) * (error - s.error)) +
    (p.sampletime * p.kp) * error)
  error := error
  uI := s.uI + (p.sampletime * (p.factor * (((p.tauD * s.uD) * p.beta +
    (p.tauD * p.kp) * (error - s.error)) + (p.sampletime * p.kp) * error))) / p.tauI

/-- What the controller puts out. -/
def State.output (s : State K) : K := s.uI + s.uD

/-- The controller before any error. -/
def State.rest : State K where
  uD := 0
  error := 0
  uI := 0

@[simp] lemma rest_uD : (State.rest : State K).uD = 0 := rfl
@[simp] lemma rest_error : (State.rest : State K).error = 0 := rfl
@[simp] lemma rest_uI : (State.rest : State K).uI = 0 := rfl

/-- The part of the filter that is left after a step. -/
def Params.ratio (p : Params K) : K := p.tauD * p.beta / (p.sampletime + p.tauD * p.beta)

/-- The overshoot of the filter at the first step of a new error, relative to what it settles at. -/
def Params.kick (p : Params K) : K :=
  p.tauD * (1 - p.beta) / (p.sampletime + p.tauD * p.beta)

/-- The output under a constant error after `n + 1` steps, relative to the proportional part: one,
what is left of the first overshoot, and the integral action, which grows by the same amount at each
step up to a part that settles. -/
def Params.response (p : Params K) (n : ℕ) : K :=
  1 + p.kick * p.ratio ^ n +
    p.sampletime / p.tauI * ((n + 1) + p.kick * ((1 - p.ratio ^ (n + 1)) / (1 - p.ratio)))

/-- The bound of the filter, relative to that of the errors. -/
def Params.gain (p : Params K) : K := p.kp * ((p.tauD + p.sampletime + p.tauD) / p.sampletime)

lemma step_uI (p : Params K) (s : State K) (error : K) :
    (step p s error).uI = s.uI + p.sampletime / p.tauI * (step p s error).uD := by
  simp only [step]
  ring

lemma step_uD (p : Params K) (s : State K) (error : K) :
    (step p s error).uD = p.ratio * s.uD +
      p.factor * p.kp * ((p.tauD + p.sampletime) * error - p.tauD * s.error) := by
  simp only [step, Params.ratio, Params.factor]
  ring

/-! ### Runs -/

/-- The state after `n` steps. -/
def after (p : Params K) (s : State K) (error : ℕ → K) (n : ℕ) : State K :=
  trace (step p) s error n

variable (p : Params K) (s : State K) (error : ℕ → K)

@[simp] lemma after_zero : after p s error 0 = s := rfl

lemma after_succ (n : ℕ) :
    after p s error (n + 1) = step p (after p s error n) (error n) := rfl

@[simp] lemma error_after_succ (n : ℕ) : (after p s error (n + 1)).error = error n := rfl

theorem uI_after (n : ℕ) : (after p s error n).uI =
    s.uI + p.sampletime / p.tauI * ∑ k ∈ Finset.range n, (after p s error (k + 1)).uD := by
  induction n with
  | zero => simp
  | succ n ih =>
    rw [after_succ, step_uI, ih, Finset.sum_range_succ, after_succ]
    ring

/-- **What every run conserves**: the integral action is the accumulated error, up to a part that
the present filter output and the present error determine. -/
theorem conserved (hpos : p.sampletime + p.tauD * p.beta ≠ 0) (htauI : p.tauI ≠ 0) (n : ℕ) :
    p.tauI * (after p s error n).uI + p.tauD * p.beta * (after p s error n).uD -
        p.kp * p.tauD * (after p s error n).error =
      p.tauI * s.uI + p.tauD * p.beta * s.uD - p.kp * p.tauD * s.error +
        p.kp * p.sampletime * ∑ k ∈ Finset.range n, error k := by
  induction n with
  | zero => simp
  | succ n ih =>
    have hstep : (p.sampletime + p.tauD * p.beta) * (after p s error (n + 1)).uD =
        p.tauD * p.beta * (after p s error n).uD +
          p.kp * ((p.tauD + p.sampletime) * error n - p.tauD * (after p s error n).error) := by
      rw [after_succ, step_uD, Params.ratio, Params.factor]
      field_simp
    have hsum : p.tauI * (after p s error (n + 1)).uI =
        p.tauI * (after p s error n).uI + p.sampletime * (after p s error (n + 1)).uD := by
      rw [after_succ, step_uI]
      field_simp
    rw [Finset.sum_range_succ, error_after_succ]
    linear_combination ih + hsum + hstep

end Step

/-! ### Bounds -/

section Order

variable {K : Type*} [Field K] [LinearOrder K] [IsStrictOrderedRing K]

/-- All gains and times are positive, and the filter is faster than the derivative time. -/
structure Params.Regular (p : Params K) : Prop where
  kp : 0 < p.kp
  tauD : 0 < p.tauD
  beta : 0 < p.beta
  beta_le : p.beta ≤ 1
  tauI : 0 < p.tauI
  sampletime : 0 < p.sampletime

section Regular

variable {p : Params K} (h : p.Regular)

include h

lemma Params.Regular.pos : 0 < p.sampletime + p.tauD * p.beta :=
  add_pos h.sampletime (mul_pos h.tauD h.beta)

lemma Params.Regular.factor_pos : 0 < p.factor := one_div_pos.2 h.pos

lemma Params.Regular.ratio_nonneg : 0 ≤ p.ratio :=
  div_nonneg (mul_nonneg h.tauD.le h.beta.le) h.pos.le

lemma Params.Regular.one_sub_ratio : 1 - p.ratio = p.factor * p.sampletime := by
  have hpos := h.pos.ne'
  unfold Params.ratio Params.factor
  field_simp
  ring

lemma Params.Regular.ratio_lt_one : p.ratio < 1 := by
  have hstep := mul_pos h.factor_pos h.sampletime
  rw [← h.one_sub_ratio] at hstep
  linarith

lemma Params.Regular.kick_nonneg : 0 ≤ p.kick :=
  div_nonneg (mul_nonneg h.tauD.le (sub_nonneg.2 h.beta_le)) h.pos.le

lemma Params.Regular.step_rest (error : K) :
    (step p .rest error).uD = p.kp * error * (1 + p.kick) := by
  have hpos := h.pos.ne'
  simp only [step, State.rest, Params.kick, Params.factor]
  field_simp
  ring

lemma Params.Regular.gain_pos : 0 < p.gain := by
  have h₁ := h.kp
  have h₂ := h.tauD
  have h₃ := h.sampletime
  unfold Params.gain
  positivity

lemma Params.Regular.abs_uD_step_le {E : K} {s : State K} {error : K} (hs : |s.uD| ≤ p.gain * E)
    (hprev : |s.error| ≤ E) (herror : |error| ≤ E) : |(step p s error).uD| ≤ p.gain * E := by
  have hratio := h.ratio_nonneg
  have hfactor := mul_nonneg h.factor_pos.le h.kp.le
  have hD := h.tauD.le
  have hDS := add_nonneg h.tauD.le h.sampletime.le
  have hfirst : |p.ratio * s.uD| ≤ p.ratio * (p.gain * E) := by
    rw [abs_mul, abs_of_nonneg hratio]
    exact mul_le_mul_of_nonneg_left hs hratio
  have hinner : |(p.tauD + p.sampletime) * error - p.tauD * s.error| ≤
      (p.tauD + p.sampletime + p.tauD) * E := by
    calc |(p.tauD + p.sampletime) * error - p.tauD * s.error|
        ≤ |(p.tauD + p.sampletime) * error| + |p.tauD * s.error| := abs_sub _ _
      _ = (p.tauD + p.sampletime) * |error| + p.tauD * |s.error| := by
          rw [abs_mul, abs_mul, abs_of_nonneg hDS, abs_of_nonneg hD]
      _ ≤ (p.tauD + p.sampletime) * E + p.tauD * E :=
          add_le_add (mul_le_mul_of_nonneg_left herror hDS) (mul_le_mul_of_nonneg_left hprev hD)
      _ = (p.tauD + p.sampletime + p.tauD) * E := by ring
  have hsecond : |p.factor * p.kp * ((p.tauD + p.sampletime) * error - p.tauD * s.error)| ≤
      p.factor * p.kp * ((p.tauD + p.sampletime + p.tauD) * E) := by
    rw [abs_mul, abs_of_nonneg hfactor]
    exact mul_le_mul_of_nonneg_left hinner hfactor
  have hsum : p.ratio * (p.gain * E) +
      p.factor * p.kp * ((p.tauD + p.sampletime + p.tauD) * E) = p.gain * E := by
    have hone := h.one_sub_ratio
    have hS := h.sampletime.ne'
    have hgain : p.factor * p.kp * (p.tauD + p.sampletime + p.tauD) =
        p.factor * p.sampletime * p.gain := by
      unfold Params.gain
      field_simp
    linear_combination E * hgain - p.gain * E * hone
  rw [step_uD]
  exact (abs_add_le _ _).trans ((add_le_add hfirst hsecond).trans hsum.le)

end Regular

theorem abs_uD_le {p : Params K} (h : p.Regular) {E : K} {s : State K}
    (hs : |s.uD| ≤ p.gain * E) (hprev : |s.error| ≤ E) {error : ℕ → K}
    (herror : ∀ k, |error k| ≤ E) (n : ℕ) :
    |(after p s error n).uD| ≤ p.gain * E ∧ |(after p s error n).error| ≤ E := by
  induction n with
  | zero => exact ⟨hs, hprev⟩
  | succ n ih =>
    rw [after_succ]
    exact ⟨h.abs_uD_step_le ih.1 ih.2 (herror n), herror n⟩

/-- The bound of the deviation of the output from the accumulated error. -/
def Params.deviation (p : Params K) : K :=
  (p.kp * p.tauD + (p.tauI + p.tauD * p.beta) * p.gain) / p.tauI

/-- The error that has accumulated before step `n`, as an integral action. -/
def accumulated (p : Params K) (error : ℕ → K) (n : ℕ) : K :=
  p.kp * p.sampletime * (∑ k ∈ Finset.range n, error k) / p.tauI

section Rest

variable {p : Params K} (h : p.Regular)

include h

/-- **The output is the accumulated error**, up to a deviation that the largest error bounds. -/
theorem output_accumulates {E : K} {error : ℕ → K} (herror : ∀ k, |error k| ≤ E) (n : ℕ) :
    |(after p .rest error n).output - accumulated p error n| ≤ p.deviation * E := by
  have hE : 0 ≤ E := (abs_nonneg _).trans (herror 0)
  have hrest : |(State.rest : State K).uD| ≤ p.gain * E := by
    simpa using mul_nonneg h.gain_pos.le hE
  obtain ⟨huD, he⟩ := abs_uD_le h hrest (by simpa using hE) herror n
  have hcons := conserved p .rest error h.pos.ne' h.tauI.ne' n
  have hI := h.tauI
  have hDB := (mul_pos h.tauD h.beta).le
  have hkD := (mul_pos h.kp h.tauD).le
  have heq : (after p .rest error n).output - accumulated p error n =
      (p.kp * p.tauD * (after p .rest error n).error +
        (p.tauI - p.tauD * p.beta) * (after p .rest error n).uD) / p.tauI := by
    rw [rest_uD, rest_error, rest_uI, mul_zero, mul_zero, mul_zero, add_zero, sub_zero,
      zero_add] at hcons
    unfold State.output accumulated
    field_simp
    linear_combination hcons
  have hgap : |p.tauI - p.tauD * p.beta| ≤ p.tauI + p.tauD * p.beta :=
    (abs_sub _ _).trans (by rw [abs_of_pos hI, abs_of_nonneg hDB])
  have hfirst : |p.kp * p.tauD * (after p .rest error n).error| ≤ p.kp * p.tauD * E := by
    rw [abs_mul, abs_of_nonneg hkD]
    exact mul_le_mul_of_nonneg_left he hkD
  have hsecond : |(p.tauI - p.tauD * p.beta) * (after p .rest error n).uD| ≤
      (p.tauI + p.tauD * p.beta) * (p.gain * E) := by
    rw [abs_mul]
    exact mul_le_mul hgap huD (abs_nonneg _) (by linarith)
  rw [heq, abs_div, abs_of_pos hI, Params.deviation, div_mul_eq_mul_div]
  apply div_le_div_of_nonneg_right _ hI.le
  calc |p.kp * p.tauD * (after p .rest error n).error +
          (p.tauI - p.tauD * p.beta) * (after p .rest error n).uD|
      ≤ p.kp * p.tauD * E + (p.tauI + p.tauD * p.beta) * (p.gain * E) :=
        (abs_add_le _ _).trans (add_le_add hfirst hsecond)
    _ = (p.kp * p.tauD + (p.tauI + p.tauD * p.beta) * p.gain) * E := by ring

/-- **Windup.** After `N` steps in which the errors have accumulated enough, the output is at least
`max` for `m` more steps, whatever errors of at most `E` come in them. -/
theorem windup {E max : K} {error : ℕ → K} (herror : ∀ k, |error k| ≤ E) {N m : ℕ}
    (hN : max + p.deviation * E + p.kp * p.sampletime * (m * E) / p.tauI ≤ accumulated p error N)
    {n : ℕ} (hn : N ≤ n) (hn' : n ≤ N + m) : max ≤ (after p .rest error n).output := by
  have hE : 0 ≤ E := (abs_nonneg _).trans (herror 0)
  have hkS := (mul_pos h.kp h.sampletime).le
  have hdev := (abs_le.1 (output_accumulates h herror n)).1
  obtain ⟨j, rfl⟩ := Nat.exists_eq_add_of_le hn
  have hj : (j : K) ≤ m := by exact_mod_cast Nat.le_of_add_le_add_left hn'
  -- in the steps after `N` the accumulated error falls by at most `E` each
  have hlater : -(m * E) ≤ ∑ k ∈ Finset.range j, error (N + k) := by
    have hsum := Finset.sum_le_sum fun k (_ : k ∈ Finset.range j) => (abs_le.1 (herror (N + k))).1
    rw [Finset.sum_const, Finset.card_range, nsmul_eq_mul] at hsum
    have := mul_le_mul_of_nonneg_right hj hE
    linarith
  have hacc : accumulated p error N - p.kp * p.sampletime * (m * E) / p.tauI ≤
      accumulated p error (N + j) := by
    unfold accumulated
    rw [Finset.sum_range_add, ← sub_div]
    apply div_le_div_of_nonneg_right _ h.tauI.le
    have := mul_le_mul_of_nonneg_left hlater hkS
    linarith
  linarith

theorem windup_const [Archimedean K] {e E : K} (he : 0 < e) (max : K) (m : ℕ) :
    ∃ N₀, ∀ N ≥ N₀, ∀ error : ℕ → K, (∀ k < N, error k = e) → (∀ k, |error k| ≤ E) →
      ∀ n, N ≤ n → n ≤ N + m → max ≤ (after p .rest error n).output := by
  have hrate : 0 < p.kp * p.sampletime * e / p.tauI :=
    div_pos (mul_pos (mul_pos h.kp h.sampletime) he) h.tauI
  obtain ⟨N₀, hN₀⟩ := Archimedean.arch
    (max + p.deviation * E + p.kp * p.sampletime * (m * E) / p.tauI) hrate
  refine ⟨N₀, fun N hN error hconst herror n hn hn' => windup h herror (hN₀.trans ?_) hn hn'⟩
  have hsum : accumulated p error N = N • (p.kp * p.sampletime * e / p.tauI) := by
    have hconst' : ∀ k ∈ Finset.range N, error k = e := fun k hk =>
      hconst k (Finset.mem_range.1 hk)
    rw [accumulated, Finset.sum_congr rfl hconst', Finset.sum_const, Finset.card_range,
      nsmul_eq_mul, nsmul_eq_mul]
    ring
  rw [hsum]
  exact nsmul_le_nsmul_left hrate.le hN

/-! ### A constant error -/

theorem uD_const (s : State K) (e : K) (n : ℕ) : (after p s (fun _ => e) (n + 1)).uD =
    p.ratio ^ n * ((step p s e).uD - p.kp * e) + p.kp * e := by
  have hone := h.one_sub_ratio
  have hlt := h.ratio_lt_one
  have hne : 1 - p.ratio ≠ 0 := (sub_pos.2 hlt).ne'
  have hgeom : (after p s (fun _ => e) (n + 1)).uD =
      arithGeom p.ratio ((1 - p.ratio) * (p.kp * e)) (step p s e).uD n := by
    induction n with
    | zero => rfl
    | succ n ih =>
      rw [after_succ, step_uD, ih, arithGeom_succ, error_after_succ, hone]
      ring
  rw [hgeom, arithGeom_eq hlt.ne, mul_div_cancel_left₀ _ hne]

theorem output_const (e : K) (n : ℕ) :
    (after p .rest (fun _ => e) (n + 1)).output = p.kp * e * p.response n := by
  have hlt := h.ratio_lt_one
  have hfilter : ∀ k, (after p .rest (fun _ => e) (k + 1)).uD =
      p.kp * e * (1 + p.kick * p.ratio ^ k) := by
    intro k
    rw [uD_const h, h.step_rest]
    ring
  have hsum : ∑ k ∈ Finset.range (n + 1), (after p .rest (fun _ => e) (k + 1)).uD =
      p.kp * e * ((n + 1) + p.kick * ((1 - p.ratio ^ (n + 1)) / (1 - p.ratio))) := by
    rw [Finset.sum_congr rfl fun k _ => hfilter k, ← Finset.mul_sum, Finset.sum_add_distrib,
      ← Finset.mul_sum, geom_sum_eq hlt.ne, Finset.sum_const, Finset.card_range, nsmul_eq_mul,
      ← neg_sub (p.ratio ^ (n + 1)) 1, ← neg_sub p.ratio 1, neg_div_neg_eq]
    push_cast
    ring
  rw [State.output, uI_after, hsum, hfilter, rest_uI, Params.response]
  ring

theorem le_response (n : ℕ) : 1 + p.sampletime / p.tauI * (n + 1) ≤ p.response n := by
  have hr := h.ratio_nonneg
  have hlt := h.ratio_lt_one
  have hkick := h.kick_nonneg
  have hSI := (div_pos h.sampletime h.tauI).le
  have hleft : 0 ≤ p.kick * ((1 - p.ratio ^ (n + 1)) / (1 - p.ratio)) :=
    mul_nonneg hkick (div_nonneg (sub_nonneg.2 (pow_le_one₀ hr hlt.le)) (sub_nonneg.2 hlt.le))
  have h₁ := mul_nonneg hkick (pow_nonneg hr n)
  have h₂ := mul_nonneg hSI hleft
  rw [Params.response]
  linarith

end Rest

end Order

/-! ### A limited output -/

section Limit

variable {K : Type*} [LinearOrder K]

/-- A value cut to a range. -/
def limit (minimum maximum x : K) : K :=
  if x < minimum then minimum else if x > maximum then maximum else x

lemma limit_mem {minimum maximum : K} (h : minimum ≤ maximum) (x : K) :
    limit minimum maximum x ∈ Set.Icc minimum maximum := by
  unfold limit
  split_ifs with hlow hhigh
  · exact ⟨le_rfl, h⟩
  · exact ⟨h, le_rfl⟩
  · exact ⟨not_lt.1 hlow, not_lt.1 hhigh⟩

lemma limit_of_mem {minimum maximum x : K} (h : x ∈ Set.Icc minimum maximum) :
    limit minimum maximum x = x := by
  rw [limit, if_neg (not_lt.2 h.1), if_neg (not_lt.2 h.2)]

lemma limit_of_le {minimum maximum x : K} (h : minimum ≤ maximum) (hx : x ≤ minimum) :
    limit minimum maximum x = minimum := by
  rcases hx.lt_or_eq with hlt | rfl
  · exact if_pos hlt
  · exact limit_of_mem ⟨le_rfl, h⟩

lemma limit_of_ge {minimum maximum x : K} (h : minimum ≤ maximum) (hx : maximum ≤ x) :
    limit minimum maximum x = maximum := by
  rcases hx.lt_or_eq with hlt | rfl
  · rw [limit, if_neg (not_lt.2 (h.trans hx)), if_pos hlt]
  · exact limit_of_mem ⟨h, le_rfl⟩

end Limit

end PanTilt.Lib.Pid
