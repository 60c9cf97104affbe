import Mathlib.Tactic.Common

/-!
Clocked machines: a state, an input and a step taken at every rising edge of one clock.

`trace` is the state before each edge of a stream of inputs, `Reachable` is the closure of a
state under every sequence of inputs, and `sync2` is a machine behind a two-stage synchroniser,
which sees the stream of its first input two edges late (`trace_sync2`).
-/

namespace PanTilt.Lib.Clocked

variable {S S' I I' : Type*}

/-! ### Runs -/

/-- The state before edge `n`, when the input at edge `m` is `inp m`. -/
def trace (step : S → I → S) (s : S) (inp : ℕ → I) : ℕ → S
  | 0 => s
  | n + 1 => step (trace step s inp n) (inp n)

@[simp] lemma trace_zero (step : S → I → S) (s : S) (inp : ℕ → I) : trace step s inp 0 = s := rfl

lemma trace_succ (step : S → I → S) (s : S) (inp : ℕ → I) (n : ℕ) :
    trace step s inp (n + 1) = step (trace step s inp n) (inp n) := rfl

lemma trace_add (step : S → I → S) (s : S) (inp : ℕ → I) (m n : ℕ) :
    trace step s inp (m + n) = trace step (trace step s inp m) (fun k => inp (m + k)) n := by
  induction n with
  | zero => rfl
  | succ n ih => rw [← Nat.add_assoc, trace_succ, trace_succ, ih]

lemma trace_congr {step : S → I → S} {s : S} {inp inp' : ℕ → I} {n : ℕ}
    (h : ∀ m < n, inp m = inp' m) : trace step s inp n = trace step s inp' n := by
  induction n with
  | zero => rfl
  | succ n ih =>
    rw [trace_succ, trace_succ, ih fun m hm => h m (Nat.lt_succ_of_lt hm), h n (Nat.lt_succ_self n)]

/-- A machine that a reset brings to one state runs from there on as from that state, whatever it
was before. -/
theorem trace_of_reset {step : S → I → S} {s₀ : S} {rst : I → Bool}
    (hstep : ∀ s i, rst i = true → step s i = s₀) (s : S) {inp : ℕ → I} {R : ℕ}
    (hR : rst (inp R) = true) (n : ℕ) :
    trace step s inp (R + 1 + n) = trace step s₀ (fun m => inp (R + 1 + m)) n := by
  rw [trace_add, trace_succ, hstep _ _ hR]

/-- A map that commutes with the steps commutes with the traces, also of a machine in a loop: the
input of the image can depend on the state. -/
theorem trace_map_loop {step : S → I → S} {step' : S' → I' → S'} (φ : S → S') (ι : S → I → I')
    {inp : ℕ → I} (h : ∀ s n, φ (step s (inp n)) = step' (φ s) (ι s (inp n))) (s : S) (n : ℕ) :
    φ (trace step s inp n) =
      trace step' (φ s) (fun m => ι (trace step s inp m) (inp m)) n := by
  induction n with
  | zero => rfl
  | succ n ih => rw [trace_succ, h, ih, trace_succ]

theorem trace_map {step : S → I → S} {step' : S' → I' → S'} (φ : S → S') (ι : I → I')
    {inp : ℕ → I} (h : ∀ s n, φ (step s (inp n)) = step' (φ s) (ι (inp n))) (s : S) (n : ℕ) :
    φ (trace step s inp n) = trace step' (φ s) (fun m => ι (inp m)) n :=
  trace_map_loop φ (fun _ => ι) h s n

/-! ### Reachable states -/

/-- The states reached from `s₀` by some sequence of inputs. -/
inductive Reachable (step : S → I → S) (s₀ : S) : S → Prop
  | start : Reachable step s₀ s₀
  | next {s : S} (i : I) : Reachable step s₀ s → Reachable step s₀ (step s i)

/-- **The invariant rule**: what holds at the start and is kept by every step holds in every
reachable state. -/
theorem Reachable.invariant {step : S → I → S} {s₀ s : S} {P : S → Prop}
    (h : Reachable step s₀ s) (h₀ : P s₀) (hs : ∀ s i, P s → P (step s i)) : P s := by
  induction h with
  | start => exact h₀
  | next i _ ih => exact hs _ i ih

theorem Reachable.foldl {step : S → I → S} {s₀ s : S} (h : Reachable step s₀ s) (inputs : List I) :
    Reachable step s₀ (inputs.foldl step s) := by
  induction inputs generalizing s with
  | nil => exact h
  | cons i inputs ih => exact ih (.next i h)

lemma reachable_trace (step : S → I → S) (s : S) (inp : ℕ → I) (n : ℕ) :
    Reachable step s (trace step s inp n) := by
  induction n with
  | zero => exact .start
  | succ n ih => exact .next (inp n) ih

/-! ### A register with an enable -/

theorem register_eq {α : Type*} (r v : ℕ → α) (en : ℕ → Bool)
    (hr : ∀ n, r (n + 1) = if en n then v n else r n) {w n : ℕ} (hwn : w < n) (hw : en w = true)
    (hen : ∀ m, w < m → m < n → en m = false) : r n = v w := by
  induction hwn with
  | refl => rw [hr, if_pos hw]
  | @step n hn ih =>
    rw [hr, if_neg (by simp [hen n hn (Nat.lt_succ_self n)])]
    exact ih fun m hm hmn => hen m hm (Nat.lt_succ_of_lt hmn)

/-! ### A machine behind a two-stage synchroniser -/

variable {A D C : Type*}

/-- The state of a synchronised machine: the newest sample, the one before it, and the machine. -/
structure Synced (A C : Type*) where
  stage₀ : A
  stage₁ : A
  core : C

/-- One edge: both stages shift, and the machine reads the older stage. The second input reaches
the machine directly. -/
def sync2 (step : C → A × D → C) (s : Synced A C) (i : A × D) : Synced A C where
  stage₀ := i.1
  stage₁ := s.stage₀
  core := step s.core (s.stage₁, i.2)

/-- The stream `x` two edges late, after the samples `b` and `a`. -/
def late2 (a b : A) (x : ℕ → A) : ℕ → A
  | 0 => b
  | 1 => a
  | n + 2 => x n

lemma late2_of_ge (a b : A) (x : ℕ → A) {n : ℕ} (h : 2 ≤ n) : late2 a b x n = x (n - 2) := by
  obtain ⟨m, rfl⟩ := Nat.exists_eq_add_of_le' h
  rfl

/-- **A synchronised machine runs on the late stream**, and its stages hold the samples that
come next. -/
theorem trace_sync2 (step : C → A × D → C) (s : Synced A C) (x : ℕ → A) (d : ℕ → D) (n : ℕ) :
    trace (sync2 step) s (fun m => (x m, d m)) n =
      { stage₀ := late2 s.stage₀ s.stage₁ x (n + 1)
        stage₁ := late2 s.stage₀ s.stage₁ x n
        core := trace step s.core (fun m => (late2 s.stage₀ s.stage₁ x m, d m)) n } := by
  induction n with
  | zero => rfl
  | succ n ih => rw [trace_succ, ih]; rfl

end PanTilt.Lib.Clocked
