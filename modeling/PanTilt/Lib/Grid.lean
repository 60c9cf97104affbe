import Mathlib.Data.List.ProdSigma
import Mathlib.Data.List.FinRange
import Mathlib.Data.Fintype.Prod

/-!
Frames of pixels: `H` rows of `W` columns, scanned row by row.

A pass over a frame is a list of pixels and a value for each of them; `store_apply` says what a
frame holds after it, whatever it held before.
-/

namespace PanTilt.Lib.Grid

/-- A place in a frame: its row and its column. -/
abbrev Pixel (H W : ℕ) := Fin H × Fin W

variable {H W : ℕ} {α : Type*}

lemma card_pixel : Fintype.card (Pixel H W) = H * W := by simp

/-- The pixel at a row and a column, if they are in the frame. -/
def pixel (H W : ℕ) (y x : ℤ) : Option (Pixel H W) :=
  if h : (0 ≤ y ∧ y < H) ∧ 0 ≤ x ∧ x < W then
    some (⟨y.toNat, by omega⟩, ⟨x.toNat, by omega⟩)
  else none

lemma pixel_eq_some {y x : ℤ} {p : Pixel H W} : pixel H W y x = some p ↔ p.1 = y ∧ p.2 = x := by
  obtain ⟨⟨py, hy⟩, ⟨px, hx⟩⟩ := p
  simp only [pixel]
  split
  · simp only [Option.some.injEq, Prod.mk.injEq, Fin.mk.injEq]
    omega
  · simp only [reduceCtorEq, false_iff]
    omega

/-- The pixels of a frame, in the order of two nested loops. -/
def scan (H W : ℕ) : List (Pixel H W) := List.finRange H ×ˢ List.finRange W

@[simp] lemma mem_scan (p : Pixel H W) : p ∈ scan H W :=
  List.mem_product.mpr ⟨List.mem_finRange p.1, List.mem_finRange p.2⟩

lemma scan_nodup : (scan H W).Nodup := (List.nodup_finRange H).product (List.nodup_finRange W)

@[simp] lemma length_scan : (scan H W).length = H * W := by
  simp [scan, List.length_product]

/-- The number of a pixel in the scan. -/
def scanIndex (p : Pixel H W) : ℕ := p.1 * W + p.2

lemma scanIndex_lt {p q : Pixel H W} (h : p.1 < q.1 ∨ p.1 = q.1 ∧ p.2 < q.2) :
    scanIndex p < scanIndex q := by
  obtain ⟨⟨py, _⟩, ⟨px, hp⟩⟩ := p
  obtain ⟨⟨qy, _⟩, ⟨qx, _⟩⟩ := q
  simp only [Fin.mk_lt_mk, Fin.mk.injEq, scanIndex] at h ⊢
  rcases h with h | ⟨rfl, h⟩
  · calc py * W + px < (py + 1) * W := by rw [Nat.succ_mul]; omega
      _ ≤ qy * W := Nat.mul_le_mul_right W h
      _ ≤ qy * W + qx := Nat.le_add_right _ _
  · omega

lemma scan_sorted : (scan H W).Pairwise (fun p q => scanIndex p < scanIndex q) := by
  have hrow : ∀ y : Fin H, ((List.finRange W).map (Prod.mk y)).Pairwise
      (fun p q => scanIndex p < scanIndex q) := by
    intro y
    rw [List.pairwise_map]
    refine (List.pairwise_lt_finRange W).imp ?_
    intro x x' hx
    exact scanIndex_lt (.inr ⟨rfl, hx⟩)
  refine List.pairwise_flatMap.mpr ⟨fun y _ => hrow y, ?_⟩
  refine (List.pairwise_lt_finRange H).imp ?_
  intro y y' hy p hp q hq
  obtain ⟨x, -, rfl⟩ := List.mem_map.mp hp
  obtain ⟨x', -, rfl⟩ := List.mem_map.mp hq
  exact scanIndex_lt (.inl hy)

/-! ### Stores -/

variable {V : Type*} [DecidableEq V]

/-- A loop that stores a value at each of some places. -/
def store (ps : List V) (value : V → α) (frame : V → α) : V → α :=
  ps.foldl (fun frame p => Function.update frame p (value p)) frame

theorem store_apply (ps : List V) (value frame : V → α) (q : V) :
    store ps value frame q = if q ∈ ps then value q else frame q := by
  induction ps generalizing frame with
  | nil => simp [store]
  | cons p ps ih =>
    have hstep : store (p :: ps) value frame =
        store ps value (Function.update frame p (value p)) := rfl
    rw [hstep, ih]
    by_cases hq : q ∈ ps
    · simp [hq]
    · by_cases hqp : q = p
      · subst hqp
        simp [hq]
      · simp [hq, hqp]

end PanTilt.Lib.Grid
