import Mathlib.Algebra.Group.Basic
import Mathlib.Algebra.Group.Nat.Defs
import Mathlib.Data.List.Perm.Subperm
import Mathlib.Data.List.Nodup

/-!
Byte strings: numbers of a fixed width in little-endian order, and strings cut into chunks of one
size, of which the last may be short.
-/

namespace PanTilt.Lib.Chunks

abbrev Byte := BitVec 8

/-! ### Little-endian numbers -/

/-- The `n` low bytes of a number. -/
def toLe : ℕ → ℕ → List Byte
  | 0, _ => []
  | n + 1, x => BitVec.ofNat 8 x :: toLe n (x / 256)

/-- The number that some bytes stand for. -/
def ofLe : List Byte → ℕ
  | [] => 0
  | b :: bs => b.toNat + 256 * ofLe bs

@[simp] lemma length_toLe (n x : ℕ) : (toLe n x).length = n := by
  induction n generalizing x with
  | zero => rfl
  | succ n ih => rw [toLe, List.length_cons, ih]

lemma ofLe_toLe (n x : ℕ) : ofLe (toLe n x) = x % 256 ^ n := by
  induction n generalizing x with
  | zero => rw [toLe, ofLe, Nat.pow_zero, Nat.mod_one]
  | succ n ih =>
    rw [toLe, ofLe, ih, BitVec.toNat_ofNat, show (2 : ℕ) ^ 8 = 256 from rfl, pow_succ', Nat.mod_mul]

theorem ofLe_toLe_of_lt {n x : ℕ} (h : x < 256 ^ n) : ofLe (toLe n x) = x := by
  rw [ofLe_toLe, Nat.mod_eq_of_lt h]

/-! ### Chunks -/

variable {α : Type*}

/-- Chunk number `i` of a string. -/
def chunk (size : ℕ) (data : List α) (i : ℕ) : List α := (data.drop (i * size)).take size

lemma flatten_chunks (size : ℕ) (data : List α) (n : ℕ) :
    ((List.range n).map (chunk size data)).flatten = data.take (n * size) := by
  induction n with
  | zero => simp
  | succ n ih =>
    rw [List.range_succ, List.map_append, List.flatten_append, ih, Nat.succ_mul, List.take_add]
    simp [chunk]

theorem flatten_all_chunks {size : ℕ} (hsize : 0 < size) (data : List α) :
    ((List.range ((data.length + size - 1) / size)).map (chunk size data)).flatten = data := by
  rw [flatten_chunks, List.take_of_length_le]
  have hdiv := Nat.div_add_mod (data.length + size - 1) size
  have hmod := Nat.mod_lt (data.length + size - 1) hsize
  rw [Nat.mul_comm] at hdiv
  omega

/-! ### Numbers below a bound -/

lemma subperm_range {l : List ℕ} {n : ℕ} (hl : l.Nodup) (hlt : ∀ k ∈ l, k < n) :
    l.Subperm (List.range n) := by
  refine List.subperm_of_subset hl ?_
  intro k hk
  exact List.mem_range.mpr (hlt k hk)

lemma length_le_of_nodup {l : List ℕ} {n : ℕ} (hl : l.Nodup) (hlt : ∀ k ∈ l, k < n) :
    l.length ≤ n := by
  simpa using (subperm_range hl hlt).length_le

theorem mem_of_nodup_of_length {l : List ℕ} {n : ℕ} (hl : l.Nodup) (hlt : ∀ k ∈ l, k < n)
    (hlen : l.length = n) {k : ℕ} (hk : k < n) : k ∈ l := by
  have hperm := (subperm_range hl hlt).perm_of_length_le (by simp [hlen])
  exact hperm.mem_iff.mpr (List.mem_range.mpr hk)

lemma le_length_of_forall_mem {l : List ℕ} {n : ℕ} (h : ∀ k < n, k ∈ l) : n ≤ l.length := by
  have hsub := List.subperm_of_subset (List.nodup_range (n := n))
    (fun k hk => h k (List.mem_range.mp hk))
  simpa using hsub.length_le

end PanTilt.Lib.Chunks
