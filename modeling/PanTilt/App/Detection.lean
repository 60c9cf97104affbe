import Mathlib.Algebra.Order.BigOperators.Group.Finset
import Mathlib.Algebra.BigOperators.Ring.Finset
import Mathlib.Algebra.Order.Field.Basic
import PanTilt.App.BlobFilter
import PanTilt.App.ControlLoop

/-!
From the raw green mask to the test of the control thread: the clean-up of `green_mask_thread`,
`calculate_com` of `com_calculator.c`, and the test of `start_thread_func` on its result.

The sentinel of `calculate_com` and the test know nothing of each other. They agree since the mask
has a black border, so that no center of mass is in row or column zero (`detection_correct`).
-/

namespace PanTilt.App

open Lib.Grid

variable {H W : ℕ}

/-! ### The center of mass -/

/-- The counters of `calculate_com`, `unsigned long` of 32 bits. -/
structure Sums where
  sumX : BitVec 32
  sumY : BitVec 32
  count : BitVec 32

/-- The body of the loops over `y` and `x`. -/
def addPixel (mask : Mask H W) (s : Sums) (p : Pixel H W) : Sums :=
  if mask p ≠ 0 then
    { sumX := s.sumX + BitVec.ofNat 32 p.2
      sumY := s.sumY + BitVec.ofNat 32 p.1
      count := s.count + 1 }
  else s

/-- The counters after some pixels. -/
def sums (mask : Mask H W) (ps : List (Pixel H W)) : Sums :=
  ps.foldl (addPixel mask) { sumX := 0, sumY := 0, count := 0 }

/-- `calculate_com`, with exact quotients. -/
def calculateCom (mask : Mask H W) : COM :=
  let s := sums mask (scan H W)
  if BitVec.ofNat 32 MIN_GREEN_PIXELS ≤ s.count then
    { comX := (s.sumX.toNat : ℚ) / s.count.toNat
      comY := (s.sumY.toNat : ℚ) / s.count.toNat }
  else { comX := -1, comY := -1 }

/-- What `green_mask_thread` makes of the thresholded mask. -/
def cleanMask (b : MaskBuffers H W) : Mask H W := filterSmallBlobs (openMask b).greenMask 600

/-! ### The counters -/

/-- The white pixels among some. -/
def whites (mask : Mask H W) (ps : List (Pixel H W)) : List (Pixel H W) :=
  ps.filter (fun p => mask p ≠ 0)

lemma foldl_addPixel (mask : Mask H W) (ps : List (Pixel H W)) (s : Sums) :
    ps.foldl (addPixel mask) s =
      { sumX := s.sumX + BitVec.ofNat 32 ((whites mask ps).map fun p => p.2.val).sum
        sumY := s.sumY + BitVec.ofNat 32 ((whites mask ps).map fun p => p.1.val).sum
        count := s.count + BitVec.ofNat 32 (whites mask ps).length } := by
  induction ps generalizing s with
  | nil => simp [whites]
  | cons p ps ih =>
    rw [List.foldl_cons, ih]
    by_cases hp : mask p ≠ 0
    · have hcons : whites mask (p :: ps) = p :: whites mask ps :=
        List.filter_cons_of_pos (decide_eq_true hp)
      have hone : BitVec.ofNat 32 (whites mask ps).length + 1 =
          BitVec.ofNat 32 ((whites mask ps).length + 1) := (BitVec.ofNat_add ..).symm
      rw [hcons, addPixel, if_pos hp, List.map_cons, List.sum_cons, List.map_cons, List.sum_cons,
        List.length_cons, BitVec.ofNat_add, BitVec.ofNat_add, ← hone]
      simp only [BitVec.add_assoc, BitVec.add_comm 1]
    · have hcons : whites mask (p :: ps) = whites mask ps :=
        List.filter_cons_of_neg (by simpa using hp)
      rw [hcons, addPixel, if_neg hp]

lemma toNat_zero_add_ofNat {n : ℕ} (h : n < 2 ^ 32) :
    ((0 : BitVec 32) + BitVec.ofNat 32 n).toNat = n := by
  rw [show (0 : BitVec 32) = 0#32 from rfl, BitVec.zero_add, BitVec.toNat_ofNat,
    Nat.mod_eq_of_lt h]

lemma sum_map_le {ps : List (Pixel H W)} {f : Pixel H W → ℕ} {bound : ℕ} (hf : ∀ p, f p ≤ bound) :
    (ps.map f).sum ≤ ps.length * bound := by
  induction ps with
  | nil => simp
  | cons p ps ih =>
    have := hf p
    rw [List.map_cons, List.sum_cons, List.length_cons, Nat.succ_mul]
    omega

theorem sums_exact (hW : H * W * W < 2 ^ 32) (hH : H * W * H < 2 ^ 32) (mask : Mask H W)
    {ps : List (Pixel H W)} (hps : ps <+: scan H W) :
    (sums mask ps).sumX.toNat = ((whites mask ps).map fun p => p.2.val).sum ∧
      (sums mask ps).sumY.toNat = ((whites mask ps).map fun p => p.1.val).sum ∧
      (sums mask ps).count.toNat = (whites mask ps).length := by
  have hlen : (whites mask ps).length ≤ H * W := by
    calc (whites mask ps).length ≤ ps.length := List.length_filter_le ..
      _ ≤ (scan H W).length := hps.length_le
      _ = H * W := length_scan
  have hx : ((whites mask ps).map fun p => p.2.val).sum ≤ H * W * W :=
    (sum_map_le fun p => Nat.le_of_lt p.2.isLt).trans (Nat.mul_le_mul_right W hlen)
  have hy : ((whites mask ps).map fun p => p.1.val).sum ≤ H * W * H :=
    (sum_map_le fun p => Nat.le_of_lt p.1.isLt).trans (Nat.mul_le_mul_right H hlen)
  have hcount : (whites mask ps).length < 2 ^ 32 := by
    rcases ps.eq_nil_or_concat with rfl | ⟨_, p, _⟩
    · simp [whites]
    · have hW' : 0 < W := Nat.zero_lt_of_lt p.2.isLt
      calc (whites mask ps).length ≤ H * W * 1 := by rwa [Nat.mul_one]
        _ ≤ H * W * W := Nat.mul_le_mul_left (H * W) hW'
        _ < 2 ^ 32 := hW
  rw [sums, foldl_addPixel]
  exact ⟨toNat_zero_add_ofNat (by omega), toNat_zero_add_ofNat (by omega),
    toNat_zero_add_ofNat hcount⟩

/-- The white pixels of a mask. -/
def whitePixels (mask : Mask H W) : Finset (Pixel H W) := Finset.univ.filter (fun p => mask p ≠ 0)

lemma toFinset_whites (mask : Mask H W) :
    (whites mask (scan H W)).toFinset = whitePixels mask := by
  ext p
  simp [whites, whitePixels]

lemma whites_nodup (mask : Mask H W) : (whites mask (scan H W)).Nodup := scan_nodup.filter _

lemma length_whites (mask : Mask H W) :
    (whites mask (scan H W)).length = (whitePixels mask).card := by
  rw [← toFinset_whites, List.toFinset_card_of_nodup (whites_nodup mask)]

lemma sum_whites (mask : Mask H W) (f : Pixel H W → ℕ) :
    ((whites mask (scan H W)).map f).sum = ∑ p ∈ whitePixels mask, f p := by
  rw [← toFinset_whites, List.sum_toFinset f (whites_nodup mask)]

/-- **`calculate_com` computes the mean** of the white pixels, if there are enough. -/
theorem calculateCom_eq (hW : H * W * W < 2 ^ 32) (hH : H * W * H < 2 ^ 32) (mask : Mask H W) :
    calculateCom mask =
      if MIN_GREEN_PIXELS ≤ (whitePixels mask).card then
        { comX := ((∑ p ∈ whitePixels mask, p.2.val : ℕ) : ℚ) / (whitePixels mask).card
          comY := ((∑ p ∈ whitePixels mask, p.1.val : ℕ) : ℚ) / (whitePixels mask).card }
      else { comX := -1, comY := -1 } := by
  obtain ⟨hx, hy, hcount⟩ := sums_exact hW hH mask (List.prefix_refl (scan H W))
  rw [sum_whites] at hx hy
  rw [length_whites] at hcount
  have hle : BitVec.ofNat 32 MIN_GREEN_PIXELS ≤ (sums mask (scan H W)).count ↔
      MIN_GREEN_PIXELS ≤ (whitePixels mask).card := by
    rw [BitVec.le_def, hcount]
    exact Iff.rfl
  simp only [calculateCom, hle, hx, hy, hcount]

/-! ### Detection -/

theorem cleanMask_inner {b : MaskBuffers H W} {p : Pixel H W} (h : cleanMask b p ≠ 0) :
    Inner p := by
  have hopen : (openMask b).greenMask p ≠ 0 := by
    rcases filterSmallBlobs_eq_or (openMask b).greenMask 600 p with heq | h0
    · rwa [cleanMask, heq] at h
    · exact absurd h0 h
  have hmem : p ∈ white (openMask b).greenMask := hopen
  rw [white_openMask] at hmem
  exact hmem.2

lemma mean_mem {S : Finset (Pixel H W)} {f : Pixel H W → ℕ} {bound : ℕ} (hS : 0 < S.card)
    (hf : ∀ p ∈ S, 1 ≤ f p ∧ f p ≤ bound) :
    (1 : ℚ) ≤ ((∑ p ∈ S, f p : ℕ) : ℚ) / S.card ∧ ((∑ p ∈ S, f p : ℕ) : ℚ) / S.card ≤ bound := by
  have hpos : (0 : ℚ) < S.card := by exact_mod_cast hS
  have hlow : S.card * 1 ≤ ∑ p ∈ S, f p := Finset.card_nsmul_le_sum S f 1 (fun p hp => (hf p hp).1)
  have hhigh : ∑ p ∈ S, f p ≤ S.card * bound :=
    Finset.sum_le_card_nsmul S f bound (fun p hp => (hf p hp).2)
  refine ⟨?_, ?_⟩
  · rw [le_div_iff₀ hpos, one_mul]
    exact_mod_cast (by omega : S.card ≤ ∑ p ∈ S, f p)
  · rw [div_le_iff₀ hpos, mul_comm]
    exact_mod_cast hhigh

lemma calculateCom_cleanMask (hW : H * W * W < 2 ^ 32) (hH : H * W * H < 2 ^ 32)
    {b : MaskBuffers H W} (h : MIN_GREEN_PIXELS ≤ (whitePixels (cleanMask b)).card) :
    (1 ≤ (calculateCom (cleanMask b)).comX ∧
        (calculateCom (cleanMask b)).comX ≤ (W - 2 : ℕ)) ∧
      1 ≤ (calculateCom (cleanMask b)).comY ∧
        (calculateCom (cleanMask b)).comY ≤ (H - 2 : ℕ) := by
  have hpos : 0 < (whitePixels (cleanMask b)).card :=
    Nat.lt_of_lt_of_le (show 0 < 1000 by decide) h
  have hinner : ∀ p ∈ whitePixels (cleanMask b),
      (1 ≤ p.1.val ∧ p.1.val ≤ H - 2) ∧ 1 ≤ p.2.val ∧ p.2.val ≤ W - 2 := by
    intro p hp
    obtain ⟨hy, hx⟩ := cleanMask_inner (Finset.mem_filter.mp hp).2
    omega
  rw [calculateCom_eq hW hH, if_pos h]
  exact ⟨mean_mem hpos (fun p hp => (hinner p hp).2), mean_mem hpos (fun p hp => (hinner p hp).1)⟩

lemma valid_calculateCom_iff (hW : H * W * W < 2 ^ 32) (hH : H * W * H < 2 ^ 32)
    (b : MaskBuffers H W) : (calculateCom (cleanMask b)).Valid ↔
      MIN_GREEN_PIXELS ≤ (whitePixels (cleanMask b)).card := by
  by_cases h : MIN_GREEN_PIXELS ≤ (whitePixels (cleanMask b)).card
  · obtain ⟨⟨hx, _⟩, hy, _⟩ := calculateCom_cleanMask hW hH h
    exact iff_of_true ⟨lt_of_lt_of_le one_pos hx, lt_of_lt_of_le one_pos hy⟩ h
  · rw [calculateCom_eq hW hH, if_neg h]
    refine iff_of_false ?_ h
    intro hvalid
    exact absurd hvalid.1 (by norm_num)

/-- **The control thread accepts exactly the detected objects.** The counters are exact at any
point of the scan, the test on the center of mass is true exactly when enough pixels of the clean
mask are white, and the center of mass is then their mean, inside the border of the frame. -/
theorem detection_correct (b : MaskBuffers HEIGHT WIDTH) :
    (∀ ps, ps <+: scan HEIGHT WIDTH →
        (sums (cleanMask b) ps).sumX.toNat = ((whites (cleanMask b) ps).map fun p => p.2.val).sum ∧
        (sums (cleanMask b) ps).sumY.toNat = ((whites (cleanMask b) ps).map fun p => p.1.val).sum ∧
        (sums (cleanMask b) ps).count.toNat = (whites (cleanMask b) ps).length) ∧
      ((calculateCom (cleanMask b)).Valid ↔
        MIN_GREEN_PIXELS ≤ (whitePixels (cleanMask b)).card) ∧
      (MIN_GREEN_PIXELS ≤ (whitePixels (cleanMask b)).card →
        calculateCom (cleanMask b) =
            { comX := ((∑ p ∈ whitePixels (cleanMask b), p.2.val : ℕ) : ℚ) /
                (whitePixels (cleanMask b)).card
              comY := ((∑ p ∈ whitePixels (cleanMask b), p.1.val : ℕ) : ℚ) /
                (whitePixels (cleanMask b)).card } ∧
          (1 ≤ (calculateCom (cleanMask b)).comX ∧
            (calculateCom (cleanMask b)).comX ≤ (WIDTH - 2 : ℕ)) ∧
          1 ≤ (calculateCom (cleanMask b)).comY ∧
            (calculateCom (cleanMask b)).comY ≤ (HEIGHT - 2 : ℕ)) := by
  have hW : HEIGHT * WIDTH * WIDTH < 2 ^ 32 := by decide
  have hH : HEIGHT * WIDTH * HEIGHT < 2 ^ 32 := by decide
  refine ⟨?_, valid_calculateCom_iff hW hH b, ?_⟩
  · intro ps hps
    exact sums_exact hW hH _ hps
  · intro h
    refine ⟨?_, calculateCom_cleanMask hW hH h⟩
    rw [calculateCom_eq hW hH, if_pos h]

end PanTilt.App
