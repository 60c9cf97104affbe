import Mathlib.Algebra.Order.Floor.Semifield
import Mathlib.Data.Rat.Floor
import PanTilt.Alu.Div
import PanTilt.Alu.SumOrder

/-!
The order of the operands of a quotient.

Division is the operation that sees the order, and the two orders agree in corners only: equal
significands, exponents that wrap onto each other, and answers that both flags turn into the same
word. For a normal word and a denormalised one the two orders divide different significands, since
the implied bits and the normalisation come from the first word; the words agree there when both are
flagged alike, or when exponents and quotients agree (`QuotientNumber`).
-/

namespace PanTilt.Alu

/-! ### Quotients of significands -/

/-- The 24 leading bits of the exact quotient of two significands, of which `A` and `B` are the
fractions. -/
def leadingBits (A B : ℕ) : ℕ :=
  ⌊(2 ^ 23 + A : ℚ) / (2 ^ 23 + B) * if B ≤ A then 2 ^ 23 else 2 ^ 24⌋₊

section Frac

variable {A B : ℕ} (hA : A < 2 ^ 23) (hB : B < 2 ^ 23)

lemma quotientFrac_self (A : ℕ) : quotientFrac A A = 0 := by
  rw [quotientFrac, if_pos le_rfl, significandQuotient, Nat.mul_div_cancel_left _ (by omega)]
  rfl

include hA hB

lemma quotientFrac_eq_zero_of_le (h : B ≤ A) :
    quotientFrac A B = 0 ↔ A = B ∨ A = B + 1 ∧ 0 < B := by
  obtain ⟨-, hlt, htop⟩ := significandQuotient_bounds hA hB
  have hge := htop.2 h
  have hq : quotientFrac A B = 0 ↔ significandQuotient A B < 2 ^ 24 + 2 := by
    rw [quotientFrac, if_pos h]
    omega
  rw [hq, significandQuotient, Nat.div_lt_iff_lt_mul (by omega)]
  omega

lemma quotientFrac_eq_zero_of_lt (h : A < B) :
    quotientFrac A B = 0 ↔ A = 0 ∧ B = 2 ^ 23 - 1 := by
  obtain ⟨hge, -, htop⟩ := significandQuotient_bounds hA hB
  have hlt : ¬ 2 ^ 24 ≤ significandQuotient A B := fun hge => absurd (htop.1 hge) (by omega)
  have hq : quotientFrac A B = 0 ↔ significandQuotient A B < 2 ^ 23 + 1 := by
    rw [quotientFrac, if_neg (by omega)]
    omega
  rw [hq, significandQuotient, Nat.div_lt_iff_lt_mul (by omega)]
  omega

omit hA in
lemma quotientFrac_zero_ne : quotientFrac 0 B ≠ 2 ^ 23 - 1 := by
  rcases Nat.eq_zero_or_pos B with rfl | hpos
  · rw [quotientFrac_self]
    omega
  · obtain ⟨hge, -, htop⟩ := significandQuotient_bounds (Nat.two_pow_pos 23) hB
    have hlt : ¬ 2 ^ 24 ≤ significandQuotient 0 B := fun hge => absurd (htop.1 hge) (by omega)
    have hq : significandQuotient 0 B < 2 ^ 24 - 1 := by
      rw [significandQuotient, Nat.div_lt_iff_lt_mul (by omega)]
      omega
    rw [quotientFrac, if_neg (by omega)]
    omega

lemma leadingBits_eq : leadingBits A B = 2 ^ 23 + quotientFrac A B := by
  obtain ⟨hge, hlt, htop⟩ := significandQuotient_bounds hA hB
  have hfloor : ∀ k : ℕ, ⌊(2 ^ 23 + A : ℚ) / (2 ^ 23 + B) * 2 ^ k⌋₊ =
      (2 ^ 23 + A) * 2 ^ k / (2 ^ 23 + B) := by
    intro k
    rw [div_mul_eq_mul_div, ← Nat.floor_div_eq_div (K := ℚ)]
    simp only [Nat.cast_mul, Nat.cast_add, Nat.cast_pow, Nat.cast_ofNat]
  unfold leadingBits quotientFrac
  by_cases hle : B ≤ A
  · have hhalf : (2 ^ 23 + A) * 2 ^ 23 / (2 ^ 23 + B) = significandQuotient A B / 2 := by
      rw [significandQuotient, Nat.div_div_eq_div_mul, pow_succ 2 23, ← Nat.mul_assoc,
        Nat.mul_div_mul_right _ _ Nat.two_pos]
    have hbit := htop.2 hle
    rw [if_pos hle, if_pos hle, hfloor, hhalf]
    omega
  · have hbit := mt htop.1 hle
    rw [if_neg hle, if_neg hle, hfloor]
    change significandQuotient A B = _
    omega

lemma leadingBits_inj {C D : ℕ} (hC : C < 2 ^ 23) (hD : D < 2 ^ 23) :
    leadingBits A B = leadingBits C D ↔ quotientFrac A B = quotientFrac C D := by
  rw [leadingBits_eq hA hB, leadingBits_eq hC hD]
  omega

end Frac

/-! ### The word of a quotient -/

/-- The word of a quotient under the exponent `t`: at least one, or below one. -/
def quotientWord (x s : Bool) (t : ℕ) (A B : ℕ) (exc : Bool) : Fields :=
  if B ≤ A then
    if x && decide (256 ≤ t) then ⟨s, 255, 0⟩
    else if !x && decide (t < 256) then ⟨s, 0, 0⟩
    else if exc then ⟨true, 255, 2 ^ 23 - 1⟩
    else ⟨s, t % 256, quotientFrac A B⟩
  else if 256 < t then ⟨s, 255, 0⟩
  else if t = 0 then ⟨s, 0, 0⟩
  else if exc then ⟨true, 255, 2 ^ 23 - 1⟩
  else ⟨s, (t + 255) % 256, quotientFrac A B⟩

lemma quotient_fields (x : Bool) (a b : Fields) :
    (quotientOutcome x a b).fields = quotientWord x (a.sign ^^ b.sign) (quotientExpo a b)
      (dividend a) (divisor a b) (exceptional a b || (b.expo == 0 && b.frac == 0)) := by
  unfold quotientOutcome quotientWord Outcome.fields
  split
  · rfl
  · simp only [decide_eq_true_eq, beq_iff_eq]

lemma quotientWord_of_lt {x s exc : Bool} {t A B : ℕ} (ht : t < 256) :
    quotientWord x s t A B exc =
      if B ≤ A then
        if x then if exc then ⟨true, 255, 2 ^ 23 - 1⟩ else ⟨s, t, quotientFrac A B⟩
        else ⟨s, 0, 0⟩
      else if t = 0 then ⟨s, 0, 0⟩
      else if exc then ⟨true, 255, 2 ^ 23 - 1⟩ else ⟨s, t - 1, quotientFrac A B⟩ := by
  unfold quotientWord
  rw [decide_eq_false (by omega), decide_eq_true ht, if_neg (by omega : ¬ 256 < t),
    Nat.mod_eq_of_lt ht]
  rcases Nat.eq_zero_or_pos t with rfl | hpos
  · cases x <;> simp
  · rw [show (t + 255) % 256 = t - 1 by omega]
    cases x <;> simp

/-! ### Two denormalised words -/

section Subnormal

variable {x : Bool} {a b : Fields}

lemma quotient_fields_subnormal (ha₀ : a.expo = 0) (hb₀ : b.expo = 0) :
    (quotientOutcome x a b).fields =
      quotientWord x (a.sign ^^ b.sign) (127 + normShift b.frac - normShift a.frac)
        (normFrac a.frac) (normFrac b.frac) (b.frac == 0) := by
  have hsa := normShift_le a.frac
  have hsb := normShift_le b.frac
  have hexpo : quotientExpo a b = 127 + normShift b.frac - normShift a.frac := by
    unfold quotientExpo Fields.implied
    simp only [ha₀, hb₀, if_true, Nat.zero_add]
    omega
  rw [quotient_fields, hexpo]
  unfold dividend divisor Fields.implied exceptional
  rw [ha₀, hb₀, if_pos rfl, Nat.zero_add, Nat.zero_add]
  rfl

lemma quotient_subnormal_lt (ha₀ : a.expo = 0) (hb₀ : b.expo = 0)
    (h : normFrac a.frac < normFrac b.frac) : ¬ Commutes (quotientOutcome x) a b := by
  have hsa := normShift_le a.frac
  have hsb := normShift_le b.frac
  have hb : (b.frac == 0) = false := by
    rw [beq_eq_false_iff_ne]
    intro h₀
    rw [h₀, normFrac_of_defaulted (.inl rfl)] at h
    omega
  intro hc
  have hexpo := congrArg Fields.expo hc
  rw [quotient_fields_subnormal ha₀ hb₀, quotient_fields_subnormal hb₀ ha₀,
    quotientWord_of_lt (by omega), quotientWord_of_lt (by omega), if_pos h.le,
    if_neg (show ¬ normFrac b.frac ≤ normFrac a.frac by omega),
    if_neg (show ¬ 127 + normShift b.frac - normShift a.frac = 0 by omega), hb,
    if_neg Bool.false_ne_true] at hexpo
  -- a quotient and its reciprocal have exponents of different parity
  cases x
  · simp only [Bool.false_eq_true, if_false] at hexpo
    omega
  · rw [if_pos rfl] at hexpo
    split at hexpo
    · simp only at hexpo
      omega
    · simp only at hexpo
      omega

/-- For two denormalised words: without `x` a quotient from one on is lost. -/
def QuotientSubnormal (x : Bool) (a b : Fields) : Prop :=
  if x then a.frac = b.frac ∨ (16 ≤ a.frac ∧ a.frac < 32) ∧ 16 ≤ b.frac ∧ b.frac < 32
  else normFrac a.frac = normFrac b.frac

/-- Two mantissas with one normalised fraction have one shift only if they are equal, or both are
shifted by the default. -/
lemma normShift_eq_iff {m₁ m₂ : ℕ} (h₁ : m₁ ≠ 0) (h₂ : m₂ ≠ 0) (h₁' : m₁ < 2 ^ 23)
    (h₂' : m₂ < 2 ^ 23) (h : normFrac m₁ = normFrac m₂) :
    normShift m₁ = normShift m₂ ↔
      m₁ = m₂ ∨ (16 ≤ m₁ ∧ m₁ < 32) ∧ 16 ≤ m₂ ∧ m₂ < 32 := by
  have hshift : ∀ {m}, m < 2 ^ 23 → (normShift m = 0 ↔ Defaulted m) := by
    intro m hm
    refine ⟨fun hs => ?_, normShift_of_defaulted⟩
    by_contra hd
    have hpos := le_normShift_of_lt hd hm (Nat.le_succ 23)
    omega
  constructor
  · intro hs
    by_cases hd : Defaulted m₁
    · have hd' : Defaulted m₂ := (hshift h₂').1 (hs ▸ (hshift h₁').2 hd)
      unfold Defaulted at hd hd'
      omega
    · have hd' : ¬ Defaulted m₂ := fun hd' => hd ((hshift h₁').1 (hs.trans ((hshift h₂').2 hd')))
      exact .inl (eq_of_norm_eq hd hd' (by omega) (by omega) h hs)
  · rintro (rfl | ⟨hd, hd'⟩)
    · rfl
    · rw [normShift_of_defaulted (.inr hd), normShift_of_defaulted (.inr hd')]

lemma quotient_subnormal_eq (ha : a.Valid) (hb : b.Valid) (ha₀ : a.expo = 0) (hb₀ : b.expo = 0)
    (h : normFrac a.frac = normFrac b.frac) :
    Commutes (quotientOutcome x) a b ↔ QuotientSubnormal x a b := by
  have h₁ := ha.frac
  have h₂ := hb.frac
  have hsa := normShift_le a.frac
  have hsb := normShift_le b.frac
  unfold Commutes QuotientSubnormal
  rw [quotient_fields_subnormal ha₀ hb₀, quotient_fields_subnormal hb₀ ha₀,
    quotientWord_of_lt (by omega), quotientWord_of_lt (by omega), h, if_pos le_rfl, if_pos le_rfl,
    quotientFrac_self, Bool.xor_comm]
  cases x
  · exact iff_of_true rfl rfl
  · rw [if_pos rfl, if_pos rfl, if_pos rfl]
    by_cases h₁₀ : a.frac = 0
    · by_cases h₂₀ : b.frac = 0
      · rw [h₁₀, h₂₀]
        exact iff_of_true rfl (.inl rfl)
      · rw [if_pos (beq_iff_eq.2 h₁₀), if_neg fun hz => h₂₀ (beq_iff_eq.1 hz), Fields.mk.injEq]
        omega
    · by_cases h₂₀ : b.frac = 0
      · rw [if_neg fun hz => h₁₀ (beq_iff_eq.1 hz), if_pos (beq_iff_eq.2 h₂₀), Fields.mk.injEq]
        omega
      · rw [if_neg fun hz => h₁₀ (beq_iff_eq.1 hz), if_neg fun hz => h₂₀ (beq_iff_eq.1 hz),
          Fields.mk.injEq, show (127 + normShift a.frac - normShift b.frac =
            127 + normShift b.frac - normShift a.frac) ↔ normShift a.frac = normShift b.frac by
              omega]
        simp only [true_and, and_true]
        exact normShift_eq_iff h₁₀ h₂₀ h₁ h₂ h

lemma normFrac_eq_of_subnormal (h : QuotientSubnormal x a b) :
    normFrac a.frac = normFrac b.frac := by
  unfold QuotientSubnormal at h
  cases x
  · exact h
  · rcases h with h | ⟨h₁, h₂⟩
    · rw [h]
    · rw [normFrac_of_defaulted (.inr h₁), normFrac_of_defaulted (.inr h₂)]

theorem quotient_commutes_subnormal (ha : a.Valid) (hb : b.Valid) (ha₀ : a.expo = 0)
    (hb₀ : b.expo = 0) : Commutes (quotientOutcome x) a b ↔ QuotientSubnormal x a b := by
  rcases Nat.lt_trichotomy (normFrac a.frac) (normFrac b.frac) with h | h | h
  · exact iff_of_false (quotient_subnormal_lt ha₀ hb₀ h)
      (fun hq => h.ne (normFrac_eq_of_subnormal hq))
  · exact quotient_subnormal_eq ha hb ha₀ hb₀ h
  · exact iff_of_false (fun hc => quotient_subnormal_lt hb₀ ha₀ h hc.symm)
      (fun hq => h.ne' (normFrac_eq_of_subnormal hq))

end Subnormal

/-! ### Two normal words -/

section Normal

variable {x : Bool} {a b : Fields}

lemma quotient_fields_normal (ha : a.Valid) (hb : b.Valid) (ha₀ : a.expo ≠ 0) (hb₀ : b.expo ≠ 0) :
    (quotientOutcome x a b).fields = quotientWord x (a.sign ^^ b.sign)
      ((a.expo + 383 - b.expo) % 256) a.frac b.frac (exceptional a b) := by
  obtain ⟨hA, hB, hexpo⟩ := quotient_of_normal ha hb ha₀
  rw [quotient_fields, hexpo, hA, hB, beq_eq_false_iff_ne.2 hb₀, Bool.false_and, Bool.or_false]

/-- For two normal words, the first fraction larger: the exponents wrap onto each other, or an
exception covers both answers. -/
def QuotientGreater (x : Bool) (a b : Fields) : Prop :=
  if x then exceptional a b = true ∧ ¬ (a.expo = b.expo + 127 ∨ b.expo = a.expo + 129)
  else (a.expo = b.expo + 127 ∨ b.expo = a.expo + 129) ∨
    exceptional a b = false ∧ (a.expo = b.expo + 126 ∨ b.expo = a.expo + 130) ∧
      a.frac = 2 ^ 23 - 1 ∧ b.frac = 0

lemma quotient_commutes_greater (ha : a.Valid) (hb : b.Valid) (ha₀ : a.expo ≠ 0) (hb₀ : b.expo ≠ 0)
    (h : b.frac < a.frac) : Commutes (quotientOutcome x) a b ↔ QuotientGreater x a b := by
  have h₁ := ha.expo
  have h₂ := hb.expo
  have hzero := quotientFrac_eq_zero_of_lt hb.frac ha.frac h
  unfold Commutes QuotientGreater
  rw [quotient_fields_normal ha hb ha₀ hb₀, quotient_fields_normal hb ha hb₀ ha₀,
    quotientWord_of_lt (Nat.mod_lt _ (by omega)), quotientWord_of_lt (Nat.mod_lt _ (by omega)),
    if_neg (show ¬ a.frac ≤ b.frac by omega), if_pos h.le, exceptional_comm, Bool.xor_comm]
  have hwrap : (b.expo + 383 - a.expo) % 256 = 0 ↔
      a.expo = b.expo + 127 ∨ b.expo = a.expo + 129 := by
    omega
  rw [← hwrap]
  generalize ht : (a.expo + 383 - b.expo) % 256 = t
  generalize ht' : (b.expo + 383 - a.expo) % 256 = t'
  cases x
  · simp only [Bool.false_eq_true, if_false]
    by_cases h₀ : t' = 0
    · rw [if_pos h₀]
      exact iff_of_true rfl (.inl h₀)
    · rw [if_neg h₀]
      rcases exceptional a b with _ | _
      · simp only [h₀, Bool.false_eq_true, if_false, Fields.mk.injEq, true_and, false_or, hzero]
        omega
      · simp [h₀]
  · simp only [if_true]
    rcases exceptional a b with _ | _
    · -- the exponents of a quotient and its reciprocal differ in parity
      refine iff_of_false (fun hw => ?_) (by simp)
      have hexpo := congrArg Fields.expo hw
      simp only [Bool.false_eq_true, if_false] at hexpo
      split at hexpo
      · simp only at hexpo
        omega
      · simp only at hexpo
        omega
    · by_cases h₀ : t' = 0
      · simp [h₀]
      · simp [h₀]

/-- For two normal words. -/
def QuotientNormal (x : Bool) (a b : Fields) : Prop :=
  if a.frac = b.frac then
    x = false ∨ exceptional a b = true ∨ a.expo = b.expo ∨ a.expo = b.expo + 128 ∨
      b.expo = a.expo + 128
  else if b.frac < a.frac then QuotientGreater x a b else QuotientGreater x b a

theorem quotient_commutes_normal (ha : a.Valid) (hb : b.Valid) (ha₀ : a.expo ≠ 0)
    (hb₀ : b.expo ≠ 0) : Commutes (quotientOutcome x) a b ↔ QuotientNormal x a b := by
  unfold QuotientNormal
  rcases Nat.lt_trichotomy a.frac b.frac with h | h | h
  · rw [if_neg h.ne, if_neg (by omega), ← quotient_commutes_greater hb ha hb₀ ha₀ h]
    exact eq_comm
  · have h₁ := ha.expo
    have h₂ := hb.expo
    unfold Commutes
    rw [if_pos h, quotient_fields_normal ha hb ha₀ hb₀, quotient_fields_normal hb ha hb₀ ha₀,
      quotientWord_of_lt (Nat.mod_lt _ (by omega)), quotientWord_of_lt (Nat.mod_lt _ (by omega)),
      h, if_pos le_rfl, if_pos le_rfl, quotientFrac_self, exceptional_comm, Bool.xor_comm]
    cases x
    · exact iff_of_true rfl (.inl rfl)
    · rcases exceptional a b with _ | _
      · simp only [if_true, Bool.false_eq_true, if_false, Fields.mk.injEq, true_and, and_true,
          Bool.true_eq_false, false_or]
        omega
      · exact iff_of_true rfl (.inr (.inl rfl))
  · rw [if_neg h.ne', if_pos h]
    exact quotient_commutes_greater ha hb ha₀ hb₀ h

end Normal

/-! ### A normal word and a denormalised one -/

section Mixed

variable {x : Bool} {a b : Fields}

lemma quotient_fields_normal_first (ha : a.Valid) (hb : b.Valid) (ha₀ : a.expo ≠ 0)
    (hb₀ : b.expo = 0) :
    (quotientOutcome x a b).fields = quotientWord x (a.sign ^^ b.sign)
      ((a.expo + 127) % 256) a.frac b.frac (a.expo == 255 || b.frac == 0) := by
  obtain ⟨hA, hB, hexpo⟩ := quotient_of_normal ha hb ha₀
  have hexpo' : quotientExpo a b = (a.expo + 127) % 256 := by
    rw [hexpo, hb₀]
    omega
  rw [quotient_fields, hexpo', hA, hB]
  unfold exceptional
  simp [hb₀]

/-- The quotient of a denormalised word and a normal one: no implied bit, and both normalised. -/
lemma quotient_fields_subnormal_first (ha : a.Valid) (ha₀ : a.expo ≠ 0) (hb₀ : b.expo = 0) :
    (quotientOutcome x b a).fields = quotientWord x (a.sign ^^ b.sign)
      ((639 - a.expo - normShift b.frac) % 256 + normShift a.frac) (normFrac b.frac)
      (normFrac a.frac) (a.expo == 255) := by
  have he := ha.expo
  have hsb := normShift_le b.frac
  have hexpo : quotientExpo b a =
      (639 - a.expo - normShift b.frac) % 256 + normShift a.frac := by
    unfold quotientExpo Fields.implied
    simp only [hb₀, if_true, Nat.zero_add]
    omega
  rw [quotient_fields, hexpo, Bool.xor_comm]
  unfold dividend divisor Fields.implied exceptional
  simp [hb₀, beq_eq_false_iff_ne.2 ha₀]

/-- The exponent of the denormalised order leaves its 8 bits: `temp_E2[8]` is set. -/
def Carries (e sa sb : ℕ) : Prop := 128 ≤ e + sb ∧ e + sb ≤ 127 + sa

instance (e sa sb : ℕ) : Decidable (Carries e sa sb) := inferInstanceAs (Decidable (_ ∧ _))

/-- The denormalised order is above the range. -/
def Overflows (e A B sa sb : ℕ) : Prop := Carries e sa sb ∧ (A ≤ B ∨ e + sb ≠ 127 + sa)

instance (e A B sa sb : ℕ) : Decidable (Overflows e A B sa sb) :=
  inferInstanceAs (Decidable (_ ∧ _))

lemma not_overflows_iff {e A B sa sb : ℕ} : ¬ Overflows e A B sa sb ↔
    if A ≤ B then ¬ Carries e sa sb else Carries e sa sb → e + sb = 127 + sa := by
  unfold Overflows
  split
  · tauto
  · tauto

lemma quotientWord_normal_first {s : Bool} {e m₁ m₂ : ℕ} (he : e < 256) :
    quotientWord x s ((e + 127) % 256) m₁ m₂ (e == 255 || m₂ == 0) =
      if m₂ ≤ m₁ then
        if x then if e = 255 ∨ m₂ = 0 then ⟨true, 255, 2 ^ 23 - 1⟩
          else ⟨s, (e + 127) % 256, quotientFrac m₁ m₂⟩
        else ⟨s, 0, 0⟩
      else if e = 129 then ⟨s, 0, 0⟩
      else if e = 255 then ⟨true, 255, 2 ^ 23 - 1⟩
      else ⟨s, (e + 126) % 256, quotientFrac m₁ m₂⟩ := by
  rw [quotientWord_of_lt (Nat.mod_lt _ (by omega))]
  simp only [Bool.or_eq_true, beq_iff_eq]
  by_cases hle : m₂ ≤ m₁
  · rw [if_pos hle, if_pos hle]
  · rw [if_neg hle, if_neg hle]
    by_cases h129 : e = 129
    · rw [if_pos (by omega), if_pos h129]
    · rw [if_neg (by omega), if_neg h129]
      by_cases h255 : e = 255
      · rw [if_pos (.inl h255), if_pos h255]
      · rw [if_neg (by omega), if_neg h255, show (e + 127) % 256 - 1 = (e + 126) % 256 by omega]

lemma quotientWord_subnormal_first {s : Bool} {e A B sa sb : ℕ} (he₀ : 0 < e) (he : e < 256)
    (hsa : sa ≤ 23) (hsb : sb ≤ 23) (hA : B < A → 0 < sa) :
    quotientWord x s ((639 - e - sb) % 256 + sa) B A (e == 255) =
      if A ≤ B then
        if x then
          if Carries e sa sb then ⟨s, 255, 0⟩
          else if e = 255 then ⟨true, 255, 2 ^ 23 - 1⟩
          else ⟨s, (639 - e - sb + sa) % 256, quotientFrac B A⟩
        else if Carries e sa sb then ⟨s, 127 + sa - e - sb, quotientFrac B A⟩
        else ⟨s, 0, 0⟩
      else if Carries e sa sb ∧ e + sb ≠ 127 + sa then ⟨s, 255, 0⟩
      else if e = 255 then ⟨true, 255, 2 ^ 23 - 1⟩
      else ⟨s, (638 - e - sb + sa) % 256, quotientFrac B A⟩ := by
  have hcarry : 256 ≤ (639 - e - sb) % 256 + sa ↔ Carries e sa sb := by unfold Carries; omega
  have hover : 256 < (639 - e - sb) % 256 + sa ↔ Carries e sa sb ∧ e + sb ≠ 127 + sa := by
    unfold Carries
    omega
  unfold quotientWord
  by_cases hle : A ≤ B
  · rw [if_pos hle, if_pos hle]
    by_cases hc : Carries e sa sb
    · have hge := hcarry.2 hc
      have hne : e ≠ 255 := by unfold Carries at hc; omega
      have hmod : ((639 - e - sb) % 256 + sa) % 256 = 127 + sa - e - sb := by
        unfold Carries at hc
        omega
      rw [decide_eq_true hge, decide_eq_false (by omega), if_pos hc, if_pos hc, hmod,
        beq_eq_false_iff_ne.2 hne]
      cases x
      · simp
      · simp
    · have hlt : (639 - e - sb) % 256 + sa < 256 := Nat.lt_of_not_le fun h => hc (hcarry.1 h)
      rw [decide_eq_false (by omega), decide_eq_true hlt, if_neg hc, if_neg hc,
        show ((639 - e - sb) % 256 + sa) % 256 = (639 - e - sb + sa) % 256 by omega]
      cases x
      · simp
      · simp
  · have hpos := hA (by omega)
    rw [if_neg hle, if_neg hle, if_neg (show ¬ (639 - e - sb) % 256 + sa = 0 by omega),
      show ((639 - e - sb) % 256 + sa + 255) % 256 = (638 - e - sb + sa) % 256 by omega]
    simp only [hover, beq_iff_eq]

/-- Both words are the same zero, the same infinity, or all ones. -/
def QuotientSpecial (x : Bool) (e m₁ m₂ : ℕ) : Prop :=
  if x then e = 255 ∨ e = 128 ∧ m₁ = 32 ∧ m₂ = 31
  else e = 255 ∧ m₁ < m₂ ∧ normFrac m₂ < normFrac m₁ ∨
    (m₂ ≤ m₁ ∨ e = 129 ∨ e = 130 ∧ m₁ = 0 ∧ m₂ = 2 ^ 23 - 1) ∧ normFrac m₁ ≤ normFrac m₂ ∧
      (¬ Carries e (normShift m₁) (normShift m₂) ∨
        e + normShift m₂ = 127 + normShift m₁ ∧ normFrac m₁ = normFrac m₂)

/-- Neither word is flagged, their exponents agree, and the exact quotients of their significands
have the same leading bits. -/
def QuotientNumber (x : Bool) (e m₁ m₂ : ℕ) : Prop :=
  (if x then m₂ ≠ 0 ∧ (m₂ ≤ m₁ ∨ e ≠ 129) else m₁ < m₂ ∧ e ≠ 129) ∧ e ≠ 255 ∧
    (if normFrac m₁ ≤ normFrac m₂ then Carries e (normShift m₁) (normShift m₂) ↔ x = false
      else Carries e (normShift m₁) (normShift m₂) → e + normShift m₂ = 127 + normShift m₁) ∧
    (2 * e + normShift m₂ + if m₂ ≤ m₁ then 1 else 0) % 256 =
      (normShift m₁ + if normFrac m₁ ≤ normFrac m₂ then 1 else 0) % 256 ∧
    leadingBits m₁ m₂ = leadingBits (normFrac m₂) (normFrac m₁)

lemma quotientNumber_iff {x : Bool} {e m₁ m₂ : ℕ} (h₁ : m₁ < 2 ^ 23) (h₂ : m₂ < 2 ^ 23) :
    QuotientNumber x e m₁ m₂ ↔
      (if x then m₂ ≠ 0 ∧ (m₂ ≤ m₁ ∨ e ≠ 129) else m₁ < m₂ ∧ e ≠ 129) ∧ e ≠ 255 ∧
        (if normFrac m₁ ≤ normFrac m₂ then Carries e (normShift m₁) (normShift m₂) ↔ x = false
          else Carries e (normShift m₁) (normShift m₂) → e + normShift m₂ = 127 + normShift m₁) ∧
        (2 * e + normShift m₂ + if m₂ ≤ m₁ then 1 else 0) % 256 =
          (normShift m₁ + if normFrac m₁ ≤ normFrac m₂ then 1 else 0) % 256 ∧
        quotientFrac m₁ m₂ = quotientFrac (normFrac m₂) (normFrac m₁) := by
  unfold QuotientNumber
  rw [leadingBits_inj h₁ h₂ (normFrac_lt (by omega)) (normFrac_lt (by omega))]

/-- For a normal word and a denormalised one. -/
def QuotientMixed (x : Bool) (a b : Fields) : Prop :=
  QuotientSpecial x a.expo a.frac b.frac ∨ QuotientNumber x a.expo a.frac b.frac

/-- What the case analysis of a mixed quotient uses: `A`, `B`, `sa` and `sb` normalise the fractions
`m₁` and `m₂`, and `f` and `g` are the bits of the two quotients. -/
structure MixedFacts (m₁ m₂ A B sa sb f g : ℕ) : Prop where
  sa_le : sa ≤ 23
  sb_le : sb ≤ 23
  shifted : B < A → 0 < sa
  zero : m₁ = 0 → sa = 0
  f_le : m₂ ≤ m₁ → (f = 0 ↔ m₁ = m₂ ∨ m₁ = m₂ + 1 ∧ 0 < m₂)
  f_lt : m₁ < m₂ → (f = 0 ↔ m₁ = 0 ∧ m₂ = 2 ^ 23 - 1)
  g_le : A ≤ B → (g = 0 ↔ A = B)
  g_lt : B < A → g ≠ 0
  ones : m₂ = 0 → g ≠ 2 ^ 23 - 1
  close : m₁ = m₂ ∨ m₁ = m₂ + 1 ∧ 0 < m₂ → sb < sa → m₁ = 32 ∧ m₂ = 31
  corner : m₁ = 32 → m₂ = 31 → A = 0 ∧ B = 0 ∧ sa = 18 ∧ sb = 0

lemma mixedFacts {m₁ m₂ : ℕ} (h₁ : m₁ < 2 ^ 23) (h₂ : m₂ < 2 ^ 23) :
    MixedFacts m₁ m₂ (normFrac m₁) (normFrac m₂) (normShift m₁) (normShift m₂)
      (quotientFrac m₁ m₂) (quotientFrac (normFrac m₂) (normFrac m₁)) := by
  have hA := normFrac_lt (r := m₁) (by omega)
  have hB := normFrac_lt (r := m₂) (by omega)
  have hA₂ := normFrac_even h₁
  have hB₂ := normFrac_even h₂
  refine ⟨normShift_le _, normShift_le _, ?_, ?_, quotientFrac_eq_zero_of_le h₁ h₂,
    quotientFrac_eq_zero_of_lt h₁ h₂, ?_, ?_, ?_, ?_, ?_⟩
  · intro h
    have hd : ¬ Defaulted m₁ := fun hd => by
      rw [normFrac_of_defaulted hd] at h
      omega
    exact le_normShift_of_lt hd h₁ (Nat.le_succ 23)
  · rintro rfl
    exact normShift_of_defaulted (.inl rfl)
  · intro h
    rw [quotientFrac_eq_zero_of_le hB hA h]
    omega
  · intro h h₀
    rw [quotientFrac_eq_zero_of_lt hB hA h] at h₀
    omega
  · rintro rfl
    rw [normFrac_of_defaulted (r := 0) (.inl rfl)]
    exact quotientFrac_zero_ne hA
  · rintro (rfl | ⟨rfl, hpos⟩) hlt
    · exact absurd hlt (lt_irrefl _)
    · have hd : ¬ Defaulted (m₂ + 1) := fun hd => by
        rw [normShift_of_defaulted hd] at hlt
        omega
      -- a larger mantissa is shifted no farther, unless the default takes the smaller one
      by_cases hd' : Defaulted m₂
      · unfold Defaulted at hd hd'
        omega
      · have hlog : Nat.log 2 m₂ ≤ Nat.log 2 (m₂ + 1) := Nat.log_mono_right (Nat.le_succ m₂)
        rw [normShift, if_neg hd', normShift, if_neg hd] at hlt
        omega
  · rintro rfl rfl
    have hd : ¬ Defaulted 32 := by decide
    have hs : normShift 32 = 18 := normShift_eq hd (p := 5) le_rfl (by omega)
    have hmul := (mul_two_pow_normShift hd (by omega)).1
    rw [hs] at hmul
    exact ⟨by omega, normFrac_of_defaulted (.inr (by omega)), hs,
      normShift_of_defaulted (.inr (by omega))⟩

section Cases

variable {s : Bool} {e m₁ m₂ A B sa sb : ℕ} (he₀ : 0 < e) (he : e < 256)
  (h : MixedFacts m₁ m₂ A B sa sb (quotientFrac m₁ m₂) (quotientFrac B A))

include he₀ he h

lemma subnormal_first_eq_zero :
    quotientWord false s ((639 - e - sb) % 256 + sa) B A (e == 255) = ⟨s, 0, 0⟩ ↔
      A ≤ B ∧ (¬ Carries e sa sb ∨ e + sb = 127 + sa ∧ A = B) := by
  rw [quotientWord_subnormal_first he₀ he h.sa_le h.sb_le h.shifted, if_neg Bool.false_ne_true]
  by_cases hle : A ≤ B
  · have hg := h.g_le hle
    rw [if_pos hle]
    by_cases hc : Carries e sa sb
    · rw [if_pos hc, Fields.mk.injEq]
      simp only [hc, hle, true_and, not_true_eq_false, false_or]
      unfold Carries at hc
      omega
    · rw [if_neg hc]
      exact iff_of_true rfl ⟨hle, .inl hc⟩
  · rw [if_neg hle]
    refine iff_of_false (fun hw => ?_) (fun hw => hle hw.1)
    split at hw
    · cases hw
    · split at hw
      · cases hw
      · rw [Fields.mk.injEq] at hw
        exact h.g_lt (by omega) hw.2.2

lemma subnormal_first_false {E f : ℕ} (hE : E < 255) (he' : e ≠ 255) (hf : ¬ (E = 0 ∧ f = 0)) :
    quotientWord false s ((639 - e - sb) % 256 + sa) B A (e == 255) = ⟨s, E, f⟩ ↔
      (if A ≤ B then Carries e sa sb else Carries e sa sb → e + sb = 127 + sa) ∧
      (E + e + sb) % 256 = (126 + sa + if A ≤ B then 1 else 0) % 256 ∧ f = quotientFrac B A := by
  have hsa := h.sa_le
  have hsb := h.sb_le
  rw [quotientWord_subnormal_first he₀ he hsa hsb h.shifted, if_neg Bool.false_ne_true]
  by_cases hle : A ≤ B
  · rw [if_pos hle, if_pos hle, if_pos hle]
    by_cases hc : Carries e sa sb
    · rw [if_pos hc, Fields.mk.injEq]
      simp only [hc, true_and]
      unfold Carries at hc
      omega
    · rw [if_neg hc, Fields.mk.injEq]
      exact iff_of_false (fun hw => hf ⟨hw.2.1.symm, hw.2.2.symm⟩) (fun hw => hc hw.1)
  · rw [if_neg hle, if_neg hle, if_neg hle]
    by_cases hc : Carries e sa sb ∧ e + sb ≠ 127 + sa
    · rw [if_pos hc, Fields.mk.injEq]
      exact iff_of_false (fun hw => by omega) (fun hw => hc.2 (hw.1 hc.1))
    · rw [if_neg hc, if_neg he', Fields.mk.injEq]
      have hc' : Carries e sa sb → e + sb = 127 + sa := fun hcar =>
        by_contra fun hne => hc ⟨hcar, hne⟩
      simp only [true_and]
      constructor
      · intro hw
        exact ⟨hc', by omega⟩
      · intro hw
        omega

lemma subnormal_first_true {E f : ℕ} (hE : E < 256) (he' : e ≠ 255) :
    quotientWord true s ((639 - e - sb) % 256 + sa) B A (e == 255) = ⟨s, E, f⟩ ↔
      if Overflows e A B sa sb then E = 255 ∧ f = 0
      else (E + e + sb) % 256 = (126 + sa + if A ≤ B then 1 else 0) % 256 ∧
        f = quotientFrac B A := by
  have hsa := h.sa_le
  have hsb := h.sb_le
  rw [quotientWord_subnormal_first he₀ he hsa hsb h.shifted, if_pos rfl, if_neg he', if_neg he']
  by_cases hle : A ≤ B
  · rw [if_pos hle, if_pos hle]
    by_cases hc : Carries e sa sb
    · rw [if_pos hc, if_pos (show Overflows e A B sa sb from ⟨hc, .inl hle⟩), Fields.mk.injEq]
      simp only [true_and]
      omega
    · rw [if_neg hc, if_neg (fun hw : Overflows e A B sa sb => hc hw.1), Fields.mk.injEq]
      simp only [true_and]
      omega
  · rw [if_neg hle, if_neg hle]
    by_cases hc : Carries e sa sb ∧ e + sb ≠ 127 + sa
    · rw [if_pos hc, if_pos (show Overflows e A B sa sb from ⟨hc.1, .inr hc.2⟩), Fields.mk.injEq]
      simp only [true_and]
      omega
    · rw [if_neg hc, if_neg (fun hw : Overflows e A B sa sb => hc ⟨hw.1, hw.2.resolve_left hle⟩),
        Fields.mk.injEq]
      simp only [true_and]
      omega

/-- With `x`, the normal order being a quotient from one on: both are infinite in one corner, and
else both are numbers. -/
lemma subnormal_first_eq_of_le (he' : e ≠ 255) (hle : m₂ ≤ m₁) :
    quotientWord true s ((639 - e - sb) % 256 + sa) B A (e == 255) =
        ⟨s, (e + 127) % 256, quotientFrac m₁ m₂⟩ ↔
      e = 128 ∧ m₁ = 32 ∧ m₂ = 31 ∨
        ¬ Overflows e A B sa sb ∧
          (2 * e + sb + 1) % 256 = (sa + if A ≤ B then 1 else 0) % 256 ∧
          quotientFrac m₁ m₂ = quotientFrac B A := by
  rw [subnormal_first_true he₀ he h (Nat.mod_lt _ (by omega)) he']
  by_cases hover : Overflows e A B sa sb
  · rw [if_pos hover, h.f_le hle]
    have hcar := hover.1
    unfold Carries at hcar
    constructor
    · rintro ⟨hinf, hone⟩
      exact .inl ⟨by omega, h.close hone (by omega)⟩
    · rintro (⟨h128, h32, h31⟩ | ⟨hno, -⟩)
      · exact ⟨by omega, by omega⟩
      · exact absurd hover hno
  · rw [if_neg hover]
    constructor
    · rintro ⟨hw, hfrac⟩
      exact .inr ⟨hover, by omega, hfrac⟩
    · rintro (⟨h128, h32, h31⟩ | ⟨-, hw, hfrac⟩)
      · have hcorner := h.corner h32 h31
        refine absurd ?_ hover
        unfold Overflows Carries
        omega
      · exact ⟨by omega, hfrac⟩

lemma subnormal_first_eq_of_lt (he' : e ≠ 255) (h129 : e ≠ 129) :
    quotientWord true s ((639 - e - sb) % 256 + sa) B A (e == 255) =
        ⟨s, (e + 126) % 256, quotientFrac m₁ m₂⟩ ↔
      ¬ Overflows e A B sa sb ∧
        (2 * e + sb + 0) % 256 = (sa + if A ≤ B then 1 else 0) % 256 ∧
        quotientFrac m₁ m₂ = quotientFrac B A := by
  rw [subnormal_first_true he₀ he h (Nat.mod_lt _ (by omega)) he']
  by_cases hover : Overflows e A B sa sb
  · rw [if_pos hover]
    exact iff_of_false (by omega) (fun hw => hw.1 hover)
  · rw [if_neg hover]
    constructor
    · rintro ⟨hw, hfrac⟩
      exact ⟨hover, by omega, hfrac⟩
    · rintro ⟨-, hw, hfrac⟩
      exact ⟨by omega, hfrac⟩

lemma subnormal_first_ne_zero (h129 : e = 129) :
    quotientWord true s ((639 - e - sb) % 256 + sa) B A (e == 255) ≠ ⟨s, 0, 0⟩ := by
  have hsa := h.sa_le
  have hsb := h.sb_le
  intro hw
  rw [subnormal_first_true he₀ he h (by omega) (by omega)] at hw
  split at hw
  · omega
  case isFalse hover =>
    have hlt : B < A := by
      by_contra hge
      have hAB : A ≤ B := by omega
      rw [if_pos hAB] at hw
      refine hover ⟨?_, .inl hAB⟩
      unfold Carries
      omega
    exact h.g_lt hlt hw.2.symm

lemma subnormal_first_ne_ones (he' : e ≠ 255) (hm₂ : m₂ = 0) :
    quotientWord true s ((639 - e - sb) % 256 + sa) B A (e == 255) ≠ ⟨true, 255, 2 ^ 23 - 1⟩ := by
  have hones := h.ones hm₂
  intro hw
  have hfrac := congrArg Fields.frac hw
  rw [quotientWord_subnormal_first he₀ he h.sa_le h.sb_le h.shifted, if_pos rfl, if_neg he',
    if_neg he'] at hfrac
  split at hfrac
  · split at hfrac
    · cases hfrac
    · exact hones hfrac
  · split at hfrac
    · cases hfrac
    · exact hones hfrac

lemma subnormal_first_exceptional (x : Bool) (he' : e = 255) :
    quotientWord x s ((639 - e - sb) % 256 + sa) B A (e == 255) =
      if A ≤ B ∧ x = false then ⟨s, 0, 0⟩ else ⟨true, 255, 2 ^ 23 - 1⟩ := by
  have hsa := h.sa_le
  have hc : ¬ Carries e sa sb := by unfold Carries; omega
  rw [quotientWord_subnormal_first he₀ he hsa h.sb_le h.shifted, if_neg hc, if_neg hc, if_pos he']
  by_cases hle : A ≤ B
  · rw [if_pos hle]
    cases x
    · rw [if_neg Bool.false_ne_true, if_pos ⟨hle, rfl⟩]
    · rw [if_pos rfl, if_neg fun hw => Bool.noConfusion hw.2]
  · rw [if_neg hle, if_neg (fun hw : Carries e sa sb ∧ _ => hc hw.1), if_pos he',
      if_neg fun hw => hle hw.1]

end Cases

/-- Without `x`, the normal order being lost or at the bottom of the range: the other one is zero,
too. -/
lemma mixed_false_lost {s : Bool} {e m₁ m₂ : ℕ} (he₀ : 0 < e) (he : e < 256) (h₁ : m₁ < 2 ^ 23)
    (h₂ : m₂ < 2 ^ 23) (hlow : m₂ ≤ m₁ ∨ e = 129) :
    quotientWord false s ((639 - e - normShift m₂) % 256 + normShift m₁) (normFrac m₂)
        (normFrac m₁) (e == 255) = ⟨s, 0, 0⟩ ↔
      QuotientSpecial false e m₁ m₂ ∨ QuotientNumber false e m₁ m₂ := by
  rw [subnormal_first_eq_zero he₀ he (mixedFacts h₁ h₂), quotientNumber_iff h₁ h₂]
  unfold QuotientSpecial
  simp only [Bool.false_eq_true, if_false]
  constructor
  · rintro ⟨hle, hw⟩
    exact .inl (.inr ⟨by omega, hle, hw⟩)
  · rintro ((hw | ⟨-, hle, hw⟩) | ⟨hw, -⟩)
    · omega
    · exact ⟨hle, hw⟩
    · omega

/-- Without `x`, one over the largest significand: the smallest number of the normal order has the
exponent zero and no bits. -/
lemma mixed_false_bottom {s : Bool} :
    quotientWord false s ((639 - 130 - normShift (2 ^ 23 - 1)) % 256 + normShift 0)
        (normFrac (2 ^ 23 - 1)) (normFrac 0) (130 == 255) = ⟨s, 0, 0⟩ ↔
      QuotientSpecial false 130 0 (2 ^ 23 - 1) ∨ QuotientNumber false 130 0 (2 ^ 23 - 1) := by
  have hfacts := mixedFacts (Nat.two_pow_pos 23) (show 2 ^ 23 - 1 < 2 ^ 23 by omega)
  have hsa := hfacts.zero rfl
  have hpos := hfacts.shifted
  rw [subnormal_first_eq_zero (by omega) (by omega) hfacts,
    quotientNumber_iff (Nat.two_pow_pos 23) (by omega)]
  unfold QuotientSpecial
  simp only [Bool.false_eq_true, if_false, iff_true]
  constructor
  · rintro ⟨hle, hw⟩
    exact .inl (.inr ⟨.inr (.inr ⟨trivial, trivial, trivial⟩), hle, hw⟩)
  · rintro ((hw | ⟨-, hle, hw⟩) | ⟨-, -, hcar, -⟩)
    · omega
    · exact ⟨hle, hw⟩
    · split at hcar
      · unfold Carries at hcar
        omega
      · omega

lemma mixed_false {s : Bool} {e m₁ m₂ : ℕ} (he₀ : 0 < e) (he : e < 256) (h₁ : m₁ < 2 ^ 23)
    (h₂ : m₂ < 2 ^ 23) :
    quotientWord false s ((639 - e - normShift m₂) % 256 + normShift m₁) (normFrac m₂)
        (normFrac m₁) (e == 255) =
      quotientWord false s ((e + 127) % 256) m₁ m₂ (e == 255 || m₂ == 0) ↔
    QuotientSpecial false e m₁ m₂ ∨ QuotientNumber false e m₁ m₂ := by
  have hfacts := mixedFacts h₁ h₂
  rw [quotientWord_normal_first he]
  simp only [Bool.false_eq_true, if_false]
  by_cases hle : m₂ ≤ m₁
  · rw [if_pos hle]
    exact mixed_false_lost he₀ he h₁ h₂ (.inl hle)
  rw [if_neg hle]
  by_cases h129 : e = 129
  · rw [if_pos h129]
    exact mixed_false_lost he₀ he h₁ h₂ (.inr h129)
  rw [if_neg h129]
  by_cases h255 : e = 255
  · rw [if_pos h255, subnormal_first_exceptional he₀ he hfacts false h255]
    rw [quotientNumber_iff h₁ h₂]
    unfold QuotientSpecial
    simp only [Bool.false_eq_true, if_false, and_true]
    split
    · exact iff_of_false (fun hw => by cases hw) (by omega)
    · exact iff_of_true rfl (.inl (.inl ⟨h255, by omega, by omega⟩))
  rw [if_neg h255]
  by_cases hbottom : e = 130 ∧ m₁ = 0 ∧ m₂ = 2 ^ 23 - 1
  · obtain ⟨rfl, rfl, rfl⟩ := hbottom
    rw [(hfacts.f_lt (by omega)).2 ⟨rfl, rfl⟩]
    exact mixed_false_bottom
  · -- both orders are numbers
    have hpos := hfacts.shifted
    have hf := hfacts.f_lt
    have hcongr : ∀ c, ((e + 126) % 256 + e + normShift m₂) % 256 =
        (126 + normShift m₁ + c) % 256 ↔
          (2 * e + normShift m₂ + 0) % 256 = (normShift m₁ + c) % 256 := by omega
    rw [subnormal_first_false he₀ he hfacts (by omega) h255 (by omega), hcongr]
    rw [quotientNumber_iff h₁ h₂]
    unfold QuotientSpecial
    simp only [Bool.false_eq_true, if_false, iff_true, if_neg hle]
    constructor
    · intro hw
      exact .inr ⟨by omega, h255, hw⟩
    · rintro ((hw | hw) | ⟨-, -, hw⟩)
      · omega
      · omega
      · exact hw

lemma mixed_true {s : Bool} {e m₁ m₂ : ℕ} (he₀ : 0 < e) (he : e < 256) (h₁ : m₁ < 2 ^ 23)
    (h₂ : m₂ < 2 ^ 23) :
    quotientWord true s ((639 - e - normShift m₂) % 256 + normShift m₁) (normFrac m₂)
        (normFrac m₁) (e == 255) =
      quotientWord true s ((e + 127) % 256) m₁ m₂ (e == 255 || m₂ == 0) ↔
    QuotientSpecial true e m₁ m₂ ∨ QuotientNumber true e m₁ m₂ := by
  have hfacts := mixedFacts h₁ h₂
  rw [quotientWord_normal_first he, quotientNumber_iff h₁ h₂]
  unfold QuotientSpecial
  simp only [if_true, Bool.true_eq_false, iff_false, ← not_overflows_iff]
  by_cases h255 : e = 255
  · rw [subnormal_first_exceptional he₀ he hfacts true h255, if_neg fun hw => Bool.noConfusion hw.2,
      if_pos (show e = 255 ∨ m₂ = 0 from .inl h255), if_neg (show ¬ e = 129 by omega),
      if_pos h255, ite_self]
    exact iff_of_true rfl (.inl (.inl h255))
  · by_cases hle : m₂ ≤ m₁
    · rw [if_pos hle, if_pos hle]
      by_cases hm₂ : m₂ = 0
      · rw [if_pos (.inr hm₂)]
        exact iff_of_false (subnormal_first_ne_ones he₀ he hfacts h255 hm₂) (by omega)
      · rw [if_neg (by omega), subnormal_first_eq_of_le he₀ he hfacts h255 hle]
        tauto
    · rw [if_neg hle, if_neg hle, if_neg h255]
      by_cases h129 : e = 129
      · rw [if_pos h129]
        exact iff_of_false (subnormal_first_ne_zero he₀ he hfacts h129) (by omega)
      · rw [if_neg h129, subnormal_first_eq_of_lt he₀ he hfacts h255 h129]
        have hcorner : ¬ (e = 128 ∧ m₁ = 32 ∧ m₂ = 31) := by omega
        have hm₂ : m₂ ≠ 0 := by omega
        tauto

theorem quotient_commutes_mixed (ha : a.Valid) (hb : b.Valid) (ha₀ : a.expo ≠ 0)
    (hb₀ : b.expo = 0) : Commutes (quotientOutcome x) a b ↔ QuotientMixed x a b := by
  unfold Commutes QuotientMixed
  rw [quotient_fields_normal_first ha hb ha₀ hb₀, quotient_fields_subnormal_first ha ha₀ hb₀]
  cases x
  · exact mixed_false (Nat.pos_of_ne_zero ha₀) ha.expo ha.frac hb.frac
  · exact mixed_true (Nat.pos_of_ne_zero ha₀) ha.expo ha.frac hb.frac

end Mixed

/-- For two words of one class. -/
def QuotientSame (x : Bool) (a b : Fields) : Prop :=
  if a.expo = 0 then QuotientSubnormal x a b else QuotientNormal x a b

theorem quotient_commutes_iff (x : Bool) {a b : Fields} (ha : a.Valid) (hb : b.Valid) :
    Commutes (quotientOutcome x) a b ↔ byClass (QuotientSame x) (QuotientMixed x) a b := by
  refine commutes_iff_byClass (fun a b ha hb h => ?_) (fun _ _ => quotient_commutes_mixed) ha hb
  unfold QuotientSame
  split
  case isTrue ha₀ => exact quotient_commutes_subnormal ha hb ha₀ (h.1 ha₀)
  case isFalse ha₀ => exact quotient_commutes_normal ha hb ha₀ (fun hb₀ => ha₀ (h.2 hb₀))

end PanTilt.Alu
