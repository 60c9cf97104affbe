import PanTilt.Alu.AddSub

/-!
The order of the operands of a sum or a difference.

Two words of one class, both normal or both denormalised, have the same implied bit, so that the
circuit aligns them the same way in either order (`aligned_swap`) and only the sign can differ. In
a mixed pair the implied bits come from the exponent of the first word, and the two orders compute
with different significands.
-/

namespace PanTilt.Alu

/-- An operation gives the same word for both orders of its operands. -/
def Commutes (f : Fields → Fields → Outcome) (a b : Fields) : Prop :=
  (f b a).fields = (f a b).fields

/-- A condition on two words of one class and one on a mixed pair, the normal word first. -/
def byClass (same mixed : Fields → Fields → Prop) (a b : Fields) : Prop :=
  if a.expo = 0 ↔ b.expo = 0 then same a b else if b.expo = 0 then mixed a b else mixed b a

/-- It suffices to compare the words of one class, and a normal word with a denormalised one. -/
theorem commutes_iff_byClass {f : Fields → Fields → Outcome} {same mixed : Fields → Fields → Prop}
    (hsame : ∀ a b : Fields, a.Valid → b.Valid → (a.expo = 0 ↔ b.expo = 0) →
      (Commutes f a b ↔ same a b))
    (hmixed : ∀ a b : Fields, a.Valid → b.Valid → a.expo ≠ 0 → b.expo = 0 →
      (Commutes f a b ↔ mixed a b))
    {a b : Fields} (ha : a.Valid) (hb : b.Valid) : Commutes f a b ↔ byClass same mixed a b := by
  unfold byClass
  split
  case isTrue h => exact hsame a b ha hb h
  case isFalse h =>
    split
    case isTrue h₀ => exact hmixed a b ha hb (fun ha₀ => h ⟨fun _ => h₀, fun _ => ha₀⟩) h₀
    case isFalse h₀ =>
      have ha₀ : a.expo = 0 := by
        by_contra hne
        exact h ⟨fun he => absurd he hne, fun he => absurd he h₀⟩
      rw [← hmixed b a hb ha h₀ ha₀]
      exact eq_comm

/-! ### The words of the two outcomes -/

lemma Outcome.sign_fields {o : Outcome} (h : o.exception = false) : o.fields.sign = o.sign := by
  unfold Outcome.fields
  rw [h]
  split
  · rfl
  · split <;> rfl

lemma normalised_fields {s : Bool} {e r : ℕ} (he : e < 255) :
    (normalised s e r false).fields =
      if e = 254 ∧ normShift r = 0 then ⟨s, 255, 0⟩
      else if e < normShift r then ⟨s, 0, 0⟩ else ⟨s, e - normShift r, normFrac r⟩ := by
  unfold Outcome.fields normalised
  simp only [Bool.and_eq_true, beq_iff_eq, decide_eq_true_eq, Bool.false_eq_true, if_false]
  split
  · rfl
  · split
    · rfl
    · rw [show (e + 256 - normShift r) % 256 = e - normShift r by omega]

lemma normalised_inj_sign {s s' : Bool} {e r : ℕ} :
    (normalised s e r false).fields = (normalised s' e r false).fields ↔ s = s' := by
  constructor
  · intro h
    have hsign := congrArg Fields.sign h
    rwa [Outcome.sign_fields rfl, Outcome.sign_fields rfl] at hsign
  · rintro rfl
    rfl

lemma carried_inj_sign {s s' : Bool} {e t : ℕ} :
    (carried s e t false).fields = (carried s' e t false).fields ↔ s = s' := by
  constructor
  · intro h
    have hsign := congrArg Fields.sign h
    rwa [Outcome.sign_fields rfl, Outcome.sign_fields rfl] at hsign
  · rintro rfl
    rfl

lemma sumOutcome_exceptional {sub : Bool} {a b : Fields} (ha : a.Valid) (hb : b.Valid)
    (h : exceptional a b = true) : (sumOutcome sub a b).fields = ⟨true, 255, 2 ^ 23 - 1⟩ := by
  have hmax := max_of_exceptional ha hb h
  have hnorm : ∀ s r, (normalised s 255 r true).fields = ⟨true, 255, 2 ^ 23 - 1⟩ := fun s r => by
    have hle := normShift_le r
    simp [normalised, Outcome.fields, show ¬ 255 < normShift r by omega]
  unfold sumOutcome
  rw [hmax, h]
  split
  · split
    · exact hnorm _ _
    · exact hnorm _ _
  · split
    · exact hnorm _ _
    · rfl

/-! ### Words of one class -/

section Same

variable {a b : Fields} (hclass : a.expo = 0 ↔ b.expo = 0)

include hclass

lemma implied_eq_of_class : a.implied = b.implied := by
  unfold Fields.implied
  by_cases h : a.expo = 0
  · rw [if_pos h, if_pos (hclass.1 h)]
  · rw [if_neg h, if_neg fun hb => h (hclass.2 hb)]

theorem aligned_swap : alignedFst b a = alignedSnd a b ∧ alignedSnd b a = alignedFst a b := by
  have himplied := implied_eq_of_class hclass
  unfold alignedFst alignedSnd
  rw [himplied]
  rcases Nat.lt_trichotomy a.expo b.expo with h | h | h
  · rw [if_pos h.le, if_neg (by omega), if_pos h.le, if_neg (by omega)]
    exact ⟨rfl, rfl⟩
  · rw [h, if_pos le_rfl, if_pos le_rfl, if_pos le_rfl, if_pos le_rfl, Nat.sub_self, Nat.pow_zero,
      Nat.div_one, Nat.div_one]
    exact ⟨rfl, rfl⟩
  · rw [if_neg (by omega), if_pos h.le, if_neg (by omega), if_pos h.le]
    exact ⟨rfl, rfl⟩

theorem aligned_eq_iff (ha : a.Valid) (hb : b.Valid) :
    alignedFst a b = alignedSnd a b ↔ a.expo = b.expo ∧ a.frac = b.frac := by
  have hfa := ha.frac
  have hfb := hb.frac
  have hhalf : ∀ {m d : ℕ}, m < 2 ^ 23 → 0 < d → (2 ^ 23 + m) / 2 ^ d < 2 ^ 23 := by
    intro m d hm hd
    have hpow : 2 ^ 1 ≤ 2 ^ d := Nat.pow_le_pow_right Nat.two_pos hd
    calc (2 ^ 23 + m) / 2 ^ d ≤ (2 ^ 23 + m) / 2 ^ 1 := Nat.div_le_div_left hpow Nat.two_pos
      _ < 2 ^ 23 := by omega
  have hnormal : a.expo ≠ b.expo → a.implied = 2 ^ 23 := by
    intro hne
    exact if_neg fun h => hne (h.trans (hclass.1 h).symm)
  unfold alignedFst alignedSnd
  rcases Nat.lt_trichotomy a.expo b.expo with h | h | h
  · have hlt := @hhalf a.frac (b.expo - a.expo) hfa (by omega)
    rw [if_neg (by omega), if_neg (by omega), hnormal h.ne]
    omega
  · rw [h, if_pos le_rfl, if_pos le_rfl, Nat.sub_self, Nat.pow_zero, Nat.div_one]
    omega
  · have hlt := @hhalf b.frac (a.expo - b.expo) hfb (by omega)
    rw [if_pos h.le, if_pos h.le, hnormal h.ne']
    omega

end Same

lemma exceptional_comm (a b : Fields) : exceptional b a = exceptional a b := Bool.or_comm _ _

/-- For words of one class: a sum has the same sign in both orders unless the words are opposite,
and a difference only if they are the same. -/
def SumSame (sub : Bool) (a b : Fields) : Prop :=
  exceptional a b = true ∨
    if sub then a = b else a.expo = b.expo → a.frac = b.frac → a.sign = b.sign

/-- The sum of two aligned significands, without an exception. -/
def alignedSum (op s : Bool) (e p q : ℕ) : Outcome :=
  if op then
    if q ≤ p then normalised s e (p - q) false else normalised (!s) e (q - p) false
  else if p + q < 2 ^ 24 then normalised s e (p + q) false
  else carried s e (p + q) false

lemma sign_alignedSum_false {s : Bool} {e p q : ℕ} :
    (alignedSum false s e p q).fields.sign = s := by
  unfold alignedSum
  rw [if_neg Bool.false_ne_true]
  split
  · exact Outcome.sign_fields rfl
  · exact Outcome.sign_fields rfl

lemma alignedSum_fields_iff {s t : Bool} {e p q : ℕ} (sub : Bool) :
    (alignedSum (sub ^^ t ^^ s) t e q p).fields = (alignedSum (sub ^^ s ^^ t) s e p q).fields ↔
      if sub then s = t ∧ p = q else p = q → s = t := by
  have hop : (sub ^^ t ^^ s) = (sub ^^ s ^^ t) := by cases sub <;> cases s <;> cases t <;> rfl
  unfold alignedSum
  rw [hop, Nat.add_comm q p]
  rcases h : sub ^^ s ^^ t with _ | _
  · -- the significands are added: the words differ in the sign of the first operand
    have hsign : (if sub then s = t ∧ p = q else p = q → s = t) ↔ t = s := by
      cases sub <;> cases s <;> cases t <;> simp at h ⊢
    rw [if_neg Bool.false_ne_true, if_neg Bool.false_ne_true, hsign]
    split
    · exact normalised_inj_sign
    · exact carried_inj_sign
  · -- they are subtracted: the sign is that of the larger one
    rw [if_pos rfl, if_pos rfl]
    rcases Nat.lt_trichotomy p q with hlt | rfl | hlt
    · rw [if_pos hlt.le, if_neg (by omega), normalised_inj_sign]
      cases sub <;> cases s <;> cases t <;> simp [hlt.ne] at h ⊢
    · rw [if_pos le_rfl, if_pos le_rfl, normalised_inj_sign]
      cases sub <;> cases s <;> cases t <;> simp at h ⊢
    · rw [if_neg (by omega), if_pos hlt.le, normalised_inj_sign]
      cases sub <;> cases s <;> cases t <;> simp [hlt.ne'] at h ⊢

lemma sumOutcome_eq {sub : Bool} {a b : Fields} (h : exceptional a b = false) :
    sumOutcome sub a b = alignedSum (sub ^^ a.sign ^^ b.sign) a.sign (max a.expo b.expo)
      (alignedFst a b) (alignedSnd a b) := by
  unfold sumOutcome alignedSum
  rw [h]

theorem sum_commutes_same (sub : Bool) {a b : Fields} (ha : a.Valid) (hb : b.Valid)
    (hclass : a.expo = 0 ↔ b.expo = 0) : Commutes (sumOutcome sub) a b ↔ SumSame sub a b := by
  unfold Commutes SumSame
  rcases hexc : exceptional a b with _ | _
  · obtain ⟨hfst, hsnd⟩ := aligned_swap hclass
    have heq := aligned_eq_iff hclass ha hb
    have hext : a = b ↔ a.sign = b.sign ∧ a.expo = b.expo ∧ a.frac = b.frac := Fields.ext_iff
    rw [sumOutcome_eq hexc, sumOutcome_eq ((exceptional_comm a b).trans hexc), hfst, hsnd,
      max_comm b.expo a.expo, alignedSum_fields_iff, hext, heq, and_imp]
    simp
  · rw [sumOutcome_exceptional ha hb hexc,
      sumOutcome_exceptional hb ha ((exceptional_comm a b).trans hexc)]
    exact iff_of_true rfl (.inl rfl)

/-! ### A normal word and a denormalised one -/

section Normalised

variable {s : Bool} {e : ℕ} (r : ℕ)

lemma normalised_of_le (he : e < 255) (h : 2 ^ 23 ≤ r) (hr : r < 2 ^ 24) :
    (normalised s e r false).fields =
      if e = 254 then ⟨s, 255, 0⟩ else ⟨s, e, r - 2 ^ 23⟩ := by
  obtain ⟨hs, hf⟩ := norm_of_le h hr
  rw [normalised_fields he, hs, hf, Nat.sub_zero]
  simp

lemma normalised_of_defaulted (he : e < 255) (h : Defaulted r) :
    (normalised s e r false).fields = if e = 254 then ⟨s, 255, 0⟩ else ⟨s, e, 0⟩ := by
  rw [normalised_fields he, normShift_of_defaulted h, normFrac_of_defaulted h, Nat.sub_zero]
  simp

lemma normalised_of_lt (he : e < 255) (h : ¬ Defaulted r) (hr : r < 2 ^ 23) :
    (normalised s e r false).fields =
      if e < normShift r then ⟨s, 0, 0⟩ else ⟨s, e - normShift r, normFrac r⟩ := by
  have hs := le_normShift_of_lt h hr (Nat.le_succ 23)
  rw [normalised_fields he, if_neg (by omega)]

lemma expo_normalised_of_lt (he : e < 255) (hpos : 0 < e) (h : ¬ Defaulted r) (hr : r < 2 ^ 23) :
    (normalised s e r false).fields.expo < e := by
  have hs := le_normShift_of_lt h hr (Nat.le_succ 23)
  rw [normalised_of_lt r he h hr]
  split
  · exact hpos
  · show e - normShift r < e
    omega

lemma expo_normalised_le (he : e < 254) : (normalised s e r false).fields.expo ≤ e := by
  rw [normalised_fields (by omega), if_neg (by omega)]
  split
  · exact Nat.zero_le e
  · exact Nat.sub_le e _

lemma carried_fields {t : ℕ} (he : e < 254) :
    (carried s e t false).fields = ⟨s, e + 1, ((t - 2 ^ 24) / 2 + t % 2) % 2 ^ 23⟩ := by
  unfold carried Outcome.fields
  rw [if_neg (by simp; omega), if_neg Bool.false_ne_true, if_neg Bool.false_ne_true,
    Nat.mod_eq_of_lt (by omega)]

end Normalised

/-- Aligned to the exponent `e`, a denormalised fraction `m` and the implied bit it lacks. -/
lemma aligned_gap {e m : ℕ} (he : 0 < e) (hm : m < 2 ^ 23) :
    (2 ^ 23 + m) / 2 ^ e = m / 2 ^ e + 2 ^ 23 / 2 ^ e ∧
      (24 ≤ e ∧ m / 2 ^ e = 0 ∧ 2 ^ 23 / 2 ^ e = 0 ∨
        e ≤ 23 ∧ 2 ^ 23 / 2 ^ e = 2 ^ (23 - e) ∧ m / 2 ^ e < 2 ^ 23 / 2 ^ e ∧
          2 ^ 23 / 2 ^ e ≤ 2 ^ 22) := by
  rcases Nat.lt_or_ge e 24 with h | h
  · have hdiv : 2 ^ 23 / 2 ^ e = 2 ^ (23 - e) := Nat.pow_div (by omega) Nat.two_pos
    have hmul : 2 ^ 23 = 2 ^ (23 - e) * 2 ^ e := by rw [← Nat.pow_add]; congr 1; omega
    refine ⟨?_, .inr ⟨by omega, hdiv, ?_, ?_⟩⟩
    · rw [hdiv, hmul, Nat.mul_comm, Nat.mul_add_div (Nat.two_pow_pos e), Nat.add_comm]
    · rw [hdiv, Nat.div_lt_iff_lt_mul (Nat.two_pow_pos e), ← hmul]
      exact hm
    · rw [hdiv]
      exact Nat.pow_le_pow_right Nat.two_pos (by omega)
  · have hpow : 2 ^ 24 ≤ 2 ^ e := Nat.pow_le_pow_right Nat.two_pos h
    rw [Nat.div_eq_of_lt (by omega), Nat.div_eq_of_lt (by omega), Nat.div_eq_of_lt (by omega)]
    exact ⟨rfl, .inl ⟨h, rfl, rfl⟩⟩

lemma aligned_mixed {a b : Fields} (ha : a.expo ≠ 0) (hb : b.expo = 0) :
    alignedFst a b = 2 ^ 23 + a.frac ∧ alignedSnd a b = (2 ^ 23 + b.frac) / 2 ^ a.expo ∧
      alignedFst b a = b.frac / 2 ^ a.expo ∧ alignedSnd b a = a.frac := by
  unfold alignedFst alignedSnd Fields.implied
  rw [hb, if_pos (Nat.zero_le _), if_neg ha, if_pos (Nat.zero_le _), if_neg (by omega), if_pos rfl,
    if_neg (by omega), Nat.zero_add, Nat.zero_add, Nat.sub_zero]
  exact ⟨rfl, rfl, rfl, rfl⟩

/-- A significand with and without the implied bit. -/
lemma normalised_implied_iff {s : Bool} {e m : ℕ} (he : 0 < e) (he' : e < 255) (hm : m < 2 ^ 23) :
    (normalised s e m false).fields = (normalised s e (2 ^ 23 + m) false).fields ↔
      m = 0 ∨ e = 254 ∧ 16 ≤ m ∧ m < 32 := by
  rw [normalised_of_le (2 ^ 23 + m) he' (by omega) (by omega), Nat.add_sub_cancel_left]
  by_cases hd : Defaulted m
  · rw [normalised_of_defaulted m he' hd]
    unfold Defaulted at hd
    split
    · simp
      omega
    · simp
      omega
  · have hlt := @expo_normalised_of_lt s e m he' he hd hm
    refine iff_of_false (fun h => ?_) (by unfold Defaulted at hd; omega)
    rw [h] at hlt
    split at hlt
    · exact absurd hlt (by simp; omega)
    · exact absurd hlt (lt_irrefl e)

lemma alignedSum_mixed_add {s : Bool} {e m₁ m₂ : ℕ} (he : 0 < e) (he' : e < 255)
    (h₁ : m₁ < 2 ^ 23) (h₂ : m₂ < 2 ^ 23) :
    (alignedSum false s e (m₂ / 2 ^ e) m₁).fields =
        (alignedSum false s e (2 ^ 23 + m₁) ((2 ^ 23 + m₂) / 2 ^ e)).fields ↔
      24 ≤ e ∧ m₁ = 0 ∨ e = 254 ∧ 16 ≤ m₁ ∧ m₁ < 32 := by
  obtain ⟨hgap, hcase⟩ := aligned_gap he h₂
  rw [hgap]
  generalize m₂ / 2 ^ e = c at hcase ⊢
  generalize 2 ^ 23 / 2 ^ e = u at hcase ⊢
  unfold alignedSum
  rw [if_neg Bool.false_ne_true, if_neg Bool.false_ne_true]
  rw [if_pos (by omega : c + m₁ < 2 ^ 24)]
  rcases hcase with ⟨hge, rfl, rfl⟩ | ⟨hle, -, hcu, hu⟩
  · -- nothing of the second word is left
    rw [Nat.zero_add, Nat.add_zero, if_pos (by omega), normalised_implied_iff he he' h₁]
    omega
  · -- the implied bits of the normal order make the sum larger
    refine iff_of_false (fun h => ?_) (by omega)
    split at h
    · rw [normalised_of_le (2 ^ 23 + m₁ + (c + u)) he' (by omega) (by omega),
        if_neg (by omega)] at h
      have hexpo := congrArg Fields.expo h
      have hfrac := congrArg Fields.frac h
      rcases Nat.lt_or_ge (c + m₁) (2 ^ 23) with hlt | hge
      · by_cases hd : Defaulted (c + m₁)
        · rw [normalised_of_defaulted _ he' hd, if_neg (by omega)] at hfrac
          simp only at hfrac
          omega
        · exact absurd hexpo (expo_normalised_of_lt _ he' he hd hlt).ne
      · rw [normalised_of_le _ he' hge (by omega), if_neg (by omega)] at hfrac
        simp only at hfrac
        omega
    · have hexpo := congrArg Fields.expo h
      have hle' := @expo_normalised_le s e (c + m₁) (by omega)
      rw [hexpo, carried_fields (by omega)] at hle'
      exact absurd hle' (Nat.not_succ_le_self e)

lemma normalised_gap_iff {s : Bool} {e r u : ℕ} (he : 0 < e) (he' : e ≤ 23) (hr : 0 < r)
    (hr' : r < 2 ^ 23) (hu : 0 < u) (hu' : u ≤ 2 ^ 22) :
    (normalised s e r false).fields = (normalised s e (r + 2 ^ 23 - u) false).fields ↔
      Defaulted r ∧ r = u := by
  have he₅ : e < 255 := by omega
  by_cases hd : Defaulted r
  · rw [normalised_of_defaulted r he₅ hd, if_neg (by omega)]
    rcases Nat.lt_or_ge r u with hlt | hge
    · -- the larger difference is shifted by one
      have hd' : ¬ Defaulted (r + 2 ^ 23 - u) := by unfold Defaulted; omega
      refine iff_of_false (fun h => ?_) (by omega)
      have hexpo := @expo_normalised_of_lt s e (r + 2 ^ 23 - u) he₅ he hd' (by omega)
      rw [← h] at hexpo
      exact lt_irrefl e hexpo
    · rw [normalised_of_le (r + 2 ^ 23 - u) he₅ (by omega) (by omega), if_neg (by omega),
        Fields.mk.injEq]
      simp only [hd, true_and]
      omega
  · refine iff_of_false (fun h => ?_) (fun h => hd h.1)
    have hexpo := @expo_normalised_of_lt s e r he₅ he hd hr'
    rw [h] at hexpo
    rcases Nat.lt_or_ge r u with hlt | hge
    · have hd' : ¬ Defaulted (r + 2 ^ 23 - u) := by unfold Defaulted; omega
      have hone : normShift (r + 2 ^ 23 - u) = 1 :=
        normShift_eq hd' (p := 22) (by omega) (by omega)
      have hmul := mul_two_pow_normShift hd' (by omega)
      rw [hone] at hmul
      rw [normalised_of_lt r he₅ hd hr', normalised_of_lt (r + 2 ^ 23 - u) he₅ hd' (by omega), hone,
        if_neg (by omega : ¬ e < 1)] at h
      split at h
      · have hfrac := congrArg Fields.frac h
        simp only at hfrac
        omega
      · -- equal exponents and fractions are equal significands
        rw [Fields.mk.injEq] at h
        have heq := eq_of_norm_eq hd hd' (by omega) (by omega) h.2.2 (by omega)
        omega
    · rw [normalised_of_le (r + 2 ^ 23 - u) he₅ (by omega) (by omega), if_neg (by omega)] at hexpo
      exact lt_irrefl e hexpo

lemma alignedSum_mixed_opposite {s : Bool} {e m₁ m₂ : ℕ} (he : 0 < e) (he' : e < 255)
    (h₁ : m₁ < 2 ^ 23) (h₂ : m₂ < 2 ^ 23) :
    (alignedSum true (!s) e (m₂ / 2 ^ e) m₁).fields =
        (alignedSum true s e (2 ^ 23 + m₁) ((2 ^ 23 + m₂) / 2 ^ e)).fields ↔
      e = 19 ∧ m₁ = 16 + m₂ / 2 ^ 19 ∨ e = 254 ∧ 16 ≤ m₁ ∧ m₁ < 32 := by
  obtain ⟨hgap, hcase⟩ := aligned_gap he h₂
  have h19 : e = 19 → m₂ / 2 ^ 19 = m₂ / 2 ^ e := by
    rintro rfl
    rfl
  rw [hgap]
  generalize m₂ / 2 ^ e = c at hcase h19 ⊢
  have hpow : e ≤ 23 → 2 ^ 23 / 2 ^ e = 2 ^ (23 - e) := fun h =>
    Nat.pow_div h Nat.two_pos
  generalize 2 ^ 23 / 2 ^ e = u at hcase hpow ⊢
  unfold alignedSum
  rw [if_pos rfl, if_pos rfl, if_pos (by omega : c + u ≤ 2 ^ 23 + m₁)]
  by_cases hle : m₁ ≤ c
  · -- the denormalised word is not the smaller one, and the signs differ
    rw [if_pos hle]
    refine iff_of_false (fun h => ?_) (by omega)
    have hsign := congrArg Fields.sign h
    rw [Outcome.sign_fields rfl, Outcome.sign_fields rfl] at hsign
    exact absurd hsign (Bool.not_ne_self s)
  · rw [if_neg hle, Bool.not_not]
    rcases hcase with ⟨hge, rfl, rfl⟩ | ⟨hle', -, hcu, hu⟩
    · rw [Nat.add_zero, Nat.sub_zero, Nat.sub_zero, normalised_implied_iff he he' h₁]
      omega
    · have hgap' : 2 ^ 23 + m₁ - (c + u) = m₁ - c + 2 ^ 23 - u := by omega
      rw [hgap', normalised_gap_iff he hle' (by omega) (by omega) (by omega) hu]
      have hu' := hpow hle'
      constructor
      · rintro ⟨hd, heq⟩
        refine .inl ?_
        unfold Defaulted at hd
        have he19 : 23 - e = 4 := by
          have hlog : Nat.log 2 (2 ^ (23 - e)) = 4 :=
            Nat.log_eq_of_pow_le_of_lt_pow (by omega) (by omega)
          rwa [Nat.log_pow Nat.one_lt_two] at hlog
        have hpow4 : u = 2 ^ 4 := by rw [hu', he19]
        omega
      · rintro (⟨rfl, h⟩ | ⟨rfl, h⟩)
        · have hpow4 : u = 16 := hu'
          unfold Defaulted
          omega
        · omega

/-- Two differences with one sign, the second one what the first lacks to the implied bit. -/
lemma normalised_deficit_iff {s : Bool} {e r u : ℕ} (he : 0 < e) (he' : e ≤ 23) (hr : r < u)
    (hu : u ≤ 2 ^ 22) (htwo : 2 ≤ e → u ≤ 2 ^ 21) (hone : e = 1 → u = 2 ^ 22) :
    (normalised s e r false).fields = (normalised s e (2 ^ 23 - u - r) false).fields ↔
      e = 1 ∧ ¬ Defaulted r ∧ ¬ Defaulted (2 ^ 22 - r) := by
  have he₅ : e < 255 := by omega
  rcases (show e = 1 ∨ 2 ≤ e by omega) with rfl | h2
  · obtain rfl : u = 2 ^ 22 := hone rfl
    -- under the exponent 1 every shifted significand falls below the range
    have hunder : ∀ {r}, ¬ Defaulted r → r < 2 ^ 22 →
        (normalised s 1 r false).fields = ⟨s, 0, 0⟩ := by
      intro r hd hlt
      have hs := le_normShift_of_lt hd hlt (by omega)
      rw [normalised_of_lt r he₅ hd (by omega), if_pos (by omega)]
    have hdef : ∀ {r}, Defaulted r → (normalised s 1 r false).fields = ⟨s, 1, 0⟩ := by
      intro r hd
      rw [normalised_of_defaulted r he₅ hd, if_neg (by omega)]
    rw [show 2 ^ 23 - 2 ^ 22 - r = 2 ^ 22 - r by omega]
    by_cases hd : Defaulted r
    · have hd' : ¬ Defaulted (2 ^ 22 - r) := by unfold Defaulted at hd ⊢; omega
      refine iff_of_false (fun h => ?_) (fun h => h.2.1 hd)
      have hexpo := @expo_normalised_of_lt s 1 (2 ^ 22 - r) he₅ he hd' (by omega)
      rw [← h, hdef hd] at hexpo
      exact lt_irrefl 1 hexpo
    · have hpos : r ≠ 0 := fun h₀ => hd (.inl h₀)
      rw [hunder hd hr]
      by_cases hd' : Defaulted (2 ^ 22 - r)
      · rw [hdef hd']
        exact iff_of_false (by simp) (fun h => h.2.2 hd')
      · rw [hunder hd' (by omega)]
        exact iff_of_true rfl ⟨rfl, hd, hd'⟩
  · have hu' := htwo h2
    -- the second difference is shifted by one
    have hd' : ¬ Defaulted (2 ^ 23 - u - r) := by unfold Defaulted; omega
    have hs' : normShift (2 ^ 23 - u - r) = 1 := normShift_eq hd' (p := 22) (by omega) (by omega)
    refine iff_of_false (fun h => ?_) (by omega)
    rw [normalised_of_lt (2 ^ 23 - u - r) he₅ hd' (by omega), hs', if_neg (by omega)] at h
    have hexpo := congrArg Fields.expo h
    by_cases hd : Defaulted r
    · rw [normalised_of_defaulted r he₅ hd, if_neg (by omega)] at hexpo
      simp only at hexpo
      omega
    · have hs := le_normShift_of_lt hd (show r < 2 ^ 21 by omega) (by omega)
      rw [normalised_of_lt r he₅ hd (by omega)] at hexpo
      split at hexpo
      · simp only at hexpo
        omega
      · simp only at hexpo
        omega

lemma alignedSum_mixed_difference {s : Bool} {e m₁ m₂ : ℕ} (he : 0 < e) (he' : e < 255)
    (h₁ : m₁ < 2 ^ 23) (h₂ : m₂ < 2 ^ 23) :
    (alignedSum true s e (m₂ / 2 ^ e) m₁).fields =
        (alignedSum true s e (2 ^ 23 + m₁) ((2 ^ 23 + m₂) / 2 ^ e)).fields ↔
      24 ≤ e ∧ m₁ = 0 ∨ e = 1 ∧ ¬ Defaulted (m₂ / 2 - m₁) ∧
        ¬ Defaulted (2 ^ 22 - (m₂ / 2 - m₁)) := by
  obtain ⟨hgap, hcase⟩ := aligned_gap he h₂
  have hone : e = 1 → m₂ / 2 = m₂ / 2 ^ e ∧ 2 ^ 23 / 2 ^ e = 2 ^ 22 := by
    rintro rfl
    exact ⟨rfl, rfl⟩
  have htwo : 2 ≤ e → 2 ^ 23 / 2 ^ e ≤ 2 ^ 21 := fun h =>
    Nat.div_le_of_le_mul (Nat.mul_le_mul_right (2 ^ 21) (Nat.pow_le_pow_right Nat.two_pos h))
  rw [hgap]
  generalize m₂ / 2 ^ e = c at hcase hone ⊢
  generalize 2 ^ 23 / 2 ^ e = u at hcase hone htwo ⊢
  unfold alignedSum
  rw [if_pos rfl, if_pos rfl, if_pos (by omega : c + u ≤ 2 ^ 23 + m₁)]
  by_cases hle : m₁ ≤ c
  · rw [if_pos hle]
    rcases hcase with ⟨hge, rfl, rfl⟩ | ⟨hle', -, hcu, hu⟩
    · obtain rfl : m₁ = 0 := by omega
      exact iff_of_true ((normalised_implied_iff he he' h₁).2 (.inl rfl)) (.inl ⟨hge, rfl⟩)
    · rw [show 2 ^ 23 + m₁ - (c + u) = 2 ^ 23 - u - (c - m₁) by omega,
        normalised_deficit_iff he hle' (by omega) hu htwo fun h => (hone h).2]
      constructor
      · rintro ⟨h, hd⟩
        rw [(hone h).1]
        exact .inr ⟨h, hd⟩
      · rintro (⟨h, -⟩ | ⟨h, hd⟩)
        · omega
        · rw [(hone h).1] at hd
          exact ⟨h, hd⟩
  · -- the denormalised word is smaller, and its order has the other sign
    rw [if_neg hle]
    refine iff_of_false (fun h => ?_) ?_
    · have hsign := congrArg Fields.sign h
      rw [Outcome.sign_fields rfl, Outcome.sign_fields rfl] at hsign
      exact absurd hsign (Bool.not_ne_self s)
    · rintro (⟨h, rfl⟩ | ⟨h, hd, -⟩)
      · omega
      · rw [(hone h).1, Nat.sub_eq_zero_of_le (by omega)] at hd
        exact hd (.inl rfl)

/-- For a normal word and a denormalised one: the few pairs whose sum, or with `sub` whose
difference, is the same with and without the implied bits. -/
def SumMixed (sub : Bool) (a b : Fields) : Prop :=
  exceptional a b = true ∨
    if sub then
      a.sign = b.sign ∧ (24 ≤ a.expo ∧ a.frac = 0 ∨
        a.expo = 1 ∧ ¬ Defaulted (b.frac / 2 - a.frac) ∧
          ¬ Defaulted (2 ^ 22 - (b.frac / 2 - a.frac)))
    else if a.sign = b.sign then
      24 ≤ a.expo ∧ a.frac = 0 ∨ a.expo = 254 ∧ 16 ≤ a.frac ∧ a.frac < 32
    else
      a.expo = 19 ∧ a.frac = 16 + b.frac / 2 ^ 19 ∨ a.expo = 254 ∧ 16 ≤ a.frac ∧ a.frac < 32

theorem sum_commutes_mixed (sub : Bool) {a b : Fields} (ha : a.Valid) (hb : b.Valid)
    (ha₀ : a.expo ≠ 0) (hb₀ : b.expo = 0) : Commutes (sumOutcome sub) a b ↔ SumMixed sub a b := by
  unfold Commutes SumMixed
  rcases hexc : exceptional a b with _ | _
  · have he : a.expo < 255 := by
      have hlt := ha.expo
      unfold exceptional at hexc
      rw [Bool.or_eq_false_iff, beq_eq_false_iff_ne] at hexc
      omega
    obtain ⟨h₁, h₂, h₃, h₄⟩ := aligned_mixed ha₀ hb₀
    rw [sumOutcome_eq hexc, sumOutcome_eq ((exceptional_comm a b).trans hexc), h₁, h₂, h₃, h₄, hb₀,
      Nat.max_eq_left (Nat.zero_le _), Nat.max_eq_right (Nat.zero_le _)]
    simp only [Bool.false_eq_true, false_or]
    have hpos : 0 < a.expo := by omega
    rcases hsub : sub with _ | _
    · by_cases hs : a.sign = b.sign
      · rw [← hs, if_neg Bool.false_ne_true, if_pos rfl, Bool.false_xor, Bool.xor_self]
        exact alignedSum_mixed_add hpos he ha.frac hb.frac
      · have hs' : b.sign = !a.sign := Bool.eq_not.2 (Ne.symm hs)
        rw [if_neg Bool.false_ne_true, if_neg hs, hs', Bool.false_xor, Bool.false_xor,
          Bool.not_xor_self, Bool.xor_not_self]
        exact alignedSum_mixed_opposite hpos he ha.frac hb.frac
    · by_cases hs : a.sign = b.sign
      · rw [← hs, if_pos rfl, Bool.true_xor, Bool.not_xor_self]
        simp only [true_and]
        exact alignedSum_mixed_difference hpos he ha.frac hb.frac
      · -- the significands are added under different signs
        have hs' : b.sign = !a.sign := Bool.eq_not.2 (Ne.symm hs)
        rw [if_pos rfl]
        refine iff_of_false (fun h => ?_) (fun h => hs h.1)
        have hsign := congrArg Fields.sign h
        rw [hs', Bool.true_xor, Bool.not_not, Bool.xor_self, Bool.true_xor, Bool.xor_self] at hsign
        rw [sign_alignedSum_false, sign_alignedSum_false] at hsign
        exact Bool.not_ne_self _ hsign
  · rw [sumOutcome_exceptional ha hb hexc,
      sumOutcome_exceptional hb ha ((exceptional_comm a b).trans hexc)]
    exact iff_of_true rfl (.inl rfl)

theorem sum_commutes_iff (sub : Bool) {a b : Fields} (ha : a.Valid) (hb : b.Valid) :
    Commutes (sumOutcome sub) a b ↔ byClass (SumSame sub) (SumMixed sub) a b :=
  commutes_iff_byClass (fun _ _ => sum_commutes_same sub) (fun _ _ => sum_commutes_mixed sub) ha hb

end PanTilt.Alu
