import PanTilt.Alu.Exception
import PanTilt.Alu.ProductOrder

/-!
All four outputs of the unit with its operands swapped, for a sum and for a product.

Where the word does not see the order, neither do the flags, so that the conditions are those on
the word: two words of one class commute unless a sum cancels, and a mixed pair does so only in a
few places.
-/

namespace PanTilt.Alu

/-- The words differ in their signs only. -/
def Negatives (a b : Fields) : Prop := a.sign ≠ b.sign ∧ a.expo = b.expo ∧ a.frac = b.frac

/-- Two outcomes raise the same flags. -/
structure SameFlags (o o' : Outcome) : Prop where
  overflow : o.overflow = o'.overflow
  underflow : o.underflow = o'.underflow
  exception : o.exception = o'.exception

lemma SameFlags.symm {o o' : Outcome} (h : SameFlags o o') : SameFlags o' o :=
  ⟨h.overflow.symm, h.underflow.symm, h.exception.symm⟩

/-- Where the flags do not see the order when the word does not, the condition on the word is that
on all outputs. -/
lemma outputs_iff_byClass {f : Fields → Fields → Outcome} {same mixed : Fields → Fields → Prop}
    (hsame : ∀ a b : Fields, (a.expo = 0 ↔ b.expo = 0) → SameFlags (f b a) (f a b))
    (hmixed : ∀ a b : Fields, a.Valid → b.Valid → a.expo ≠ 0 → b.expo = 0 → mixed a b →
      SameFlags (f b a) (f a b))
    {a b : Fields} (ha : a.Valid) (hb : b.Valid)
    (hword : Commutes f a b ↔ byClass same mixed a b) :
    Commutes f a b ∧ SameFlags (f b a) (f a b) ↔ byClass same mixed a b := by
  rw [hword, and_iff_left_iff_imp]
  intro h
  unfold byClass at h
  split at h
  case isTrue hclass => exact hsame a b hclass
  case isFalse hclass =>
    split at h
    case isTrue hb₀ => exact hmixed a b ha hb (fun ha₀ => hclass (iff_of_true ha₀ hb₀)) hb₀ h
    case isFalse hb₀ =>
      have ha₀ : a.expo = 0 := by
        by_contra hne
        exact hclass (iff_of_false hne hb₀)
      exact (hmixed b a hb ha hb₀ ha₀ h).symm

/-! ### The flags of a sum -/

lemma normalised_flags {s s' : Bool} {e r r' : ℕ} {exc : Bool} (h : normShift r = normShift r') :
    SameFlags (normalised s e r exc) (normalised s' e r' exc) := by
  unfold normalised
  rw [h]
  exact ⟨rfl, rfl, rfl⟩

lemma sum_flags_same (sub : Bool) {a b : Fields} (hclass : a.expo = 0 ↔ b.expo = 0) :
    SameFlags (sumOutcome sub b a) (sumOutcome sub a b) := by
  obtain ⟨hfst, hsnd⟩ := aligned_swap hclass
  have hop : (sub ^^ b.sign ^^ a.sign) = (sub ^^ a.sign ^^ b.sign) := by
    rw [Bool.xor_right_comm]
  unfold sumOutcome
  rw [hfst, hsnd, hop, max_comm b.expo a.expo, exceptional_comm,
    Nat.add_comm (alignedSnd a b) (alignedFst a b)]
  split
  · rcases Nat.lt_trichotomy (alignedFst a b) (alignedSnd a b) with h | h | h
    · rw [if_pos h.le, if_neg (by omega)]
      exact normalised_flags rfl
    · rw [h, if_pos le_rfl, if_pos le_rfl]
      exact normalised_flags rfl
    · rw [if_neg (by omega), if_pos h.le]
      exact normalised_flags rfl
  · split
    · exact normalised_flags rfl
    · exact ⟨rfl, rfl, rfl⟩

lemma defaulted_flags {s s' : Bool} {e r r' : ℕ} {exc : Bool} (hd : Defaulted r)
    (hle : 2 ^ 23 ≤ r') (hlt : r' < 2 ^ 24) :
    SameFlags (normalised s e r exc) (normalised s' e r' exc) :=
  normalised_flags ((normShift_of_defaulted hd).trans (norm_of_le hle hlt).1.symm)

lemma sum_flags_exceptional {a b : Fields} (ha : a.Valid) (hb : b.Valid)
    (hexc : exceptional a b = true) :
    SameFlags (sumOutcome false b a) (sumOutcome false a b) := by
  have hexc' := (exceptional_comm a b).trans hexc
  have hab := (exception_sumOutcome false a b).trans hexc
  have hba := (exception_sumOutcome false b a).trans hexc'
  obtain ⟨hover, hunder⟩ := (Outcome.fields_exception hab).mp (sumOutcome_exceptional ha hb hexc)
  obtain ⟨hover', hunder'⟩ :=
    (Outcome.fields_exception hba).mp (sumOutcome_exceptional hb ha hexc')
  exact ⟨hover'.trans hover.symm, hunder'.trans hunder.symm, hba.trans hab.symm⟩

lemma sum_flags_mixed {a b : Fields} (ha : a.Valid) (hb : b.Valid) (ha₀ : a.expo ≠ 0)
    (hb₀ : b.expo = 0) (h : SumMixed false a b) :
    SameFlags (sumOutcome false b a) (sumOutcome false a b) := by
  have h₁ := ha.frac
  have h₂ := hb.frac
  rcases hexc : exceptional a b with _ | _
  · obtain ⟨hab, hab', hba, hba'⟩ := aligned_mixed ha₀ hb₀
    obtain ⟨hgap, hcase⟩ := aligned_gap (Nat.pos_of_ne_zero ha₀) h₂
    rw [sumOutcome_eq hexc, sumOutcome_eq ((exceptional_comm a b).trans hexc), hab, hab', hba, hba',
      hgap, hb₀, Nat.max_eq_left (Nat.zero_le _), Nat.max_eq_right (Nat.zero_le _), Bool.false_xor,
      Bool.false_xor]
    unfold SumMixed at h
    rw [hexc] at h
    simp only [Bool.false_eq_true, false_or, if_false] at h
    unfold alignedSum
    by_cases hs : a.sign = b.sign
    · -- one order adds the implied bit, and the other leaves nothing or a default
      rw [if_pos hs] at h
      rw [← hs, Bool.xor_self, if_neg Bool.false_ne_true, if_neg Bool.false_ne_true,
        if_pos (by omega), if_pos (by omega)]
      refine defaulted_flags ?_ (by omega) (by omega)
      unfold Defaulted
      omega
    · rw [if_neg hs] at h
      have hxor : (a.sign ^^ b.sign) = true := by
        rw [Bool.eq_not.2 (Ne.symm hs), Bool.xor_not_self]
      rw [Bool.xor_comm b.sign, hxor, if_pos rfl, if_pos rfl]
      rcases h with ⟨he, hfrac⟩ | ⟨he, hlo, hhi⟩
      · -- sixteen falls to the default
        rw [he] at hcase ⊢
        rw [if_neg (by omega), if_pos (by omega)]
        refine defaulted_flags ?_ (by omega) (by omega)
        unfold Defaulted
        omega
      · rw [if_neg (by omega), if_pos (by omega)]
        refine defaulted_flags ?_ (by omega) (by omega)
        unfold Defaulted
        omega
  · exact sum_flags_exceptional ha hb hexc

lemma sum_outputs_iff {a b : Fields} (ha : a.Valid) (hb : b.Valid) (h : ¬ Negatives a b) :
    Commutes (sumOutcome false) a b ∧ SameFlags (sumOutcome false b a) (sumOutcome false a b) ↔
      byClass (fun _ _ => True) (SumMixed false) a b := by
  have hsame : SumSame false a b := by
    refine .inr ?_
    rw [if_neg Bool.false_ne_true]
    intro he hf
    by_contra hs
    exact h ⟨hs, he, hf⟩
  rw [outputs_iff_byClass (fun _ _ => sum_flags_same false) (fun _ _ => sum_flags_mixed) ha hb
    (sum_commutes_iff false ha hb)]
  unfold byClass
  split
  · exact iff_of_true hsame trivial
  · rfl

/-! ### The flags of a product -/

/-- Only the normal order can carry, and it does not where the word does not see the order. -/
lemma product_flags_mixed {a b : Fields} (ha : a.Valid) (hb : b.Valid) (ha₀ : a.expo ≠ 0)
    (hb₀ : b.expo = 0) (h : ProductMixed a b) :
    SameFlags (productOutcome b a) (productOutcome a b) := by
  have he := ha.expo
  have hno := productTop_mixed ha hb ha₀ hb₀
  have htop := productTop_le a b
  have hcarry : a.expo ≠ 126 ∨ productTop a b = 0 := by
    have hproduct : product a b = (2 ^ 23 + a.frac) * (2 ^ 23 + b.frac) := by
      unfold product Fields.implied
      rw [if_neg ha₀]
    unfold productTop
    rw [hproduct]
    rcases h with h | h | ⟨-, hP⟩ | ⟨hfa, hfb⟩
    · exact .inl (by omega)
    · exact .inl (by omega)
    · exact .inr (if_neg (by omega))
    · rw [hfa, hfb]
      exact .inr rfl
  refine ⟨?_, ?_, exceptional_comm a b⟩
  · show decide _ = decide _
    rw [hno, hb₀, decide_eq_decide]
    omega
  · show decide _ = decide _
    rw [hno, hb₀, decide_eq_decide]
    omega

lemma product_outputs_iff {a b : Fields} (ha : a.Valid) (hb : b.Valid) :
    Commutes productOutcome a b ∧ SameFlags (productOutcome b a) (productOutcome a b) ↔
      byClass (fun _ _ => True) ProductMixed a b := by
  refine outputs_iff_byClass (fun a b hclass => ?_) (fun _ _ => product_flags_mixed) ha hb
    (product_commutes_iff ha hb)
  rw [productOutcome_comm hclass]
  exact ⟨rfl, rfl, rfl⟩

/-! ### The unit -/

lemma main_eq_iff (x : Bool) (n1 n2 m1 m2 : BitVec 32) (oper : BitVec 2) :
    main x m1 m2 oper = main x n1 n2 oper ↔
      (mainOutcome x oper (fields m1) (fields m2)).fields =
          (mainOutcome x oper (fields n1) (fields n2)).fields ∧
        SameFlags (mainOutcome x oper (fields m1) (fields m2))
          (mainOutcome x oper (fields n1) (fields n2)) := by
  obtain ⟨ho, hu, he⟩ := flags_main x n1 n2 oper
  obtain ⟨ho', hu', he'⟩ := flags_main x m1 m2 oper
  rw [← fields_main, ← fields_main, fields_inj]
  constructor
  · intro h
    rw [h] at ho' hu' he' ⊢
    exact ⟨rfl, ho'.symm.trans ho, hu'.symm.trans hu, he'.symm.trans he⟩
  · rintro ⟨hword, hflags⟩
    have hover := (ho'.trans hflags.overflow).trans ho.symm
    have hunder := (hu'.trans hflags.underflow).trans hu.symm
    have hexc := (he'.trans hflags.exception).trans he.symm
    rw [Answer.mk.injEq]
    exact ⟨hword, hover, hunder, hexc⟩

/-- **When the unit commutes.** For words that are not negatives of each other, a sum and a product
give the same four outputs in both orders if the words are of one class, and for a normal word and
one without an exponent where the implied bits of the second one do not show. -/
theorem outputs_commute_iff (x : Bool) {n1 n2 : BitVec 32}
    (h : ¬ Negatives (fields n1) (fields n2)) :
    (main x n2 n1 0 = main x n1 n2 0 ↔
        byClass (fun _ _ => True) (SumMixed false) (fields n1) (fields n2)) ∧
      (main x n2 n1 2 = main x n1 n2 2 ↔
        byClass (fun _ _ => True) ProductMixed (fields n1) (fields n2)) := by
  have ha := valid_fields n1
  have hb := valid_fields n2
  refine ⟨?_, ?_⟩
  · rw [main_eq_iff]
    exact sum_outputs_iff ha hb h
  · rw [main_eq_iff]
    exact product_outputs_iff ha hb

theorem two_and_three_commute :
    main false 0x40400000 0x40000000 0 = main false 0x40000000 0x40400000 0 := by
  refine (outputs_commute_iff false ?_).1.mpr ?_
  · intro h
    exact absurd h.2.2 (by decide)
  · rw [byClass, if_pos (by decide)]
    trivial

/-- One and a half plus zero, and zero plus one and a half. -/
theorem half_lost : ¬ Negatives (fields 0x3FC00000) (fields 0x00000000) ∧
    (main false 0x3FC00000 0x00000000 0).result = 0x3FC00000 ∧
      (main false 0x00000000 0x3FC00000 0).result = 0x3F000000 := by
  refine ⟨fun h => absurd h.2.2 (by decide), ?_, ?_⟩ <;> decide +kernel

end PanTilt.Alu
