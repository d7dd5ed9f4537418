import Xrpld.Protocol.MulRatio
import Xrpld.Protocol.STAmount

/-!
# Canonical amounts

What `try_canonicalize` of `st_amount.rs` computes.

## What is proved

A whole amount becomes the whole number that the mode takes it to (`makeWhole_spec`), an issued amount its
first sixteen digits, rounded (`tryCanonicalize_issued`), unless that is out of range. A normalized issued
amount stays as it is, on the way in and out (`iou_canonical`, `fromIouAmount_normal`).
-/

namespace Xrpld.Protocol

open Number Decimal

variable {ε : Type} {mode : RoundingMode} {sc : MantissaScale} {wide neg : Bool} {fuel : ℕ} {v : ℚ} {e : ℤ}
  {a : STAmount} {r r' : IOUAmount}

/-! ### Normalized issued amounts -/

/-- The amount that is made of a magnitude is determined. -/
theorem Makes.unique (h : Makes neg v r) (h' : Makes neg v r') : r = r' := by
  rcases lt_or_ge v smallest with hv | hv
  · obtain ⟨-, rfl⟩ | ⟨hge, -⟩ := h
    · obtain ⟨-, rfl⟩ | ⟨hge, -⟩ := h'
      · rfl
      · exact absurd hv (not_lt.mpr hge)
    · exact absurd hv (not_lt.mpr hge)
  · obtain ⟨hne, hpt, hge, hlt, -⟩ := h.parts hv
    obtain ⟨hn, hp, hg, hl, -⟩ := h'.parts hv
    have ht (e : ℤ) := Decimal.ten_zpow_pos (K := ℚ) e
    have hpl {m : ℕ} {e : ℤ} (hm : 10 ^ 15 ≤ m) (hm' : m < 10 ^ 16) : place 16 ((m : ℚ) * 10 ^ e) = 10 ^ e :=
      place_eq (by norm_num) hm hm' le_rfl (mul_lt_mul_of_pos_right (lt_add_one _) (ht e))
    have he : r.exponent = r'.exponent := by
      have h1 : place 16 v = 10 ^ r.exponent := hpt ▸ hpl hge hlt
      have h2 : place 16 v = 10 ^ r'.exponent := hp ▸ hpl hg hl
      exact zpow_right_injective₀ (a := (10 : ℚ)) (by norm_num) (by norm_num) (h1.symm.trans h2)
    have ha : r.mantissa.natAbs = r'.mantissa.natAbs := by
      rw [hpt, he] at hp
      exact_mod_cast mul_right_cancel₀ (ht _).ne' hp
    have hs : r.mantissa < 0 ↔ r'.mantissa < 0 := decide_eq_decide.mp (hne.trans hn.symm)
    cases r
    cases r'
    simp only [IOUAmount.mk.injEq] at *
    exact ⟨by omega, he⟩

/-- A normalized amount is made of its magnitude. -/
theorem makes_self (h : r.Normal) (hm : r.mantissa ≠ 0) :
    Makes (decide (r.mantissa < 0)) (r.mantissa.natAbs * 10 ^ r.exponent) r := by
  obtain rfl | ⟨hge, ht, he, he'⟩ := h
  · exact absurd rfl hm
  have hg : (10 : ℚ) ^ 15 ≤ r.mantissa.natAbs := by exact_mod_cast hge
  have hl : (r.mantissa.natAbs : ℚ) < 10 ^ 16 := by exact_mod_cast ht
  refine .inr ⟨?_, ?_, .inr ⟨hge, ht, he, he'⟩, hm, value_eq_signed r⟩
  · exact mul_le_mul hg (zpow_mono he) (Decimal.ten_zpow_pos _).le (Nat.cast_nonneg _)
  · exact mul_lt_mul hl (zpow_mono he') (Decimal.ten_zpow_pos _) (by norm_num)

/-- What is made of the parts of a normalized amount is that amount. -/
theorem makes_shown_normal (mode : RoundingMode) (h : r.Normal) (hm : r.mantissa ≠ 0) :
    (∀ r', Makes (decide (r.mantissa < 0)) (shown mode (decide (r.mantissa < 0)) (r.mantissa.natAbs * 10 ^ r.exponent)) r' →
      r' = r) ∧ ¬ limit ≤ shown mode (decide (r.mantissa < 0)) (r.mantissa.natAbs * 10 ^ r.exponent) := by
  have hs := makes_self h hm
  obtain rfl | ⟨hg, ht, -, -⟩ := h
  · exact absurd rfl hm
  rw [shown_of_digits (by omega) ht.le]
  refine ⟨fun r' hr => hr.unique hs, fun hl => ?_⟩
  obtain ⟨ht, -⟩ | ⟨-, ht, -⟩ := hs
  · exact absurd (hl.trans_lt ht) (not_lt.mpr (by rw [smallest, limit]; norm_num))
  · exact absurd hl (not_le.mpr ht)

/-- `from_number` of the parts of a normalized amount. -/
theorem fromNumber_normal (h : r.Normal) (hf : 20 ≤ fuel) :
    wp (IOUAmount.fromNumber fuel mode ⟨decide (r.mantissa < 0), r.mantissa.natAbs, r.exponent⟩) (fun r' _ => r' = r)
      ⊥ ⊥ wide := by
  by_cases hm : r.mantissa = 0
  · obtain rfl | ⟨hg, -⟩ := h
    · exact rfl
    · rw [hm] at hg
      exact absurd hg (by norm_num)
  · obtain ⟨ha, hl⟩ := makes_shown_normal mode h hm
    obtain rfl | ⟨hg, ht, he, he'⟩ := h
    · exact absurd rfl hm
    exact wp_mono (fromNumber_makes mode wide (x := ⟨decide (r.mantissa < 0), r.mantissa.natAbs, r.exponent⟩)
      (by simpa using hm) (by simp only; omega) (abs_le.mpr ⟨by simp only; omega, by simp only; omega⟩) hf)
      (fun r' _ hr' => ha r' hr') (fun _ _ hr => hl hr.2) fun _ h => h

/-- `from_parts` of the parts of a normalized amount. -/
theorem fromParts_normal (sc : MantissaScale) (mode : RoundingMode) (wide : Bool) (h : r.Normal) (hf : 20 ≤ fuel) :
    wp (IOUAmount.fromParts fuel sc mode r.mantissa r.exponent) (fun r' _ => r' = r) ⊥ ⊥ wide := by
  by_cases hm : r.mantissa = 0
  · obtain rfl | ⟨hg, -⟩ := h
    · exact rfl
    · rw [hm] at hg
      exact absurd hg (by norm_num)
  · obtain ⟨ha, hl⟩ := makes_shown_normal mode h hm
    obtain rfl | ⟨hg, ht, he, he'⟩ := h
    · exact absurd rfl hm
    exact wp_mono (fromParts_makes sc mode wide hm (by omega) (abs_le.mpr ⟨by omega, by omega⟩) hf)
      (fun r' _ hr' => ha r' hr') (fun _ _ hr => hl hr.2) fun _ h => h

/-! ### Amounts -/

variable {E : ε → Bool → Prop} {F : Fault → Prop}

@[simp] theorem wp_orPanicText {α : Type} {p : Calc AmountError α} {Q : α → Bool → Prop} : wp (orPanicText p) Q E F wide ↔ wp p Q (fun err _ => F (.assertion err.text)) F wide := by
  rw [orPanicText, wp_bind, wp_attempt]
  rfl

@[simp] theorem wp_orPanic {α : Type} {msg : String} {p : Work α} {Q : α → Bool → Prop} : wp (orPanic msg p) Q E F wide ↔
      wp p Q (fun err _ => F (.expect (msg ++ ": " ++ debugText err))) F wide := by
  rw [orPanic, wp_bind, wp_attempt]
  rfl

theorem wp_fitI64 {msg : String} {value : UInt64} {Q : ℤ → Bool → Prop} : wp (fitI64 msg value) Q E F wide ↔
      (value.toNat < 2 ^ 63 → Q value.toNat wide) ∧ (2 ^ 63 ≤ value.toNat → F (.expect (msg ++ ": TryFromIntError(())"))) := by
  rw [fitI64, wp_ite, not_lt]
  rfl

namespace STAmount

/-- The largest whole value. -/
def maxWhole (a : STAmount) : ℕ := if a.native then stAmountMaxNativeNetwork else maxMpTokenAmount

/-- The error of a whole value that is too large. -/
def wholeError (a : STAmount) : AmountError := if a.native then .nativeOutOfRange else .mptOutOfRange

/-- The whole number that an amount becomes. -/
def rounded (mode : RoundingMode) (a : STAmount) : ℕ := whole mode a.isNegative (a.value.toNat * 10 ^ a.offset)

/-- A whole amount with another magnitude. -/
def withWhole (a : STAmount) (n : ℕ) : STAmount :=
  { a with value := UInt64.ofNat n, offset := 0, isNegative := a.isNegative && decide (n ≠ 0) }

theorem makeWhole_spec {err : AmountError} {max : ℕ} (hm : max ≤ maxRep) (hv : a.value ≠ 0) (ho : |a.offset| ≤ 38)
    (hf : 40 ≤ fuel) : wp (makeWhole fuel mode err max a)
      (fun b _ => Writable a.value.toNat ∧ a.rounded mode ≤ max ∧ b = a.withWhole (a.rounded mode))
      (fun err' _ => err' = err ∧ (¬ Writable a.value.toNat ∨ (max : ℚ) < a.value.toNat * 10 ^ a.offset ∨ max < a.rounded mode))
      ⊥ wide := by
  have hv' : a.value.toNat ≠ 0 := fun h => hv (UInt64.toNat_inj.mp h)
  rw [makeWhole, wp_bind, wp_mapErr]
  refine wp_mono (tryToI64_spec (x := ⟨a.isNegative, a.value.toNat, a.offset⟩) hv' a.value.toNat_lt ho (by norm_num) hf)
    (fun z _ hz => ?_) (fun _ _ he => ⟨rfl, he.2.imp_right fun h => .inl ?_⟩) fun _ h => h
  · obtain ⟨hw, -, hz⟩ := hz
    have ha : z.natAbs = a.rounded mode := by
      rw [hz, rounded]
      split_ifs <;> simp
    have hs : decide (z < 0) = (a.isNegative && decide (a.rounded mode ≠ 0)) := by
      rw [hz, ← rounded]
      cases a.isNegative
      · simp
      · simp [Nat.pos_iff_ne_zero]
    rw [ha, hs, wp_ite]
    exact ⟨fun hl => ⟨rfl, .inr (.inr hl)⟩, fun hle => ⟨hw, not_lt.mp hle, rfl⟩⟩
  · exact lt_of_lt_of_le (by exact_mod_cast Nat.lt_succ_of_le hm) h

/-- Nothing, or less than can be counted, becomes zero. -/
theorem tryCanonicalize_zero (h : a.integral) (hv : a.value = 0 ∨ a.offset ≤ -20) :
    tryCanonicalize fuel mode a = pure { a with value := 0, offset := 0, isNegative := false } := by
  rw [tryCanonicalize, if_pos h, if_pos hv]

/-- **A whole amount** becomes the whole number that the mode takes it to. -/
theorem tryCanonicalize_whole (h : a.integral) (hv : a.value ≠ 0) (ho : -20 < a.offset) (hu : 40 ≤ fuel) :
    wp (tryCanonicalize fuel mode a)
      (fun b _ => Writable a.value.toNat ∧ a.rounded mode ≤ a.maxWhole ∧ b = a.withWhole (a.rounded mode))
      (fun err _ => err = a.wholeError ∧
        (¬ Writable a.value.toNat ∨ (a.maxWhole : ℚ) < a.value.toNat * 10 ^ a.offset ∨ a.maxWhole < a.rounded mode))
      ⊥ wide := by
  have hv' : (1 : ℚ) ≤ a.value.toNat := by
    exact_mod_cast Nat.pos_of_ne_zero fun h => hv (UInt64.toNat_inj.mp h)
  have hf {k : ℤ} (hk : k ≤ a.offset) : (10 : ℚ) ^ k ≤ a.value.toNat * 10 ^ a.offset :=
    (zpow_mono hk).trans (le_mul_of_one_le_left (Decimal.ten_zpow_pos _).le hv')
  rw [tryCanonicalize, if_pos h, if_neg (not_or.mpr ⟨hv, not_le.mpr ho⟩), maxWhole, wholeError]
  by_cases hn : a.native
  · simp only [hn, true_and, if_true]
    rw [wp_ite]
    refine ⟨fun hl => ⟨rfl, .inr (.inl ?_)⟩, fun he => ?_⟩
    · refine lt_of_lt_of_le ?_ (hf (k := 18) (by omega))
      norm_num [stAmountMaxNativeNetwork]
    · have hm : a.holdsMptIssue ≠ true := by
        rw [native] at hn
        rw [holdsMptIssue]
        cases ha : a.asset with
        | issue i => exact Bool.false_ne_true
        | mptIssue i => exact absurd hn (by rw [ha]; exact Bool.false_ne_true)
      rw [if_neg (fun h => hm h.1)]
      exact makeWhole_spec (by decide) hv (abs_le.mpr ⟨by omega, by omega⟩) hu
  · have hm : a.holdsMptIssue := by
      rw [integral, Asset.integral_eq, Bool.or_eq_true] at h
      exact h.resolve_left hn
    simp only [hn, hm, false_and, true_and, if_false, Bool.false_eq_true]
    rw [wp_ite]
    refine ⟨fun hl => ⟨rfl, .inr (.inl ?_)⟩, fun he => ?_⟩
    · refine lt_of_lt_of_le ?_ (hf (k := 19) (by omega))
      norm_num [maxMpTokenAmount]
    · exact makeWhole_spec (by decide) hv (abs_le.mpr ⟨by omega, by omega⟩) hu

/-- **An issued amount** becomes its first sixteen digits, rounded. -/
theorem tryCanonicalize_issued (h : a.integral = false) (hv : a.value ≠ 0) (ho : |a.offset| ≤ 29000) (hf : 20 ≤ fuel) :
    wp (tryCanonicalize fuel mode a)
      (fun b _ => ∃ r, Makes a.isNegative (shown mode a.isNegative (a.value.toNat * 10 ^ a.offset)) r ∧ b = a.withIou r)
      (fun err _ => err = .issuedOutOfRange ∧ limit ≤ shown mode a.isNegative (a.value.toNat * 10 ^ a.offset))
      ⊥ wide := by
  have hv' : a.value.toNat ≠ 0 := fun h => hv (UInt64.toNat_inj.mp h)
  rw [tryCanonicalize, if_neg (by rw [h]; decide), wp_bind, wp_mapErr]
  exact wp_mono (fromNumber_makes mode wide (x := ⟨a.isNegative, a.value.toNat, a.offset⟩) hv' a.value.toNat_lt ho hf)
    (fun r _ hr => ⟨r, hr, rfl⟩) (fun _ _ he => ⟨rfl, he.2⟩) fun _ h => h

/-- The number of an amount with the parts of an issued one. -/
theorem number_withIou (h : r.Normal) : (a.withIou r).number = r.value := by
  have hl : r.mantissa.natAbs < 2 ^ 64 := by
    obtain rfl | ⟨-, hl, -⟩ := h
    · decide
    · omega
  rw [value_eq_signed, number, withIou]
  simp only [UInt64.toNat_ofNat', Nat.mod_eq_of_lt hl]

/-- A normalized issued amount as an amount. -/
theorem fromIouAmount_normal {field : SField} {issue : Issue} (h : r.Normal) (hi : issue.native = false) (hf : 20 ≤ fuel) :
    wp (fromIouAmount (ε := ε) fuel mode field r issue) (fun b _ => b.number = r.value) ⊥ ⊥ wide := by
  have hl : r.mantissa.natAbs < 2 ^ 64 := by
    obtain rfl | ⟨-, hl, -⟩ := h
    · decide
    · omega
  rw [fromIouAmount, canonicalize, wp_orPanicText, tryCanonicalize, if_neg (by simp [integral, Asset.integral, Issue.integral, hi]),
    wp_bind, wp_mapErr]
  simp only [UInt64.toNat_ofNat', Nat.mod_eq_of_lt hl]
  refine wp_noError (fromNumber_normal h hf) (fun r' _ hr => ?_)
  subst hr
  exact number_withIou h

/-- The issued amount of a canonical amount. -/
def asIou (a : STAmount) : IOUAmount := ⟨if a.isNegative then -(a.value.toNat : ℤ) else a.value.toNat, a.offset⟩

theorem asIou_normal (h : a.Canonical) (hi : a.integral = false) : a.asIou.Normal := by
  rw [integral, Asset.integral_eq, Bool.or_eq_false_iff] at hi
  rw [Canonical, native, hi.1, holdsMptIssue, hi.2] at h
  have ha : a.asIou.mantissa.natAbs = a.value.toNat := by
    rw [asIou]
    split_ifs <;> simp
  obtain ⟨hv, ho, hn⟩ | ⟨hg, hl, ho, ho'⟩ := h
  · left
    rw [asIou, hv, ho, hn]
    rfl
  · have hm : stAmountMaxMantissa = 10 ^ 16 - 1 := rfl
    have hmi : stAmountMinMantissa = 10 ^ 15 := rfl
    right
    exact ⟨by omega, by omega, ho, ho'⟩

theorem value_asIou (a : STAmount) : a.asIou.value = a.number := by
  rw [IOUAmount.value, asIou, number, signed]
  split_ifs
  · push_cast
    ring
  · push_cast
    rfl

/-- `iou` of a canonical amount. -/
theorem iou_canonical (h : a.Canonical) (hi : a.integral = false) (hf : 20 ≤ fuel) :
    wp (a.iou (ε := ε) fuel sc mode) (fun r _ => r = a.asIou) ⊥ ⊥ wide := by
  have hm := asIou_normal h hi
  have hl : a.value.toNat < 2 ^ 63 := by
    obtain hz | ⟨-, hl, -⟩ := hm
    · have : a.asIou.mantissa = 0 := by rw [hz]; rfl
      rw [asIou] at this
      simp only at this
      split_ifs at this <;> omega
    · rw [asIou] at hl
      simp only at hl
      split_ifs at hl <;> omega
  rw [iou, hi, if_neg Bool.false_ne_true, wp_bind, signedValue, wp_bind, wp_fitI64]
  refine ⟨fun _ => ?_, fun h => absurd hl (not_lt.mpr h)⟩
  have hr := fromParts_normal sc mode wide hm hf
  rw [asIou] at hr
  rw [wp_ite]
  refine ⟨fun hn => ?_, fun hn => ?_⟩
  · rw [i64, if_pos (by omega), wp_pure, wp_orPanic]
    rw [if_pos hn] at hr
    rw [asIou, if_pos hn]
    exact wp_noError hr (fun _ _ h => h)
  · rw [wp_pure, wp_orPanic]
    rw [if_neg hn] at hr
    rw [asIou, if_neg hn]
    exact wp_noError hr (fun _ _ h => h)

end STAmount

end Xrpld.Protocol
