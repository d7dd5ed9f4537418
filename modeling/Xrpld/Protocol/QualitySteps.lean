import Xrpld.Protocol.AmountScaling
import Xrpld.Protocol.Quality

/-!
# The steps of a rounded product

What each step of `mul_round_impl` and `div_round_impl` gives for positive amounts, as a number.

## What is proved

* The mantissas of the factors have at least sixteen digits and stand for the factors (`liftMantissa_spec`,
  `lifted_number`).
* A canonicalization gives a mantissa that depends only on the one before: `shortened`, `ceiled`, `counted`.
* The amount that is made at the end is the number `made` (`newWithAsset_spec`), or the least amount instead of zero
  (`makeRounded_spec`).

None of the loops runs out of turns; every other panic is allowed.
-/

namespace Xrpld.Protocol

open Number Decimal Nat STAmount

variable {ε : Type} {mode : RoundingMode} {wide : Bool} {fuel m n r d A : ℕ} {o : ℤ} {a v1 v2 : STAmount} {ast : Asset}
  {E : ε → Bool → Prop} {Q : ℤ → Bool → Prop}

/-- A panic, but not the end of the turns. -/
def Panics (fault : Fault) : Prop := fault ≠ .outOfFuel

theorem panics_overflow : Panics .overflow := nofun

theorem panics_assertion (msg : String) : Panics (.assertion msg) := nofun

theorem panics_expect (msg : String) : Panics (.expect msg) := nofun

theorem wp_u64 {Q : ℕ → Bool → Prop} (h : n < 2 ^ 64 → Q n wide) : wp (u64 n) Q E Panics wide := by
  rw [u64, wp_ite]
  exact ⟨h, fun _ => panics_overflow⟩

theorem wp_i32 (h : Q o wide) : wp (i32 o) Q E Panics wide := by
  rw [i32, wp_ite]
  exact ⟨fun _ => h, fun _ => panics_overflow⟩

theorem wp_i64 {z : ℤ} (h : -2 ^ 63 ≤ z → z < 2 ^ 63 → Q z wide) : wp (i64 z) Q E Panics wide := by
  rw [i64, wp_ite]
  exact ⟨fun hz => h hz.1 hz.2, fun _ => panics_overflow⟩

/-! ### The factors -/

namespace STAmount

/-- **A positive amount.** -/
structure Positive (a : STAmount) : Prop where
  sign : a.isNegative = false
  ne_zero : a.value ≠ 0
  whole : a.integral = true → a.offset = 0
  issued : a.integral = false → 10 ^ 15 ≤ a.value.toNat ∧ a.value.toNat < 10 ^ 16 ∧ -96 ≤ a.offset ∧ a.offset ≤ 80

/-- The digits that the mantissa gets. -/
def liftCount (a : STAmount) : ℕ := if a.integral then 15 - Nat.log 10 a.value.toNat else 0

/-- The mantissa and the offset with at least sixteen digits. -/
def lifted (a : STAmount) : ℕ × ℤ := (a.value.toNat * 10 ^ a.liftCount, a.offset - a.liftCount)

theorem liftCount_le (a : STAmount) : a.liftCount ≤ 15 := by
  rw [liftCount]
  split_ifs <;> omega

theorem isNativeOrMptAmount_eq (a : STAmount) : isNativeOrMptAmount a = a.integral := (Asset.integral_eq a.asset).symm

namespace Positive

variable (h : a.Positive)

include h

theorem toNat_ne_zero : a.value.toNat ≠ 0 := fun hz => h.ne_zero (UInt64.toNat_inj.mp hz)

theorem number_eq : a.number = a.value.toNat * 10 ^ a.offset := by
  rw [number, h.sign, signed, if_neg Bool.false_ne_true]

/-- A digit is added as long as there are fewer than sixteen. -/
theorem lt_liftCount_iff (hi : a.integral) {j : ℕ} : a.value.toNat * 10 ^ j < 10 ^ 15 ↔ j < a.liftCount := by
  rw [liftCount, if_pos hi, Nat.lt_sub_iff_add_lt, add_comm j, ← not_le, ← not_le, not_iff_not]
  have hl : log 10 (a.value.toNat * 10 ^ j) = log 10 a.value.toNat + j := by
    induction j with
    | zero => rw [pow_zero, mul_one, add_zero]
    | succ j ih =>
      rw [pow_succ, ← mul_assoc, log_mul_base (by norm_num) (mul_ne_zero h.toNat_ne_zero (by positivity)), ih, add_assoc]
  rw [← hl, le_log_iff_pow_le (by norm_num) (mul_ne_zero h.toNat_ne_zero (by positivity))]

/-- **The mantissa of a factor.** -/
theorem liftMantissa_spec (hf : 15 ≤ fuel) :
    wp (liftMantissa (ε := ε) fuel a) (fun s _ => s = a.lifted) ⊥ Panics wide := by
  have hm : stAmountMinMantissa = 10 ^ 15 := rfl
  rw [liftMantissa, isNativeOrMptAmount_eq, wp_ite]
  refine ⟨fun hi => ?_, fun hi => ?_⟩
  · refine wp_imp (wp_whileLoop
      (fun j s _ => j ≤ a.liftCount ∧ s = (a.value.toNat * 10 ^ j, a.offset - (j : ℤ))) ?_ (fun j s _ hs hc => ?_)
      fun s _ hs hc => ?_) (fun s _ hs => ?_)
    · exact ⟨zero_le _, by simp⟩
    · obtain ⟨-, rfl⟩ := hs
      rw [decide_eq_true_iff, hm, h.lt_liftCount_iff hi] at hc
      rw [liftDigit, wp_bind]
      refine wp_u64 fun _ => ?_
      rw [wp_bind]
      refine wp_i32 ⟨hc, ?_⟩
      rw [pow_succ, ← mul_assoc, cast_succ, sub_sub]
    · obtain ⟨-, rfl⟩ := hs
      rw [decide_eq_true_iff, hm, h.lt_liftCount_iff hi] at hc
      have := a.liftCount_le
      omega
    · obtain ⟨hc, j, hj, rfl⟩ := hs
      rw [decide_eq_false_iff_not, hm, h.lt_liftCount_iff hi] at hc
      rw [lifted, show j = a.liftCount by omega]
  · rw [wp_pure, lifted, liftCount, if_neg hi]
    simp

theorem lifted_ge : 10 ^ 15 ≤ a.lifted.1 := by
  rw [lifted]
  by_cases hi : a.integral
  · exact not_lt.mp fun hl => lt_irrefl _ ((h.lt_liftCount_iff hi).mp hl)
  · rw [liftCount, if_neg hi, pow_zero, mul_one]
    exact (h.issued (Bool.not_eq_true _ ▸ hi)).1

theorem lifted_lt : a.lifted.1 < 2 ^ 64 := by
  have hl := a.value.toNat_lt
  rw [lifted]
  by_cases hc : a.liftCount = 0
  · rw [hc, pow_zero, mul_one]
    exact hl
  · have hi : a.integral := by
      by_contra hi
      exact hc (if_neg hi)
    obtain ⟨k, hk⟩ := exists_eq_succ_of_ne_zero hc
    have := (h.lt_liftCount_iff hi (j := k)).mpr (by omega)
    rw [hk, succ_eq_add_one, pow_succ, ← mul_assoc]
    omega

theorem lifted_offset : -96 ≤ a.lifted.2 ∧ a.lifted.2 ≤ 80 := by
  rw [lifted]
  by_cases hi : a.integral
  · have := h.whole hi
    have := a.liftCount_le
    omega
  · have := h.issued (Bool.not_eq_true _ ▸ hi)
    rw [liftCount, if_neg hi]
    omega

theorem lifted_number : (a.lifted.1 : ℚ) * 10 ^ a.lifted.2 = a.number := by
  rw [h.number_eq, lifted, natCast_mul_zpow, sub_add_cancel]

end Positive

end STAmount

/-- `muldiv_round` divides. -/
theorem muldivRound_spec {msg : String} (hm : m < 2 ^ 64) (hn : n < 2 ^ 64) (hr : r < 2 ^ 64) (hd : 0 < d) :
    wp (muldivRound (ε := ε) msg m n d r) (fun q _ => q = (m * n + r) / d ∧ q < 2 ^ 64) ⊥ Panics wide := by
  have hmn : m * n + r < 2 ^ 128 := by
    have : m * n ≤ (2 ^ 64 - 1) * (2 ^ 64 - 1) := Nat.mul_le_mul (by omega) (by omega)
    omega
  rw [muldivRound, wp_bind, u128, if_pos (by omega), wp_pure, wp_bind, u128, if_pos hmn, wp_pure,
    wp_bind, divU128, if_neg (by omega), wp_pure, wp_ite]
  exact ⟨fun hl => ⟨rfl, hl⟩, fun _ => panics_expect _⟩

/-! ### Canonicalization -/

/-- The digits that `shortenIssued` drops in its loop. -/
def dropped (n : ℕ) : ℕ := if 10 * stAmountMaxMantissa < n then dropped (n / 10) + 1 else 0
termination_by n
decreasing_by omega

variable (s : ℕ × ℤ)

/-- What `shortenIssued` makes. -/
def shortened : ℕ × ℤ :=
  if stAmountMaxMantissa < s.1 then ((s.1 / 10 ^ dropped s.1 + 9) / 10, s.2 + dropped s.1 + 1) else s

theorem dropped_more (h : 10 * stAmountMaxMantissa < n) : dropped n = dropped (n / 10) + 1 := by rw [dropped, if_pos h]

theorem dropped_end (h : ¬ 10 * stAmountMaxMantissa < n) : dropped n = 0 := by rw [dropped, if_neg h]

theorem dropped_le (h : n < 2 ^ 64) : dropped n ≤ 3 := by
  have hm : stAmountMaxMantissa = 10 ^ 16 - 1 := rfl
  rw [dropped]
  split_ifs with h1
  · rw [dropped]
    split_ifs with h2
    · rw [dropped]
      split_ifs with h3
      · rw [dropped, if_neg (by omega)]
      · omega
    · omega
  · omega

theorem div_dropped_le (n : ℕ) : n / 10 ^ dropped n ≤ 10 * stAmountMaxMantissa := by
  induction n using Nat.strong_induction_on with
  | _ n ih =>
    rw [dropped]
    split_ifs with h
    · rw [pow_succ', ← Nat.div_div_eq_div_mul]
      exact ih (n / 10) (by omega)
    · rw [pow_zero, Nat.div_one]
      omega

/-- Seventeen digits are left, if there were as many. -/
theorem le_div_dropped (h : stAmountMaxMantissa < n) : stAmountMaxMantissa ≤ n / 10 ^ dropped n := by
  induction n using Nat.strong_induction_on with
  | _ n ih =>
    rw [dropped]
    split_ifs with hn
    · rw [pow_succ', ← Nat.div_div_eq_div_mul]
      by_cases hm : stAmountMaxMantissa < n / 10
      · exact ih (n / 10) (by omega) hm
      · rw [dropped, if_neg (by omega), pow_zero, Nat.div_one]
        omega
    · rw [pow_zero, Nat.div_one]
      omega

/-- **An issued mantissa is shortened.** -/
theorem shortenIssued_spec (h : s.1 < 2 ^ 64) (hf : 3 ≤ fuel) :
    wp (shortenIssued (ε := ε) fuel s) (fun t _ => t = shortened s) ⊥ Panics wide := by
  rw [shortenIssued, shortened, wp_ite]
  refine ⟨fun hl => ?_, fun hs => (if_neg hs).symm⟩
  rw [if_pos hl, wp_bind]
  refine wp_imp (wp_whileLoop
    (fun j t _ => t = (s.1 / 10 ^ j, s.2 + (j : ℤ)) ∧ dropped s.1 = dropped (s.1 / 10 ^ j) + j) ?_ (fun j t _ ht hc => ?_)
    fun t _ ht hc => ?_) (fun t _ ht => ?_)
  · simp
  · obtain ⟨rfl, hj⟩ := ht
    rw [decide_eq_true_iff] at hc
    rw [wp_bind]
    refine wp_i32 ⟨?_, ?_⟩
    · rw [pow_succ, ← Nat.div_div_eq_div_mul, Nat.cast_succ, add_assoc]
    · rw [hj, dropped_more hc, pow_succ, ← Nat.div_div_eq_div_mul, add_assoc, add_comm 1]
  · obtain ⟨rfl, hj⟩ := ht
    rw [decide_eq_true_iff] at hc
    have := dropped_le h
    rw [dropped_more hc] at hj
    omega
  · obtain ⟨hc, j, rfl, hj⟩ := ht
    rw [decide_eq_false_iff_not] at hc
    rw [dropped_end hc, zero_add] at hj
    rw [wp_bind]
    refine wp_u64 fun _ => ?_
    rw [wp_bind]
    refine wp_i32 ?_
    rw [wp_pure, hj]

/-- The digits of a whole result behind the last one that is looked at. -/
def fractionDigits (o : ℤ) : ℕ := (-1 - o).toNat

/-- What `canonicalize_round_strict` makes of a whole result that is rounded up. -/
def ceiled : ℕ × ℤ :=
  if s.2 < 0 then
    ((s.1 / 10 ^ fractionDigits s.2 + if s.1 % 10 ^ fractionDigits s.2 ≠ 0 then 10 else 9) / 10, 0)
  else s

/-- What `canonicalize_round` makes of a whole result. -/
def counted : ℕ × ℤ :=
  if s.2 < 0 then ((s.1 / 10 ^ fractionDigits s.2 + if 2 ≤ fractionDigits s.2 then 9 else 10) / 10, 0) else s

/-- The turns of the loop that drops the digits of a whole result. -/
theorem wp_dropLoop {β : Type} {f : (ℕ × ℤ) × β → Calc ε ((ℕ × ℤ) × β)} {b : β} (step : ℕ → β)
    (s : ℕ × ℤ) (hs : s.2 < 0) (hu : fractionDigits s.2 ≤ fuel) (hb : step 0 = b)
    (hf : ∀ (j : ℕ) (wide : Bool), wp (f ((s.1 / 10 ^ j, s.2 + (j : ℤ)), step j))
      (fun t _ => t = ((s.1 / 10 ^ (j + 1), s.2 + ((j + 1 : ℕ) : ℤ)), step (j + 1))) ⊥ Panics wide) :
    wp (whileLoop .outOfFuel (fun t : (ℕ × ℤ) × β => decide (t.1.2 < -1)) f fuel (s, b))
      (fun t _ => t = ((s.1 / 10 ^ fractionDigits s.2, -1), step (fractionDigits s.2))) ⊥ Panics wide := by
  have ho : (fractionDigits s.2 : ℤ) = -1 - s.2 := Int.toNat_of_nonneg (by omega)
  refine wp_imp (wp_whileLoop
    (fun j t _ => j ≤ fractionDigits s.2 ∧ t = ((s.1 / 10 ^ j, s.2 + (j : ℤ)), step j)) ?_ (fun j t wide ht hc => ?_)
    fun t _ ht hc => ?_) (fun t _ ht => ?_)
  · exact ⟨zero_le _, by simp [hb]⟩
  · obtain ⟨-, rfl⟩ := ht
    rw [decide_eq_true_iff] at hc
    exact wp_imp (hf j wide) (fun t _ ht => ⟨by simp only at hc; omega, ht⟩)
  · obtain ⟨-, rfl⟩ := ht
    rw [decide_eq_true_iff] at hc
    simp only at hc
    omega
  · obtain ⟨hc, j, hj, rfl⟩ := ht
    rw [decide_eq_false_iff_not] at hc
    simp only at hc
    rw [show j = fractionDigits s.2 by omega, ho]
    simp

theorem canonicalizeRound_whole (up : Bool) (hf : fractionDigits s.2 ≤ fuel) :
    wp (canonicalizeRound (ε := ε) fuel true s up) (fun t _ => t = counted s) ⊥ Panics wide := by
  rw [canonicalizeRound, if_pos rfl, counted, wp_ite]
  refine ⟨fun hs => ?_, fun hs => (if_neg hs).symm⟩
  rw [if_pos hs, wp_bind]
  refine wp_imp (wp_dropLoop id s hs hf rfl fun j wide => ?_) (fun t wide ht => ?_)
  · rw [dropCounted, wp_bind]
    refine wp_i32 ?_
    rw [wp_pure, Nat.div_div_eq_div_mul, ← pow_succ, Nat.cast_succ, add_assoc]
    rfl
  · subst ht
    rw [wp_bind]
    refine wp_u64 fun _ => ?_
    rw [wp_bind]
    exact wp_i32 rfl

theorem canonicalizeRoundStrict_whole (hf : fractionDigits s.2 ≤ fuel) :
    wp (canonicalizeRoundStrict (ε := ε) fuel true s true) (fun t _ => t = ceiled s) ⊥ Panics wide := by
  rw [canonicalizeRoundStrict, if_pos rfl, ceiled, wp_ite]
  refine ⟨fun hs => ?_, fun hs => (if_neg hs).symm⟩
  rw [if_pos hs, wp_bind]
  refine wp_imp (wp_dropLoop (fun j => decide (s.1 % 10 ^ j ≠ 0)) s hs hf ?_ fun j wide => ?_) (fun t wide ht => ?_)
  · simp [mod_one]
  · rw [dropChecked, wp_bind]
    refine wp_i32 ?_
    rw [wp_pure, Nat.div_div_eq_div_mul, ← pow_succ, Nat.cast_succ, add_assoc, Prod.mk.injEq]
    refine ⟨rfl, ?_⟩
    -- a digit that is not a zero is dropped, now or before
    have hd : s.1 / 10 ^ j ≠ s.1 / 10 ^ (j + 1) * 10 ↔ s.1 / 10 ^ j % 10 ≠ 0 := by
      rw [pow_succ, ← Nat.div_div_eq_div_mul]
      omega
    rw [← Bool.decide_or, decide_eq_decide, hd, mod_pow_succ]
    rw [ne_eq, ne_eq, ne_eq, Nat.add_eq_zero_iff, Nat.mul_eq_zero]
    constructor
    · rintro (h | h) ⟨h1, h2⟩
      · exact h h1
      · omega
    · intro h
      by_contra hb
      rw [not_or, not_not, not_not] at hb
      exact h ⟨hb.1, .inr hb.2⟩
  · subst ht
    rw [wp_bind]
    refine wp_u64 fun _ => ?_
    rw [wp_bind]
    refine wp_i32 ?_
    simp

/-! ### The result -/

/-- The number of the amount that is made of a positive mantissa. -/
def made (mode : RoundingMode) (asset : Asset) (s : ℕ × ℤ) : ℚ :=
  if asset.integral then if s.2 ≤ -20 then 0 else whole mode false (s.1 * 10 ^ s.2)
  else if shown mode false (s.1 * 10 ^ s.2) < smallest then 0 else shown mode false (s.1 * 10 ^ s.2)

/-- The least positive amount. -/
def least (asset : Asset) : ℚ := if asset.integral then 1 else smallest

/-- The number of the amount that is made of a positive mantissa and rounded up. -/
def raised (mode : RoundingMode) (asset : Asset) (s : ℕ × ℤ) : ℚ :=
  if made mode asset s = 0 then least asset else made mode asset s

/-- **The amount that is made.** -/
theorem newWithAsset_spec (hs : s.1 < 2 ^ 64) (h0 : s.1 = 0 → ast.integral) (ho : |s.2| ≤ 29000)
    (hf : 40 ≤ fuel) : wp (newWithAsset (ε := ε) fuel mode .generic ast (UInt64.ofNat s.1) s.2 false)
      (fun r _ => r.number = made mode ast s) ⊥ Panics wide := by
  have ht : (UInt64.ofNat s.1).toNat = s.1 := by rw [UInt64.toNat_ofNat', mod_eq_of_lt hs]
  have hz : UInt64.ofNat s.1 = 0 ↔ s.1 = 0 := by
    rw [← UInt64.toNat_inj, ht]
    rfl
  rw [newWithAsset, wp_orPanicText, tryNewWithAsset, made]
  by_cases hi : ast.integral
  · rw [if_pos hi]
    by_cases hn : s.1 = 0 ∨ s.2 ≤ -20
    · rw [tryCanonicalize_zero (a := ⟨.generic, ast, UInt64.ofNat s.1, s.2, false⟩) hi
        (hn.imp_left hz.mpr), wp_pure, number]
      by_cases hl : s.2 ≤ -20
      · simp [hl, signed]
      · have hw : whole mode false 0 = 0 := by exact_mod_cast whole_natCast (m := 0)
        rw [if_neg hl, hn.resolve_right hl, cast_zero, zero_mul, hw]
        simp [signed]
    · rw [not_or] at hn
      rw [if_neg hn.2]
      refine wp_mono (tryCanonicalize_whole hi (mt hz.mp hn.1) (not_le.mp hn.2) hf)
        (fun r _ hr => ?_) (fun err _ _ => panics_assertion _) fun _ h => h.elim
      obtain ⟨-, he, rfl⟩ := hr
      have hm (b : STAmount) : b.maxWhole < 2 ^ 64 := by
        rw [maxWhole]
        split_ifs <;> decide
      rw [number_withWhole (he.trans_lt (hm _)), rounded]
      simp only [ht, signed, Bool.false_eq_true, if_false]
  · rw [if_neg hi]
    have hne : s.1 ≠ 0 := fun h => hi (h0 h)
    refine wp_mono (tryCanonicalize_issued (Bool.not_eq_true _ ▸ hi) (mt hz.mp hne) ho (by omega))
      (fun r _ hr => ?_) (fun err _ _ => panics_assertion _) fun _ h => h.elim
    obtain ⟨iou, hu, rfl⟩ := hr
    simp only [ht] at hu
    obtain ⟨hlt, rfl⟩ | ⟨hg, -, hnm, -, hv⟩ := hu
    · rw [if_pos hlt, number_withIou (.inl rfl)]
      simp [IOUAmount.value, IOUAmount.new]
    · rw [if_neg (not_lt.mpr hg), number_withIou hnm, hv, signed, if_neg Bool.false_ne_true]

theorem number_eq_zero_iff (a : STAmount) : a.number = 0 ↔ a.value = 0 := by
  have hp : (10 : ℚ) ^ a.offset ≠ 0 := (Decimal.ten_zpow_pos _).ne'
  rw [number, signed, ← UInt64.toNat_inj]
  split_ifs <;> simp [hp]

theorem isNativeOrMptAsset_eq (ast : Asset) : isNativeOrMptAsset ast = ast.integral := (Asset.integral_eq ast).symm

/-- The least amount is made. -/
theorem made_least (mode : RoundingMode) (ast : Asset) :
    made mode ast (if ast.integral then (1, 0) else (stAmountMinMantissa, stAmountMinOffset)) = least ast := by
  rw [made, least]
  by_cases hi : ast.integral
  · have ho : ((1 : ℕ) : ℚ) * 10 ^ (0 : ℤ) = (1 : ℕ) := by norm_num
    simp only [if_pos hi]
    rw [if_neg (by norm_num), ho, whole_natCast, cast_one]
  · simp only [if_neg hi]
    have hm : (stAmountMinMantissa : ℚ) * 10 ^ stAmountMinOffset = smallest := by
      rw [smallest, stAmountMinMantissa, stAmountMinOffset]
      norm_num
    rw [shown_of_digits (by decide) (by decide), hm, if_neg (lt_irrefl _)]

/-- **The result.** -/
theorem makeRounded_spec (up : Bool) (hs : s.1 < 2 ^ 64) (h0 : s.1 = 0 → ast.integral)
    (ho : |s.2| ≤ 29000) (hf : 40 ≤ fuel) : wp (makeRounded (ε := ε) fuel mode ast s false up)
      (fun r _ => r.number = if up then raised mode ast s else made mode ast s) ⊥ Panics wide := by
  rw [makeRounded, wp_bind]
  refine wp_imp (newWithAsset_spec s hs h0 ho hf) (fun r wide hr => ?_)
  cases up with
  | false => exact hr
  | true =>
    rw [if_pos rfl, raised, ← hr]
    simp only [Bool.not_false, Bool.and_true, Bool.true_and, decide_eq_true_iff]
    rw [wp_ite, ← number_eq_zero_iff]
    refine ⟨fun hz => ?_, fun hn => (if_neg hn).symm⟩
    rw [if_pos hz, isNativeOrMptAsset_eq, wp_ite, ← made_least mode ast]
    refine ⟨fun hi => ?_, fun hi => ?_⟩
    · rw [if_pos hi]
      exact newWithAsset_spec (1, 0) (by norm_num) (fun h => absurd h (by norm_num)) (by norm_num) hf
    · rw [if_neg hi]
      exact newWithAsset_spec (stAmountMinMantissa, stAmountMinOffset) (by decide) (fun h => absurd h (by decide))
        (by decide) hf

end Xrpld.Protocol
