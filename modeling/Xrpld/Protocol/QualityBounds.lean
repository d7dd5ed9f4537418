import Xrpld.Protocol.QualitySteps

/-!
# Rounded products and quotients against the exact ones

`mul_round_strict` and `div_round_strict` of two positive amounts, compared with the exact product and quotient.

## What is proved

* The result is a number that depends on the factors, the asset and the mode alone (`mulRoundStrict_spec`,
  `divRoundStrict_spec`).
* The mantissa before the last step is the exact product or quotient, cut down or filled up to a multiple of its unit
  (`product_below`, `product_above`, `quotient_below`, `quotient_above`).
-/

namespace Xrpld.Protocol

open Number Decimal Nat

variable {ε : Type} {mode : RoundingMode} {wide up : Bool} {fuel N D : ℕ} {e o : ℤ} {v1 v2 : STAmount} {asset : Asset} {x : ℚ}
  {s : ℕ × ℤ}

/-! ### A number between two multiples of a unit -/

/-- The number is cut down to so many units. -/
def Below (s : ℕ × ℤ) (x : ℚ) : Prop := s.1 * 10 ^ s.2 ≤ x ∧ x < (s.1 + 1) * 10 ^ s.2

/-- The number is filled up to so many units. -/
def Above (s : ℕ × ℤ) (x : ℚ) : Prop := (s.1 - 1) * 10 ^ s.2 < x ∧ x ≤ s.1 * 10 ^ s.2

theorem below_div (hD : 0 < D) : Below (N / D, e) (N / D * 10 ^ e) := by
  have hD' : (0 : ℚ) < D := by exact_mod_cast hD
  have hp := Decimal.ten_zpow_pos (K := ℚ) e
  constructor
  · refine mul_le_mul_of_nonneg_right ?_ hp.le
    rw [le_div_iff₀ hD']
    exact_mod_cast div_mul_le_self N D
  · refine mul_lt_mul_of_pos_right ?_ hp
    rw [div_lt_iff₀ hD']
    have := lt_mul_div_succ N hD
    rw [mul_comm] at this
    exact_mod_cast this

theorem above_div (hD : 0 < D) : Above ((N + (D - 1)) / D, e) (N / D * 10 ^ e) := by
  have hD' : (0 : ℚ) < D := by exact_mod_cast hD
  have hp := Decimal.ten_zpow_pos (K := ℚ) e
  constructor
  · refine mul_lt_mul_of_pos_right ?_ hp
    rw [sub_lt_iff_lt_add, ← sub_lt_iff_lt_add, lt_div_iff₀ hD', sub_mul, one_mul, sub_lt_iff_lt_add]
    have := div_mul_le_self (N + (D - 1)) D
    have ht : (N + (D - 1)) / D * D < N + D := by omega
    exact_mod_cast ht
  · refine mul_le_mul_of_nonneg_right ?_ hp.le
    rw [div_le_iff₀ hD']
    have := lt_mul_div_succ (N + (D - 1)) hD
    rw [mul_comm, add_mul, one_mul] at this
    have hl : N ≤ (N + (D - 1)) / D * D := by omega
    exact_mod_cast hl

/-- A multiple of a larger unit that is larger is larger by the small unit. -/
theorem succ_mul_zpow_le (ho : o ≤ e) (h : (D : ℚ) * 10 ^ o < N * 10 ^ e) : ((D : ℚ) + 1) * 10 ^ o ≤ N * 10 ^ e := by
  obtain ⟨k, hk⟩ := Int.le.dest ho
  have hp := Decimal.ten_zpow_pos (K := ℚ) o
  have hN : (N : ℚ) * 10 ^ e = (N * 10 ^ k : ℕ) * 10 ^ o := by rw [natCast_mul_zpow, hk]
  rw [hN] at h ⊢
  have hl : D < N * 10 ^ k := by exact_mod_cast lt_of_mul_lt_mul_right h hp.le
  exact mul_le_mul_of_nonneg_right (by exact_mod_cast hl) hp.le

/-- A number of units whose part behind a place is not zero has a unit below that place. -/
theorem lt_of_roundsUp {neg : Bool} (h : RoundsUp mode neg ((N : ℚ) * 10 ^ o / 10 ^ e)) : o < e := by
  by_contra hl
  obtain ⟨k, hk⟩ := Int.le.dest (not_lt.mp hl)
  have hn : (N : ℚ) * 10 ^ o / 10 ^ e = (N * 10 ^ k : ℕ) := by
    rw [← hk, ← natCast_mul_zpow, mul_div_cancel_right₀ _ (Decimal.ten_zpow_pos e).ne']
  rw [hn] at h
  exact not_roundsUp_natCast h

/-! ### The operations -/

/-- The mantissa and the offset of a product. -/
def product (roundUp : Bool) (v1 v2 : STAmount) : ℕ × ℤ :=
  ((v1.lifted.1 * v2.lifted.1 + if roundUp then tenTo14 - 1 else 0) / tenTo14, v1.lifted.2 + v2.lifted.2 + 14)

/-- The mantissa and the offset of a quotient. -/
def quotient (roundUp : Bool) (num den : STAmount) : ℕ × ℤ :=
  ((num.lifted.1 * tenTo17 + if roundUp then den.lifted.1 - 1 else 0) / den.lifted.1, num.lifted.2 - den.lifted.2 - 17)

/-- Two whole amounts of one kind, and the result is of that kind too. -/
def SameWhole (v1 v2 : STAmount) (asset : Asset) : Prop :=
  (v1.native ∧ v2.native ∧ asset.native) ∨ (v1.holdsMptIssue ∧ v2.holdsMptIssue ∧ asset.holdsMptIssue)

instance : Decidable (SameWhole v1 v2 asset) := inferInstanceAs (Decidable (_ ∨ _))

section Exact

variable (h1 : v1.Positive) (h2 : v2.Positive)

include h1 h2

theorem product_exact :
    v1.number * v2.number = (v1.lifted.1 * v2.lifted.1 : ℕ) / tenTo14 * 10 ^ (v1.lifted.2 + v2.lifted.2 + 14) := by
  have ht : (tenTo14 : ℚ) = 10 ^ (14 : ℤ) := by norm_num [tenTo14]
  rw [← h1.lifted_number, ← h2.lifted_number, ht, zpow_add₀ (by norm_num), zpow_add₀ (by norm_num)]
  push_cast
  field_simp

theorem quotient_exact :
    v1.number / v2.number = (v1.lifted.1 * tenTo17 : ℕ) / (v2.lifted.1 : ℕ) * 10 ^ (v1.lifted.2 - v2.lifted.2 - 17) := by
  have ht : (tenTo17 : ℚ) = 10 ^ (17 : ℤ) := by norm_num [tenTo17]
  rw [← h1.lifted_number, ← h2.lifted_number, zpow_sub₀ (by norm_num), zpow_sub₀ (by norm_num), cast_mul, ht]
  field_simp

theorem product_below : Below (product false v1 v2) (v1.number * v2.number) := by
  rw [product_exact h1 h2, product, if_neg Bool.false_ne_true, add_zero]
  exact below_div (by decide)

theorem product_above : Above (product true v1 v2) (v1.number * v2.number) := by
  rw [product_exact h1 h2, product, if_pos rfl]
  exact above_div (D := tenTo14) (by decide)

theorem quotient_below : Below (quotient false v1 v2) (v1.number / v2.number) := by
  rw [quotient_exact h1 h2, quotient, if_neg Bool.false_ne_true, add_zero]
  exact below_div (by have := h2.lifted_ge; omega)

theorem quotient_above : Above (quotient true v1 v2) (v1.number / v2.number) := by
  rw [quotient_exact h1 h2, quotient, if_pos rfl]
  exact above_div (by have := h2.lifted_ge; omega)

theorem lt_product (up : Bool) : stAmountMaxMantissa < (product up v1 v2).1 := by
  have hm : stAmountMaxMantissa = 10 ^ 16 - 1 := rfl
  have ht : tenTo14 = 10 ^ 14 := rfl
  have hl : 10 ^ 15 * 10 ^ 15 ≤ v1.lifted.1 * v2.lifted.1 := Nat.mul_le_mul h1.lifted_ge h2.lifted_ge
  rw [product, hm, ht]
  split_ifs <;> omega

theorem quotient_pos (up : Bool) : 0 < (quotient up v1 v2).1 := by
  have ht : tenTo17 = 10 ^ 17 := rfl
  have he := h1.lifted_ge
  have hl := h2.lifted_lt
  have hg := h2.lifted_ge
  rw [quotient, ht]
  exact div_pos (by omega) (by omega)

theorem product_offset (up : Bool) : -178 ≤ (product up v1 v2).2 ∧ (product up v1 v2).2 ≤ 174 := by
  have := h1.lifted_offset
  have := h2.lifted_offset
  rw [product]
  omega

theorem quotient_offset (up : Bool) : -193 ≤ (quotient up v1 v2).2 ∧ (quotient up v1 v2).2 ≤ 159 := by
  have := h1.lifted_offset
  have := h2.lifted_offset
  rw [quotient]
  omega

end Exact

/-- The product of two whole amounts of one kind is exact. -/
theorem wholeProduct_spec {msg : String} {maxMin maxHigh a b : ℤ} (hs : asset.integral) (ha : 0 < a) (hb : 0 < b)
    (hfu : 40 ≤ fuel) :
    wp (wholeProduct (ε := ε) fuel mode asset msg maxMin maxHigh a b) (fun r _ => r.number = a * b) ⊥ Panics wide := by
  rw [wholeProduct, wp_ite]
  refine ⟨fun _ => panics_assertion _, fun _ => ?_⟩
  rw [wp_bind]
  refine wp_i64 fun _ _ => ?_
  rw [wp_ite]
  refine ⟨fun _ => panics_assertion _, fun _ => ?_⟩
  rw [wp_bind]
  refine wp_i64 fun _ hl => ?_
  rw [min_mul_max] at hl ⊢
  have hp : 0 < a * b := mul_pos ha hb
  rw [decide_eq_false (not_lt.mpr hp.le)]
  refine wp_imp (newWithAsset_spec ((a * b).natAbs, 0) (by simp only; omega) (fun _ => hs) (by norm_num) hfu)
    (fun r _ hr => ?_)
  rw [hr, made, if_pos hs, if_neg (by norm_num), zpow_zero, mul_one, whole_natCast, cast_natAbs, abs_of_pos hp]
  push_cast
  rfl

/-- The value of a positive whole amount as an `i64`. -/
theorem wp_signedValue {msg : String} {a : STAmount} {Q : ℤ → Bool → Prop} {E : ε → Bool → Prop} (h : a.Positive)
    (hi : a.integral) (hQ : ∀ z : ℤ, 0 < z → (z : ℚ) = a.number → Q z wide) :
    wp (a.signedValue msg) Q E Panics wide := by
  rw [STAmount.signedValue, wp_bind, wp_fitI64]
  refine ⟨fun _ => ?_, fun _ => panics_expect _⟩
  rw [h.sign, if_neg Bool.false_ne_true, wp_pure]
  refine hQ _ (by exact_mod_cast Nat.pos_of_ne_zero h.toNat_ne_zero) ?_
  rw [h.number_eq, h.whole hi, zpow_zero, mul_one, Int.cast_natCast]

/-- What is canonicalized of a product that is rounded up. -/
def roundedProduct (roundUp : Bool) (v1 v2 : STAmount) (asset : Asset) : ℕ × ℤ :=
  if roundUp then if asset.native then ceiled (product true v1 v2) else shortened (product true v1 v2)
  else product false v1 v2

/-- What is canonicalized of a quotient that is rounded up. -/
def roundedQuotient (roundUp : Bool) (num den : STAmount) (asset : Asset) : ℕ × ℤ :=
  if roundUp then if asset.integral then counted (quotient true num den) else shortened (quotient true num den)
  else quotient false num den

variable (h : s.1 < 2 ^ 64)

include h

theorem shortened_lt : (shortened s).1 < 2 ^ 64 := by
  rw [shortened]
  split_ifs
  · have := div_le_self s.1 (10 ^ dropped s.1)
    omega
  · exact h

omit h in
theorem shortened_pos (h : 0 < s.1) : 0 < (shortened s).1 := by
  rw [shortened]
  split_ifs with hl
  · have hm : stAmountMaxMantissa = 10 ^ 16 - 1 := rfl
    have := le_div_dropped hl
    omega
  · exact h

theorem shortened_offset : s.2 ≤ (shortened s).2 ∧ (shortened s).2 ≤ s.2 + 4 := by
  have := dropped_le h
  rw [shortened]
  split_ifs
  · simp only
    omega
  · omega

/-- What a whole result is divided by ten of. -/
theorem tenth_spec {c : ℕ} (hc : c ≤ 10) :
    (if s.2 < 0 then ((s.1 / 10 ^ fractionDigits s.2 + c) / 10, (0 : ℤ)) else s).1 < 2 ^ 64 ∧
      |(if s.2 < 0 then ((s.1 / 10 ^ fractionDigits s.2 + c) / 10, (0 : ℤ)) else s).2| ≤ |s.2| := by
  have := div_le_self s.1 (10 ^ fractionDigits s.2)
  split_ifs
  · exact ⟨by simp only; omega, by simp⟩
  · exact ⟨h, le_rfl⟩

theorem ceiled_bounds : (ceiled s).1 < 2 ^ 64 ∧ |(ceiled s).2| ≤ |s.2| :=
  tenth_spec h (by split_ifs <;> omega)

theorem counted_bounds : (counted s).1 < 2 ^ 64 ∧ |(counted s).2| ≤ |s.2| :=
  tenth_spec h (by split_ifs <;> omega)

omit h

/-- A mantissa that an amount is made of. -/
structure Fits (asset : Asset) (s : ℕ × ℤ) : Prop where
  lt : s.1 < 2 ^ 64
  ne_zero : s.1 = 0 → asset.integral = true
  offset : |s.2| ≤ 29000

/-- The end of a product or a quotient: the mantissa is canonicalized, and an amount is made of it. -/
theorem canonicalizeIf_spec {f : ℕ × ℤ → Calc ε (ℕ × ℤ)} {t : ℕ × ℤ} (up : Bool)
    (hf : up → wp (f s) (fun t' _ => t' = t) ⊥ Panics wide)
    (hs : Fits asset s) (ht : up → Fits asset t) (hfu : 40 ≤ fuel) :
    wp (canonicalizeIf up f s >>= fun t => makeRounded fuel mode asset t false up)
      (fun r _ => r.number = if up then raised mode asset t else made mode asset s) ⊥ Panics wide := by
  rw [wp_bind, canonicalizeIf]
  cases up with
  | false => exact makeRounded_spec s false hs.lt hs.ne_zero hs.offset hfu
  | true =>
    refine wp_imp (hf rfl) (fun t' _ h => ?_)
    subst h
    exact makeRounded_spec t' true (ht rfl).lt (ht rfl).ne_zero (ht rfl).offset hfu

theorem fits_shortened (hs : s.1 < 2 ^ 64) (hp : 0 < s.1) (ho : |s.2| ≤ 28000) : Fits asset (shortened s) := by
  have hf := shortened_offset hs
  have hp := shortened_pos hp
  rw [abs_le] at ho
  exact ⟨shortened_lt hs, fun hz => absurd hz (by omega), abs_le.mpr ⟨by omega, by omega⟩⟩

theorem fractionDigits_le {b : ℤ} (h : -b ≤ s.2) (hb : b ≤ fuel) : fractionDigits s.2 ≤ fuel := by
  rw [fractionDigits]
  omega

/-- A strict canonicalization of a product that is rounded up. -/
theorem canonicalizeRoundStrict_spec (hs : s.1 < 2 ^ 64) (ho : -178 ≤ s.2) (hfu : 200 ≤ fuel) :
    wp (canonicalizeRoundStrict (ε := ε) fuel asset.native s true)
      (fun t _ => t = if asset.native then ceiled s else shortened s) ⊥ Panics wide := by
  cases asset.native with
  | true => exact canonicalizeRoundStrict_whole s (fractionDigits_le ho (by omega))
  | false => exact shortenIssued_spec s hs (by omega)

/-- The canonicalization of a quotient that is rounded up. -/
theorem canonicalizeRound_spec (hs : s.1 < 2 ^ 64) (ho : -193 ≤ s.2) (hfu : 200 ≤ fuel) :
    wp (canonicalizeRound (ε := ε) fuel (isNativeOrMptAsset asset) s true)
      (fun t _ => t = if asset.integral then counted s else shortened s) ⊥ Panics wide := by
  rw [isNativeOrMptAsset_eq]
  cases asset.integral with
  | true => exact canonicalizeRound_whole s true (fractionDigits_le ho (by omega))
  | false => exact shortenIssued_spec s hs (by omega)

theorem integral_of_native (h : asset.native) : asset.integral := by rw [Asset.integral_eq, h, Bool.true_or]

theorem integral_of_mpt (h : asset.holdsMptIssue) : asset.integral := by
  rw [Asset.integral_eq, h, Bool.or_true]

/-- What is made of a product that is rounded up. -/
theorem fits_roundedProduct (hs : s.1 < 2 ^ 64) (hp : 0 < s.1) (ho : |s.2| ≤ 28000) :
    Fits asset (if asset.native then ceiled s else shortened s) := by
  split_ifs with hn
  · obtain ⟨hl, he⟩ := ceiled_bounds hs
    exact ⟨hl, fun _ => integral_of_native hn, by omega⟩
  · exact fits_shortened hs hp ho

/-- What is made of a quotient that is rounded up. -/
theorem fits_roundedQuotient (hs : s.1 < 2 ^ 64) (hp : 0 < s.1) (ho : |s.2| ≤ 28000) :
    Fits asset (if asset.integral then counted s else shortened s) := by
  split_ifs with hi
  · obtain ⟨hl, he⟩ := counted_bounds hs
    exact ⟨hl, fun _ => hi, by omega⟩
  · exact fits_shortened hs hp ho

section Operations

variable (h1 : v1.Positive) (h2 : v2.Positive) (hfu : 200 ≤ fuel)

include h1 h2 hfu

/-- The mantissas of both factors. -/
theorem wp_lifted {α : Type} {f : ℕ × ℤ → ℕ × ℤ → Calc ε α} {Q : α → Bool → Prop}
    (h : ∀ wide, wp (f v1.lifted v2.lifted) Q ⊥ Panics wide) : wp (do
      let s1 ← liftMantissa fuel v1
      let s2 ← liftMantissa fuel v2
      f s1 s2) Q ⊥ Panics wide := by
  rw [wp_bind]
  refine wp_imp (h1.liftMantissa_spec (by omega)) (fun s _ hs => ?_)
  subst hs
  rw [wp_bind]
  refine wp_imp (h2.liftMantissa_spec (by omega)) (fun s wide hs => ?_)
  subst hs
  exact h wide

/-- The product of two amounts that are not whole ones of one kind. -/
theorem mulRoundLifted_spec (up : Bool) :
    wp (mulRoundLifted (ε := ε) fuel mode v1 v2 asset up (canonicalizeRoundStrict fuel) false)
      (fun r _ => r.number = if up then raised mode asset (roundedProduct true v1 v2 asset)
        else made mode asset (roundedProduct false v1 v2 asset)) ⊥ Panics wide := by
  refine wp_lifted h1 h2 hfu fun wide => ?_
  rw [Bool.false_bne, wp_bind]
  refine wp_imp (muldivRound_spec h1.lifted_lt h2.lifted_lt (by split_ifs <;> decide) (by decide)) (fun q _ hq => ?_)
  obtain ⟨rfl, hq⟩ := hq
  rw [wp_bind]
  refine wp_i32 ?_
  rw [wp_bind]
  refine wp_i32 ?_
  have ho := product_offset h1 h2 up
  have hp := lt_product h1 h2 up
  have ha : |(product up v1 v2).2| ≤ 28000 := abs_le.mpr ⟨by omega, by omega⟩
  rw [← product]
  refine wp_imp (canonicalizeIf_spec (t := if asset.native then ceiled (product up v1 v2)
    else shortened (product up v1 v2)) up (fun hu => ?_) ⟨hq, fun hz => absurd hz (by omega), by omega⟩
    (fun _ => fits_roundedProduct hq (by omega) ha) (by omega)) (fun r _ hr => ?_)
  · subst hu
    exact canonicalizeRoundStrict_spec hq ho.1 hfu
  · rw [hr]
    cases up <;> simp only [roundedProduct, if_true, Bool.false_eq_true, if_false]

/-- **The product.** -/
theorem mulRoundStrict_spec (up : Bool) : wp (mulRoundStrict (ε := ε) fuel mode v1 v2 asset up)
      (fun r _ => r.number = if SameWhole v1 v2 asset then v1.number * v2.number
        else if up then raised mode asset (roundedProduct true v1 v2 asset)
        else made mode asset (roundedProduct false v1 v2 asset)) ⊥ Panics wide := by
  rw [mulRoundStrict, mulRoundImpl, if_neg (not_or.mpr ⟨h1.ne_zero, h2.ne_zero⟩), wp_ite]
  -- the signed values of two whole amounts, and their product
  have hs {msg msg' : String} {l l' : ℤ} (has : asset.integral) (h1' : v1.integral)
      (h2' : v2.integral) (hs : SameWhole v1 v2 asset) (wide : Bool) :
      wp (do
        let a ← v1.signedValue msg
        let b ← v2.signedValue msg
        wholeProduct (ε := ε) fuel mode asset msg' l l' a b) (fun r _ => r.number = if SameWhole v1 v2 asset then
          v1.number * v2.number else if up then raised mode asset (roundedProduct true v1 v2 asset)
          else made mode asset (roundedProduct false v1 v2 asset)) ⊥ Panics wide := by
    rw [wp_bind]
    refine wp_signedValue h1 h1' fun a ha he => ?_
    rw [wp_bind]
    refine wp_signedValue h2 h2' fun b hb hq => ?_
    rw [if_pos hs, ← he, ← hq]
    exact wholeProduct_spec has ha hb (by omega)
  refine ⟨fun hn => ?_, fun hn => ?_⟩
  · rw [signedNativeValue, signedNativeValue, hn.1, hn.2.1]
    exact hs (integral_of_native hn.2.2) (integral_of_native hn.1) (integral_of_native hn.2.1) (.inl hn) wide
  · rw [wp_ite]
    refine ⟨fun hm => ?_, fun hm => ?_⟩
    · rw [signedMptValue, signedMptValue, hm.1, hm.2.1]
      exact hs (integral_of_mpt hm.2.2) (integral_of_mpt hm.1) (integral_of_mpt hm.2.1) (.inr hm) wide
    · rw [if_neg (fun h : SameWhole v1 v2 asset => h.elim hn hm), h1.sign, h2.sign]
      exact mulRoundLifted_spec h1 h2 hfu up

/-- The quotient of two amounts that are not zero. -/
theorem divRoundLifted_spec (up : Bool) : wp (divRoundLifted (ε := ε) fuel v1 v2 asset up false)
      (fun r _ => r.number = if up then raised .upward asset (roundedQuotient true v1 v2 asset)
        else made .downward asset (roundedQuotient false v1 v2 asset)) ⊥ Panics wide := by
  refine wp_lifted h1 h2 hfu fun wide => ?_
  have he := h2.lifted_ge
  have hd := h2.lifted_lt
  rw [Bool.false_bne, Bool.xor_false, wp_bind]
  refine wp_imp (muldivRound_spec h1.lifted_lt (by norm_num [tenTo17]) (by split_ifs <;> omega) (by omega)) (fun q _ hq => ?_)
  obtain ⟨rfl, hq⟩ := hq
  rw [wp_bind]
  refine wp_i32 ?_
  rw [wp_bind]
  refine wp_i32 ?_
  have ho := quotient_offset h1 h2 up
  have hp := quotient_pos h1 h2 up
  have ha : |(quotient up v1 v2).2| ≤ 28000 := abs_le.mpr ⟨by omega, by omega⟩
  rw [← quotient]
  refine wp_imp (canonicalizeIf_spec (t := if asset.integral then counted (quotient up v1 v2)
    else shortened (quotient up v1 v2)) up (fun hu => ?_) ⟨hq, fun hz => absurd hz (by omega), by omega⟩
    (fun _ => fits_roundedQuotient hq hp ha) (by omega)) (fun r _ hr => ?_)
  · subst hu
    exact canonicalizeRound_spec hq ho.1 hfu
  · rw [hr]
    cases up <;> simp only [roundedQuotient, if_true, Bool.false_eq_true, if_false]

/-- **The quotient.** -/
theorem divRoundStrict_spec (up : Bool) : wp (divRoundStrict (ε := ε) fuel mode v1 v2 asset up)
      (fun r _ => r.number = if up then raised .upward asset (roundedQuotient true v1 v2 asset)
        else made .downward asset (roundedQuotient false v1 v2 asset)) ⊥ Panics wide := by
  rw [divRoundStrict, divRoundImpl, if_neg h2.ne_zero, if_neg h1.ne_zero, h1.sign, h2.sign]
  exact divRoundLifted_spec h1 h2 hfu up

end Operations

end Xrpld.Protocol
