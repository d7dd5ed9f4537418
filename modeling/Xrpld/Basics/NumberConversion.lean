import Xrpld.Basics.NumberOperations

/-!
# Integers as numbers

## What is proved

`from_i64` does not round. It gives an integer its number if the integer has one in the scale, and
for these integers only: for others it panics, or its answer is not normalized (`converts_iff`).
-/

namespace Xrpld.Number

open Nat NumberParts

variable {neg wide : Bool} {sc : MantissaScale} {x z : NumberParts} {m M fuel lo hi : ℕ} {e : ℤ} {i : Int64}

/-! ### Exact normalization -/

/-- **An integer with a mantissa of the range**: digits were added to it, or zeros dropped from it. -/
structure Fitted (negative : Bool) (M lo hi : ℕ) (z : NumberParts) : Prop where
  negative : z.negative = negative
  ge : lo ≤ z.mantissa
  le : z.mantissa ≤ hi
  shift : (∃ j : ℕ, j < 20 ∧ z.exponent = -j ∧ z.mantissa = M * 10 ^ j) ∨ ∃ k : ℕ, k < 20 ∧ z.exponent = k ∧ M = z.mantissa * 10 ^ k

/-- An integer with more digits than the range has. -/
def TooLong (M hi : ℕ) : Prop := ∃ k m : ℕ, M = m * 10 ^ k ∧ hi < m ∧ m % 10 ≠ 0

/-- The mantissa gets its digits. -/
theorem grow_integer (hM : M ≠ 0) (ho : lo ≤ 10 ^ 18) (hf : 20 ≤ fuel) :
    wp (whileLoop .outOfFuel (fun s : ℕ × ℤ => decide (s.1 < lo) && decide (minExponent < s.2))
      addDigit fuel (M, 0))
      (fun s _ => ∃ j : ℕ, j < 20 ∧ s = (M * 10 ^ j, -(j : ℤ)) ∧ lo ≤ s.1 ∧ (0 < j → s.1 < 10 * lo)) ⊥ ⊥ wide := by
  have hl : minExponent = -32768 := rfl
  have hb {j : ℕ} (h : M * 10 ^ j < lo) : j < 18 := by
    by_contra hj
    have hp : 10 ^ 18 ≤ 10 ^ j := Nat.pow_le_pow_right (by norm_num) (not_lt.mp hj)
    have := mul_le_mul (one_le_iff_ne_zero.mpr hM) hp
    omega
  refine wp_imp (wp_whileLoop (fun j s _ => s = (M * 10 ^ j, -(j : ℤ)) ∧ j < 20 ∧ (0 < j → s.1 < 10 * lo)) ?_
    (fun j s _ hs hc => ?_) fun s _ hs hc => ?_) (fun s _ hs => ?_)
  · exact ⟨by simp, by omega, fun h => absurd h (lt_irrefl 0)⟩
  · obtain ⟨rfl, -, -⟩ := hs
    rw [Bool.and_eq_true, decide_eq_true_iff] at hc
    have hj := hb hc.1
    rw [addDigit, wp_bind, checkedU128, if_pos (by simp only; omega), wp_pure, wp_bind, i32, if_pos (by simp only; omega)]
    refine ⟨?_, by omega, fun _ => by simp only; omega⟩
    push_cast
    ring_nf
  · obtain ⟨rfl, hj, -⟩ := hs
    omega
  · obtain ⟨hc, j, rfl, hj, ht⟩ := hs
    refine ⟨j, hj, rfl, ?_, ht⟩
    rw [Bool.and_eq_false_iff, decide_eq_false_iff_not, decide_eq_false_iff_not] at hc
    omega

/-- The mantissa loses zeros. -/
theorem drop_zeros {M hi : ℕ} (hM : M < 2 ^ 64) (hlo : 0 < lo) (hhi : hi + 1 = 10 * lo) (hg : lo ≤ M) (hf : 20 ≤ fuel) :
    wp (whileLoop .outOfFuel (fun s : ℕ × ℤ => decide (hi < s.1)) dropZero fuel (M, 0))
      (fun s _ => lo ≤ s.1 ∧ s.1 ≤ hi ∧ ∃ k : ℕ, k < 20 ∧ s.2 = k ∧ M = s.1 * 10 ^ k)
      (fun _ _ => TooLong M hi) ⊥ wide := by
  have hh : maxExponent = 32768 := rfl
  have hb {k m : ℕ} (h : M = m * 10 ^ k) (hm : lo ≤ m) : k < 20 := by
    by_contra hk
    have hp : 10 ^ 20 ≤ 10 ^ k := Nat.pow_le_pow_right (by norm_num) (not_lt.mp hk)
    have := mul_le_mul (hlo.trans_le hm) hp
    omega
  refine wp_imp (wp_whileLoop (fun k s _ => lo ≤ s.1 ∧ s.2 = (k : ℤ) ∧ M = s.1 * 10 ^ k) ⟨hg, by simp, by simp⟩
    (fun k s _ hs hc => ?_) fun s _ hs hc => ?_) (fun s _ hs => ?_)
  · obtain ⟨hl, he, hq⟩ := hs
    have hk := hb hq hl
    have hlt := of_decide_eq_true hc
    rw [dropZero, if_neg (by omega), wp_ite]
    refine ⟨fun ho => ⟨k, s.1, hq, hlt, ho⟩, fun ho => ?_⟩
    rw [wp_bind, i32, if_pos (by omega)]
    refine ⟨by simp only; omega, by simp only; push_cast; omega, ?_⟩
    rw [not_not] at ho
    have ht : s.1 = s.1 / 10 * 10 := (Nat.div_mul_cancel (Nat.dvd_of_mod_eq_zero ho)).symm
    rw [pow_succ, mul_comm (10 ^ k) 10, ← mul_assoc, ← ht]
    exact hq
  · have := hb hs.2.2 hs.1
    omega
  · obtain ⟨hc, k, hl, he, hq⟩ := hs
    exact ⟨hl, not_lt.mp (of_decide_eq_false hc), k, hb hq hl, he, hq⟩

/-- **Exact normalization of an integer** keeps it, unless it has too many digits. -/
theorem normalizeToRange_integer (hM : M ≠ 0) (hlt : M < 2 ^ 64) (hlo : 0 < lo) (hl : lo ≤ 10 ^ 18)
    (hh : hi + 1 = 10 * lo) (hf : 20 ≤ fuel) :
    wp (normalizeToRange fuel ⟨neg, M, 0⟩ lo hi) (fun z _ => Fitted neg M lo hi z) (fun _ _ => TooLong M hi) ⊥ wide := by
  have ho : minExponent = -32768 := rfl
  rw [normalizeToRange, if_neg hM, wp_bind]
  refine wp_noError (grow_integer hM hl hf) (fun s wide' hs => ?_)
  obtain ⟨j, hj, rfl, hg, ht⟩ := hs
  rw [wp_bind]
  have hn {m : ℕ} {e : ℤ} {wide : Bool} (hm : lo ≤ m) (hm' : m ≤ hi) (he : minExponent ≤ e)
      (hsh : (∃ j : ℕ, j < 20 ∧ e = -j ∧ m = M * 10 ^ j) ∨ ∃ k : ℕ, k < 20 ∧ e = k ∧ M = m * 10 ^ k) :
      wp (if e < minExponent ∨ m < lo then (pure .zero : Calc NumberNormalizeError NumberParts)
        else if 2 ^ 64 ≤ m then Prog.fail .requiresRounding else pure ⟨neg && decide (m ≠ 0), m, e⟩)
        (fun z _ => Fitted neg M lo hi z) (fun _ _ => TooLong M hi) ⊥ wide := by
    rw [if_neg (by omega), if_neg (by omega), decide_eq_true (by omega : m ≠ 0), Bool.and_true]
    exact ⟨rfl, hm, hm', hsh⟩
  by_cases hj0 : j = 0
  · subst hj0
    rw [pow_zero, mul_one] at hg ⊢
    refine wp_imp (drop_zeros hlt hlo hh hg hf) (fun s _ hs => ?_)
    obtain ⟨hm, hm', k, hk, hx, hq⟩ := hs
    exact hn hm hm' (by omega) (.inr ⟨k, hk, hx, hq⟩)
  · have hle : M * 10 ^ j ≤ hi := by
      have := ht (pos_of_ne_zero hj0)
      simp only at this
      omega
    refine wp_imp (wp_whileLoop (fun _ s _ => s = (M * 10 ^ j, -(j : ℤ))) rfl (fun _ s _ hs hc => ?_)
      fun s _ hs hc => ?_) (fun s _ hs => ?_)
    · rw [hs] at hc
      exact absurd hle (not_le.mpr (of_decide_eq_true hc))
    · rw [hs] at hc
      exact absurd hle (not_le.mpr (of_decide_eq_true hc))
    · obtain ⟨-, -, rfl⟩ := hs
      exact hn hg hle (by omega) (.inl ⟨j, hj, rfl, rfl⟩)

theorem Fitted.value_eq (h : Fitted neg M lo hi z) : z.value = signed neg M := by
  rw [Number.value_eq, h.negative]
  obtain ⟨j, -, he, hm⟩ | ⟨k, -, he, hm⟩ := h.shift
  · rw [he, hm, zpow_neg, zpow_natCast]
    push_cast
    rw [mul_assoc, mul_inv_cancel₀ (by positivity), mul_one]
  · rw [he, zpow_natCast, hm]
    push_cast
    rfl

/-! ### Integers -/

theorem externalToInternalMantissa_eq (i : Int64) : externalToInternalMantissa i = i.toInt.natAbs := by
  have hl := i.le_toInt
  rw [externalToInternalMantissa]
  split_ifs <;> omega

theorem fromI64_of_ne_zero (sc : MantissaScale) (hi : i.toInt ≠ 0) (hf : 20 ≤ fuel) :
    (∃ z, fromI64 fuel sc i = .ok z ∧
      Fitted (decide (i.toInt < 0)) i.toInt.natAbs (mantissaRangeMin sc) (mantissaRangeMax sc) z) ∨
    (TooLong i.toInt.natAbs (mantissaRangeMax sc) ∧
      fromI64 fuel sc i = .error (.expect "NumberParts from_i64 should not overflow")) := by
  have hl := i.le_toInt
  have hh := i.toInt_lt
  have h : wp (normalizeToRange fuel ⟨decide (i.toInt < 0), i.toInt.natAbs, 0⟩ (mantissaRangeMin sc)
      (mantissaRangeMax sc)) _ _ _ false :=
    normalizeToRange_integer (by omega) (by omega) (by cases sc <;> decide) (by cases sc <;> decide)
      (by cases sc <;> rfl) hf
  rw [← externalToInternalMantissa_eq] at h ⊢
  simp only [wp] at h
  rw [fromI64, tryFromExternalParts, tryNormalizeExact]
  generalize normalizeToRange fuel _ _ _ false = r at h ⊢
  obtain f | ⟨err | z, wide⟩ := r
  · exact h.elim
  · exact .inr ⟨h, rfl⟩
  · exact .inl ⟨z, rfl, h⟩

/-- **The integers with a number**: with at most sixteen digits before the zeros, or all but the smallest. -/
def Fits (scale : MantissaScale) (i : Int64) : Prop :=
  match scale with
  | .small => ∃ k : ℕ, 10 ^ k ∣ i.toInt.natAbs ∧ i.toInt.natAbs < 10 ^ (16 + k)
  | .largeLegacy | .large320 | .large330 => i.toInt ≠ -2 ^ 63

/-- `from_i64` gives an integer its number. -/
def Converts (fuel : ℕ) (scale : MantissaScale) (i : Int64) : Prop :=
  ∃ x, NumberParts.fromI64 fuel scale i = .ok x ∧ x.isNormalized scale = true ∧
    ((i.toInt : ℚ) ∈ normalizedValues scale → x.value = i.toInt)

theorem fits_large (h : sc ≠ .small) : Fits sc i ↔ i.toInt ≠ -2 ^ 63 := by
  cases sc <;> first | exact absurd rfl h | rfl

theorem mantissaRange_large (h : sc ≠ .small) : mantissaRangeMin sc = 10 ^ 18 ∧ mantissaRangeMax sc = 10 ^ 19 - 1 := by
  cases sc <;> first | exact absurd rfl h | decide

/-- An integer that is too long has no number. -/
theorem not_fits_of_tooLong (h : TooLong i.toInt.natAbs (mantissaRangeMax sc)) : ¬ Fits sc i := by
  obtain ⟨k, m, hq, hg, hm⟩ := h
  by_cases hs : sc = .small
  · subst hs
    rintro ⟨k', hd, hlt⟩
    have hl : 10 ^ 16 ≤ m := hg
    rw [hq] at hd hlt
    obtain he | ht := le_or_gt k' k
    · have hp : 10 ^ k' ≤ 10 ^ k := Nat.pow_le_pow_right (by norm_num) he
      have := mul_le_mul hl hp
      rw [pow_add] at hlt
      omega
    · obtain ⟨d, rfl⟩ : ∃ d, k' = d + 1 + k := ⟨k' - k - 1, by omega⟩
      rw [pow_add, mul_dvd_mul_iff_right (by positivity), pow_succ] at hd
      exact hm (mod_eq_zero_of_dvd (dvd_of_mul_left_dvd hd))
  · have ho := i.le_toInt
    have hh := i.toInt_lt
    rw [(mantissaRange_large hs).2] at hg
    have : m ≤ m * 10 ^ k := Nat.le_mul_of_pos_right m (by positivity)
    omega

/-- The number of an integer that has one is normalized. -/
theorem isNormalized_of_fits (hf : Fits sc i)
    (h : Fitted neg i.toInt.natAbs (mantissaRangeMin sc) (mantissaRangeMax sc) z) :
    z.isNormalized sc := by
  have hn : minExponent = -32768 := rfl
  have ha : maxExponent = 32768 := rfl
  have hr : maxRep = 9223372036854775807 := rfl
  have hd : z.mantissa ≤ maxRep ∨ z.mantissa % 10 = 0 := by
    by_cases hs : sc = .small
    · subst hs
      exact .inl (h.le.trans (by decide))
    · have hl := i.le_toInt
      have hh := i.toInt_lt
      have hne := (fits_large hs).mp hf
      obtain ⟨j, -, -, hm⟩ | ⟨k, -, -, hm⟩ := h.shift
      · cases j with
        | zero => exact .inl (by rw [hm, pow_zero, mul_one]; omega)
        | succ j =>
          rw [hm, pow_succ, ← mul_assoc]
          exact .inr (mul_mod_left _ _)
      · have : z.mantissa ≤ z.mantissa * 10 ^ k := Nat.le_mul_of_pos_right _ (by positivity)
        exact .inl (by omega)
  have hp : 0 < z.mantissa := lt_of_lt_of_le (by cases sc <;> decide) h.ge
  rw [isNormalized, if_neg hp.ne']
  have hx : minExponent ≤ z.exponent ∧ z.exponent ≤ maxExponent := by
    obtain ⟨j, hj, he, -⟩ | ⟨k, hk, he, -⟩ := h.shift <;> omega
  simp [h.ge, h.le, hd, hx]

/-- An integer whose number is normalized fits. -/
theorem fits_of_isNormalized (hz : z.isNormalized sc)
    (h : Fitted neg i.toInt.natAbs (mantissaRangeMin sc) (mantissaRangeMax sc) z) : Fits sc i := by
  by_cases hc : sc = .small
  · subst hc
    have hl : z.mantissa < 10 ^ 16 := lt_succ_of_le h.le
    obtain ⟨j, -, -, hm⟩ | ⟨k, -, -, hm⟩ := h.shift
    · have : i.toInt.natAbs ≤ i.toInt.natAbs * 10 ^ j := Nat.le_mul_of_pos_right _ (by positivity)
      exact ⟨0, one_dvd _, by omega⟩
    · refine ⟨k, ⟨z.mantissa, by rw [hm, mul_comm]⟩, ?_⟩
      rw [hm, pow_add]
      exact mul_lt_mul_of_pos_right hl (by positivity)
  · rw [fits_large hc]
    intro he
    have hM : i.toInt.natAbs = 9223372036854775808 := by omega
    obtain ⟨hn, ha⟩ := mantissaRange_large hc
    have hl := ha ▸ h.le
    have hg := hn ▸ h.ge
    have hs := h.shift
    rw [hM] at hs
    have hm : z.mantissa = 9223372036854775808 := by
      obtain ⟨j, -, -, hm⟩ | ⟨k, -, -, hm⟩ := hs
      · cases j with
        | zero => simpa using hm
        | succ j =>
          omega
      · cases k with
        | zero => simpa using hm.symm
        | succ k =>
          rw [pow_succ, ← mul_assoc] at hm
          omega
    rw [isNormalized, hm] at hz
    simp [maxRep] at hz

/-- **The integers that `from_i64` converts** are those that have a number in the scale. -/
theorem converts_iff (scale : MantissaScale) (i : Int64) (fuel : ℕ) (hfuel : 20 ≤ fuel) :
    Converts fuel scale i ↔ Fits scale i := by
  by_cases h0 : i.toInt = 0
  · have hi : i = 0 := Int64.toInt_inj.mp h0
    subst hi
    refine iff_of_true ⟨.zero, rfl, isNormalized_zero, fun _ => ?_⟩ ?_
    · rw [value_zero]
      rfl
    · cases scale with
      | small => exact ⟨0, one_dvd _, by decide⟩
      | largeLegacy | large320 | large330 => exact (fits_large (by decide)).mpr (by decide)
  obtain ⟨z, hr, hf⟩ | ⟨hl, hr⟩ := fromI64_of_ne_zero scale h0 hfuel
  · constructor
    · rintro ⟨x, hx, hm, -⟩
      obtain rfl : z = x := by
        rw [hr] at hx
        cases hx
        rfl
      exact fits_of_isNormalized hm hf
    · refine fun ht => ⟨z, hr, isNormalized_of_fits ht hf, fun _ => ?_⟩
      rw [hf.value_eq, signed, ← Int.cast_natCast, ← Int.cast_neg]
      split_ifs with hn
      · rw [decide_eq_true_iff] at hn
        congr 1
        omega
      · rw [decide_eq_true_iff] at hn
        congr 1
        omega
  · refine iff_of_false ?_ (not_fits_of_tooLong hl)
    rintro ⟨x, hx, -⟩
    rw [hr] at hx
    cases hx

/-- Nineteen digits, of which the last three are zeros. -/
theorem converts_iff_zeros : Converts 20 .small 1234567890123456000 :=
  (converts_iff .small 1234567890123456000 20 le_rfl).mpr ⟨3, by decide, by decide⟩

/-- Seventeen digits make `from_i64` panic in the small scale, and in a large one the smallest integer gets a number
that is not normalized. -/
theorem not_converts : ¬ Converts 20 .small 12345678901234567 ∧ ¬ Converts 20 .large330 Int64.minValue ∧
    NumberParts.fromI64 20 .small 12345678901234567 = .error (.expect "NumberParts from_i64 should not overflow") ∧
    NumberParts.fromI64 20 .large330 Int64.minValue = .ok ⟨true, 9223372036854775808, 0⟩ := by
  have hs : fromI64 20 .small 12345678901234567 =
      .error (.expect "NumberParts from_i64 should not overflow") := by decide +kernel
  have hl : fromI64 20 .large330 Int64.minValue = .ok ⟨true, 9223372036854775808, 0⟩ := by decide +kernel
  refine ⟨?_, ?_, hs, hl⟩
  · rintro ⟨x, hx, -⟩
    cases hx
  · rintro ⟨x, hx, hn, -⟩
    cases hx
    exact absurd hn (by decide)

end Xrpld.Number
