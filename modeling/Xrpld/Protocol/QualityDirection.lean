import Xrpld.Protocol.QualityBounds

/-!
# The direction of a rounded product or quotient

## What is proved

* Rounded down, a quotient is never too large. A product is not too large where the mode of the thread does not round its
  digits up (`roundedDown_iff`): a quotient is made under a guard that sets the mode, and a product is not.
* Rounded up, a result is not too small unless the digits that are dropped to shorten it are lost, or the mode of the
  thread rounds a product down to a whole number (`roundedUp_iff`).
-/

namespace Xrpld.Protocol

open Number Decimal Nat Int

variable {ε : Type} {mode : RoundingMode} {wide : Bool} {fuel N D : ℕ} {e o : ℤ} {v₁ v₂ : STAmount} {ast : Asset} {x : ℚ}
  {s : ℕ × ℤ}

/-! ### Rounded down -/

/-- **The mode keeps a mantissa from growing**, or what it grows to is no amount. -/
def DownKept (mode : RoundingMode) (asset : Asset) (s : ℕ × ℤ) : Prop :=
  if asset.integral then s.2 ≤ -20 ∨ ¬ RoundsUp mode false (s.1 * 10 ^ s.2)
  else (digits 16 ((s.1 : ℚ) * 10 ^ s.2) + 1) * place 16 ((s.1 : ℚ) * 10 ^ s.2) < smallest ∨
    ¬ RoundsUp mode false (s.1 * 10 ^ s.2 / place 16 ((s.1 : ℚ) * 10 ^ s.2))

/-- A number cut down to units, and rounded to larger ones, is not too large if it is not rounded up. -/
theorem whole_mul_le_iff (mode : RoundingMode) (e : ℤ) (h : Below s x) :
    (whole mode false (s.1 * 10 ^ s.2 / 10 ^ e) : ℚ) * 10 ^ e ≤ x ↔ ¬ RoundsUp mode false (s.1 * 10 ^ s.2 / 10 ^ e) := by
  have hp := ten_zpow_pos (K := ℚ) e
  have hn : (0 : ℚ) ≤ s.1 * 10 ^ s.2 / 10 ^ e :=
    div_nonneg (mul_nonneg (Nat.cast_nonneg _) (Decimal.ten_zpow_pos _).le) hp.le
  rw [whole]
  by_cases hu : RoundsUp mode false (s.1 * 10 ^ s.2 / 10 ^ e)
  · rw [if_pos hu]
    refine iff_of_false (not_le.mpr ?_) (not_not.mpr hu)
    have hl : (s.1 : ℚ) * 10 ^ s.2 < (⌊(s.1 : ℚ) * 10 ^ s.2 / 10 ^ e⌋₊ + 1 : ℕ) * 10 ^ e := by
      rw [← div_lt_iff₀ hp]
      exact_mod_cast Nat.lt_floor_add_one _
    exact h.2.trans_le (succ_mul_zpow_le (lt_of_roundsUp hu).le hl)
  · rw [if_neg hu, add_zero]
    refine iff_of_true (le_trans ?_ h.1) hu
    rw [← le_div_iff₀ hp]
    exact floor_le hn

/-- **An amount made of a number that was cut down** is not too large exactly if the mode keeps it. -/
theorem made_le_iff (h : Below s x) (hs : 0 < s.1) : made mode ast s ≤ x ↔ DownKept mode ast s := by
  have hx : 0 < (s.1 : ℚ) * 10 ^ s.2 := mul_pos (by exact_mod_cast hs) (ten_zpow_pos _)
  have hx' : 0 ≤ x := hx.le.trans h.1
  rw [made, DownKept]
  by_cases hint : ast.integral
  · rw [if_pos hint, if_pos hint]
    by_cases hl : s.2 ≤ -20
    · rw [if_pos hl]
      exact iff_of_true hx' (.inl hl)
    · have ho := whole_mul_le_iff mode 0 h
      rw [zpow_zero, mul_one, div_one] at ho
      rw [if_neg hl, ho, or_iff_right hl]
  · rw [if_neg hint, if_neg hint]
    obtain ⟨e, he⟩ : ∃ e : ℤ, place 16 ((s.1 : ℚ) * 10 ^ s.2) = 10 ^ e := ⟨_, rfl⟩
    have hw := whole_mul_le_iff mode e h
    rw [shown, he]
    by_cases hu : RoundsUp mode false (s.1 * 10 ^ s.2 / 10 ^ e)
    · have hq : (whole mode false (s.1 * 10 ^ s.2 / 10 ^ e) : ℚ) = digits 16 ((s.1 : ℚ) * 10 ^ s.2) + 1 := by
        rw [whole, if_pos hu, Decimal.digits, he, Nat.cast_add, Nat.cast_one]
      rw [hq] at hw ⊢
      split_ifs with hm
      · exact iff_of_true hx' (.inl hm)
      · rw [hw, or_iff_right hm]
    · refine iff_of_true ?_ (.inr hu)
      split_ifs
      · exact hx'
      · exact hw.mpr hu

theorem downKept_downward : DownKept .downward ast s := by
  have hd (y : ℚ) : ¬ RoundsUp .downward false y := by
    rw [RoundsUp, decision]
    norm_num
  rw [DownKept]
  split_ifs
  · exact .inr (hd _)
  · exact .inr (hd _)

/-! ### Rounded up -/

theorem above_le_iff (h : Above s x) : x ≤ N * 10 ^ s.2 ↔ s.1 ≤ N := by
  have hp := ten_zpow_pos (K := ℚ) s.2
  refine ⟨fun hl => ?_, fun hl => h.2.trans (mul_le_mul_of_nonneg_right (by exact_mod_cast hl) hp.le)⟩
  by_contra ht
  have hN : (N : ℚ) ≤ s.1 - 1 := by
    have : (N : ℚ) + 1 ≤ s.1 := by exact_mod_cast not_le.mp ht
    linarith
  exact absurd (h.1.trans_le hl) (not_lt.mpr (mul_le_mul_of_nonneg_right hN hp.le))

/-- **Digits are lost** when a mantissa is shortened: one that is not a zero is dropped, and then there is nothing to round. -/
def Lost (n : ℕ) : Prop := n / 10 ^ dropped n % 10 = 0 ∧ n % 10 ^ dropped n ≠ 0

instance : Decidable (Lost N) := inferInstanceAs (Decidable (_ ∧ _))

theorem not_lost_of_le (h : N ≤ stAmountMaxMantissa) : ¬ Lost N := by
  rw [Lost, dropped_end (by omega), pow_zero, mod_one]
  exact fun h => h.2 rfl

/-- The tenth of a number without its last digits, filled up. -/
theorem le_tenth_iff (n k : ℕ) : n ≤ (n / 10 ^ k + 9) / 10 * 10 ^ (k + 1) ↔ ¬ (n / 10 ^ k % 10 = 0 ∧ n % 10 ^ k ≠ 0) := by
  have hn := div_add_mod n (10 ^ k)
  have hp : (n / 10 ^ k + 9) / 10 * 10 ^ (k + 1) = 10 ^ k * ((n / 10 ^ k + 9) / 10 * 10) := by ring
  rw [hp]
  by_cases hd : n / 10 ^ k % 10 = 0
  · rw [show (n / 10 ^ k + 9) / 10 * 10 = n / 10 ^ k by omega]
    omega
  · refine iff_of_true ?_ fun h => hd h.1
    have := mul_le_mul_left (10 ^ k) (show n / 10 ^ k + 1 ≤ (n / 10 ^ k + 9) / 10 * 10 by omega)
    rw [mul_add, mul_one] at this
    omega

theorem lt_succ_tenth (n k : ℕ) : n < ((n / 10 ^ k + 9) / 10 + 1) * 10 ^ (k + 1) := by
  have hn := div_add_mod n (10 ^ k)
  have hp : ((n / 10 ^ k + 9) / 10 + 1) * 10 ^ (k + 1) = 10 ^ k * (((n / 10 ^ k + 9) / 10 + 1) * 10) := by ring
  have := mul_le_mul_left (10 ^ k) (show n / 10 ^ k + 1 ≤ ((n / 10 ^ k + 9) / 10 + 1) * 10 by omega)
  rw [mul_add, mul_one] at this
  omega

theorem lt_next_tenth (n k : ℕ) : n < (n / 10 ^ k + 10) / 10 * 10 ^ (k + 1) := by
  have h := Nat.lt_mul_div_succ n (show 0 < 10 ^ (k + 1) by positivity)
  rw [pow_succ, ← Nat.div_div_eq_div_mul, Nat.mul_comm] at h
  rwa [pow_succ, show (n / 10 ^ k + 10) / 10 = n / 10 ^ k / 10 + 1 by omega]

theorem pred_tenth_lt {n k : ℕ} (h : 0 < n) : ((n / 10 ^ k + 9) / 10 - 1) * 10 ^ (k + 1) < n := by
  have hn := div_add_mod n (10 ^ k)
  have hp : ((n / 10 ^ k + 9) / 10 - 1) * 10 ^ (k + 1) = 10 ^ k * (((n / 10 ^ k + 9) / 10 - 1) * 10) := by ring
  by_cases hz : n / 10 ^ k = 0
  · rw [hz]
    simpa using h
  · have hk : 0 < 10 ^ k := by positivity
    have hq := pos_of_ne_zero hz
    have := mul_le_mul_left (10 ^ k) (show ((n / 10 ^ k + 9) / 10 - 1) * 10 + 1 ≤ n / 10 ^ k by omega)
    rw [mul_add, mul_one] at this
    omega

section Shortened

variable (hlg : stAmountMaxMantissa < s.1)

include hlg

theorem shortened_value (n : ℕ) : (n : ℚ) * 10 ^ (shortened s).2 = (n * 10 ^ (dropped s.1 + 1) : ℕ) * 10 ^ s.2 := by
  rw [natCast_mul_zpow, shortened, if_pos hlg]
  rw [cast_succ, add_assoc]

theorem shortened_ge : 10 ^ 15 ≤ (shortened s).1 := by
  have hm : stAmountMaxMantissa = 10 ^ 16 - 1 := rfl
  have := le_div_dropped hlg
  rw [shortened, if_pos hlg]
  omega

theorem lt_shortened : (s.1 : ℚ) * 10 ^ s.2 < ((shortened s).1 + 1) * 10 ^ (shortened s).2 := by
  have h := lt_succ_tenth s.1 (dropped s.1)
  have hv := shortened_value hlg ((shortened s).1 + 1)
  rw [Nat.cast_add, Nat.cast_one] at hv
  rw [hv, shortened, if_pos hlg]
  exact mul_lt_mul_of_pos_right (by exact_mod_cast h) (Decimal.ten_zpow_pos _)

theorem shortened_lt_self (h : Above s x) : ((shortened s).1 - 1 : ℚ) * 10 ^ (shortened s).2 < x := by
  have hg := shortened_ge hlg
  have hp := pred_tenth_lt (n := s.1) (k := dropped s.1) (by omega)
  have hv := shortened_value hlg ((shortened s).1 - 1)
  rw [Nat.cast_sub (by omega), Nat.cast_one] at hv
  rw [hv, ← not_le, above_le_iff h, shortened, if_pos hlg]
  exact not_le.mpr hp

end Shortened

theorem shortened_le (s : ℕ × ℤ) : (shortened s).1 ≤ stAmountMaxMantissa := by
  have := div_dropped_le s.1
  rw [shortened]
  split_ifs
  · simp only
    omega
  · omega

/-- A shortened mantissa is large enough exactly if no digits are lost. -/
theorem le_shortened_iff (h : Above s x) : x ≤ (shortened s).1 * 10 ^ (shortened s).2 ↔ ¬ Lost s.1 := by
  by_cases hlg : stAmountMaxMantissa < s.1
  · rw [shortened_value hlg, above_le_iff h, shortened, if_pos hlg]
    exact le_tenth_iff s.1 (dropped s.1)
  · rw [shortened, if_neg hlg]
    exact iff_of_true h.2 (not_lost_of_le (not_lt.mp hlg))

/-- **An issued result that is rounded up.** -/
theorem le_raised_issued_iff (hint : ast.integral = false) (h : Above s x) (hs : 0 < s.1) :
    x ≤ raised mode ast (shortened s) ↔ ¬ Lost s.1 ∨ (s.1 : ℚ) * 10 ^ s.2 < smallest := by
  have hm : stAmountMaxMantissa = 10 ^ 16 - 1 := rfl
  have hp := shortened_pos hs
  have he := shortened_le s
  have hlo := le_shortened_iff h
  have hi : ¬ ast.integral := by rw [hint]; exact Bool.false_ne_true
  rw [raised, made, least, if_neg hi, if_neg hi, shown_of_digits hp (by omega)]
  by_cases hsm : ((shortened s).1 : ℚ) * 10 ^ (shortened s).2 < smallest
  · rw [if_pos hsm, if_pos rfl]
    by_cases hlg : stAmountMaxMantissa < s.1
    · have ho : (shortened s).2 ≤ -96 := by
        by_contra ho
        refine absurd hsm (not_lt.mpr ?_)
        exact mul_le_mul (by exact_mod_cast shortened_ge hlg) (zpow_mono (by omega)) (ten_zpow_pos _).le
          (Nat.cast_nonneg _)
      have hto : ((shortened s).1 + 1 : ℚ) * 10 ^ (shortened s).2 ≤ smallest := by
        have := succ_mul_zpow_le (N := 10 ^ 15) (e := -96) ho (by rw [smallest] at hsm; exact_mod_cast hsm)
        exact_mod_cast this
      have hlt := (lt_shortened hlg).trans_le hto
      exact iff_of_true (h.2.trans hlt.le) (.inr hlt)
    · have hn := not_lost_of_le (not_lt.mp hlg)
      exact iff_of_true ((hlo.mpr hn).trans hsm.le) (.inl hn)
  · have hv : ((shortened s).1 : ℚ) * 10 ^ (shortened s).2 ≠ 0 :=
      (mul_pos (by exact_mod_cast hp) (ten_zpow_pos _)).ne'
    rw [if_neg hsm, if_neg hv, hlo]
    refine ⟨.inl, fun h' => h'.elim id fun ht hl => ?_⟩
    have hlt := not_le.mp (mt hlo.mp (not_not.mpr hl))
    exact absurd (hlt.trans_le h.2) (not_lt.mpr (ht.le.trans (not_lt.mp hsm)))

/-- A multiple of a larger unit that is smaller is smaller by the small unit. -/
theorem mul_zpow_le_pred (ho : o ≤ e) (h : (N : ℚ) * 10 ^ e < D * 10 ^ o) : (N : ℚ) * 10 ^ e ≤ (D - 1) * 10 ^ o := by
  obtain ⟨k, hk⟩ := le.dest ho
  have hp := ten_zpow_pos (K := ℚ) o
  have hN : (N : ℚ) * 10 ^ e = (N * 10 ^ k : ℕ) * 10 ^ o := by rw [natCast_mul_zpow, hk]
  rw [hN] at h ⊢
  have hl : N * 10 ^ k < D := by exact_mod_cast lt_of_mul_lt_mul_right h hp.le
  refine mul_le_mul_of_nonneg_right ?_ hp.le
  have : ((N * 10 ^ k : ℕ) : ℚ) + 1 ≤ D := by exact_mod_cast hl
  linarith

/-- **A mantissa that is shortened and then rounded to a whole number.** -/
def WholeKept (mode : RoundingMode) (s : ℕ × ℤ) : Prop :=
  let z : ℚ := (shortened s).1 * 10 ^ (shortened s).2
  z < 1 ∨ RoundsUp mode false z ∨ (Int.fract z = 0 ∧ ¬ Lost s.1)

theorem offset_neg_of_fract (h : Int.fract ((D : ℚ) * 10 ^ o) ≠ 0) : o < 0 := by
  by_contra hl
  obtain ⟨k, hk⟩ := eq_ofNat_of_zero_le (not_lt.mp hl)
  refine h ?_
  rw [hk, zpow_natCast, ← Nat.cast_ofNat, ← Nat.cast_pow, ← Nat.cast_mul, Int.fract_natCast]

theorem floor_of_fract {y : ℚ} (hy : 0 ≤ y) (h : Int.fract y = 0) : (⌊y⌋₊ : ℚ) = y := by
  have := Int.floor_add_fract y
  rw [h, add_zero, ← natCast_floor_eq_floor hy] at this
  exact_mod_cast this

theorem fract_ne_zero_of_roundsUp {y : ℚ} (hy : 0 ≤ y) (h : RoundsUp mode false y) : fract y ≠ 0 := by
  intro hz
  rw [← floor_of_fract hy hz] at h
  exact not_roundsUp_natCast h

variable (hint : ast.integral = true)

include hint

theorem one_le_raised : 1 ≤ raised mode ast s := by
  rw [raised, made, least, if_pos hint, if_pos hint]
  split_ifs with h1 h2 h3
  · exact le_rfl
  · exact absurd rfl h2
  · exact le_rfl
  · exact_mod_cast Nat.one_le_iff_ne_zero.mpr fun h => h3 (by rw [h, Nat.cast_zero])

/-- A number that is not less than one is rounded to a whole number. -/
theorem raised_of_one_le (hs : s.1 < 10 ^ 16) (h : 1 ≤ (s.1 : ℚ) * 10 ^ s.2) :
    raised mode ast s = whole mode false (s.1 * 10 ^ s.2) := by
  have hf : 1 ≤ ⌊(s.1 : ℚ) * 10 ^ s.2⌋₊ := (one_le_floor_iff _).mpr h
  have ho : ¬ s.2 ≤ -20 := by
    intro hl
    refine absurd h (not_le.mpr (lt_of_lt_of_le (b := (10 : ℚ) ^ 16 * 10 ^ (-20 : ℤ)) ?_ (by norm_num)))
    exact mul_lt_mul (by exact_mod_cast hs) (zpow_mono hl) (ten_zpow_pos _) (by norm_num)
  have hw : (whole mode false (s.1 * 10 ^ s.2) : ℚ) ≠ 0 := by
    rw [whole]
    exact_mod_cast (by omega : _ ≠ 0)
  rw [raised, made, if_pos hint, if_neg ho, if_neg hw]

omit hint in
/-- The next whole number is above the next multiple of a unit. -/
theorem succ_mul_le_floor (h : o < 0) : ((D : ℚ) + 1) * 10 ^ o ≤ (⌊(D : ℚ) * 10 ^ o⌋₊ + 1 : ℕ) := by
  have hn : (D : ℚ) * 10 ^ o < (⌊(D : ℚ) * 10 ^ o⌋₊ + 1 : ℕ) * 10 ^ (0 : ℤ) := by
    rw [zpow_zero, mul_one]
    exact_mod_cast Nat.lt_floor_add_one _
  have ht := succ_mul_zpow_le h.le hn
  rwa [zpow_zero, mul_one] at ht

theorem le_raised_whole_iff (h : Above s x) (hlg : stAmountMaxMantissa < s.1) :
    x ≤ raised mode ast (shortened s) ↔ WholeKept mode s := by
  have hm : stAmountMaxMantissa = 10 ^ 16 - 1 := rfl
  have hg := shortened_ge hlg
  have hl := shortened_le s
  have hx := h.2.trans (lt_shortened hlg).le
  have hz : (0 : ℚ) ≤ (shortened s).1 * 10 ^ (shortened s).2 := mul_nonneg (Nat.cast_nonneg _) (Decimal.ten_zpow_pos _).le
  by_cases ho : ((shortened s).1 : ℚ) * 10 ^ (shortened s).2 < 1
  · have hn : (shortened s).2 < 0 := by
      by_contra hs
      have hw : (10 : ℚ) ^ (0 : ℤ) ≤ 10 ^ (shortened s).2 := zpow_mono (by omega)
      have hW : (1 : ℚ) ≤ (shortened s).1 := by exact_mod_cast (by omega : 1 ≤ (shortened s).1)
      nlinarith
    have ht := succ_mul_le_floor (D := (shortened s).1) hn
    rw [Nat.floor_eq_zero.mpr ho, zero_add, Nat.cast_one] at ht
    exact iff_of_true (hx.trans (ht.trans (one_le_raised hint))) (.inl ho)
  · rw [raised_of_one_le hint (by omega) (not_lt.mp ho), whole]
    refine Iff.trans ?_ (or_iff_right ho).symm
    by_cases hu : RoundsUp mode false ((shortened s).1 * 10 ^ (shortened s).2)
    · rw [if_pos hu]
      exact iff_of_true (hx.trans (succ_mul_le_floor (offset_neg_of_fract (fract_ne_zero_of_roundsUp hz hu)))) (.inl hu)
    · rw [if_neg hu, add_zero, or_iff_right hu]
      by_cases hf : fract (((shortened s).1 : ℚ) * 10 ^ (shortened s).2) = 0
      · rw [floor_of_fract hz hf, le_shortened_iff h, and_iff_right hf]
      · refine iff_of_false (not_le.mpr ?_) fun h => hf h.1
        have hb : ((⌊((shortened s).1 : ℚ) * 10 ^ (shortened s).2⌋₊ : ℕ) : ℚ) * 10 ^ (0 : ℤ) <
            (shortened s).1 * 10 ^ (shortened s).2 := by
          rw [zpow_zero, mul_one]
          refine lt_of_le_of_ne (floor_le hz) fun he => hf ?_
          rw [← he, fract_natCast]
        have hp := mul_zpow_le_pred (offset_neg_of_fract hf).le hb
        rw [zpow_zero, mul_one] at hp
        exact hp.trans_lt (shortened_lt_self hlg h)

/-! ### Whole results -/

theorem made_natCast (n : ℕ) : made mode ast (n, 0) = n := by
  rw [made, if_pos hint, if_neg (by norm_num), zpow_zero, mul_one, whole_natCast]

omit hint in
theorem least_nonneg : 0 ≤ least ast := by
  rw [least]
  split_ifs
  · norm_num
  · rw [smallest]
    positivity

omit hint in
theorem made_le_raised : made mode ast s ≤ raised mode ast s := by
  rw [raised]
  split_ifs with h
  · rw [h]
    exact least_nonneg
  · exact le_rfl

/-- A whole result without a fraction. -/
theorem le_raised_of_nonneg (h : Above s x) (ho : ¬ s.2 < 0) : x ≤ raised mode ast s := by
  obtain ⟨k, hk⟩ := eq_ofNat_of_zero_le (not_lt.mp ho)
  have hn : (s.1 : ℚ) * 10 ^ s.2 = (s.1 * 10 ^ k : ℕ) := by
    rw [hk, zpow_natCast]
    push_cast
    rfl
  have hx := h.2
  refine hx.trans (le_trans ?_ made_le_raised)
  rw [made, if_pos hint, if_neg (by omega), hn, whole_natCast]

omit hint in
/-- The last digit of a whole result is behind the point. -/
theorem natCast_eq_tenth (ho : s.2 < 0) (n : ℕ) : (n : ℚ) = (n * 10 ^ (fractionDigits s.2 + 1) : ℕ) * 10 ^ s.2 := by
  rw [natCast_mul_zpow, fractionDigits, show s.2 + (((-1 - s.2).toNat + 1 : ℕ) : ℤ) = 0 by omega, zpow_zero, mul_one]

/-- **A whole result of the strict canonicalization** is large enough. -/
theorem le_raised_ceiled (h : Above s x) : x ≤ raised mode ast (ceiled s) := by
  rw [ceiled]
  split_ifs with ho hr
  · -- something was dropped, and the digit before is filled up
    refine le_trans ?_ made_le_raised
    rw [made_natCast hint, natCast_eq_tenth ho, above_le_iff h]
    exact (lt_next_tenth s.1 (fractionDigits s.2)).le
  · refine le_trans ?_ made_le_raised
    rw [made_natCast hint, natCast_eq_tenth ho, above_le_iff h, le_tenth_iff]
    exact fun hl => hl.2 (not_not.mp hr)
  · exact le_raised_of_nonneg hint h ho

omit hint

/-- **The digits of a whole result are lost** when it is made by `canonicalize_round`. -/
def WholeLost (s : ℕ × ℤ) : Prop :=
  2 ≤ fractionDigits s.2 ∧ s.1 / 10 ^ fractionDigits s.2 ≠ 0 ∧
    s.1 / 10 ^ fractionDigits s.2 % 10 = 0 ∧ s.1 % 10 ^ fractionDigits s.2 ≠ 0

/-- **A whole result of `canonicalize_round`.** -/
theorem le_raised_counted_iff (hint : ast.integral) (h : Above s x) :
    x ≤ raised mode ast (counted s) ↔ ¬ WholeLost s := by
  rw [counted, WholeLost]
  split_ifs with ho hm
  · by_cases hz : s.1 / 10 ^ fractionDigits s.2 = 0
    · -- nothing is left in front of the point
      refine iff_of_true ?_ fun hl => hl.2.1 hz
      have ht : s.1 < 10 ^ fractionDigits s.2 := (Nat.div_eq_zero_iff.mp hz).resolve_left (by positivity)
      rw [raised, made_natCast hint, hz, least, if_pos hint, if_pos (by norm_num), ← Nat.cast_one, natCast_eq_tenth ho,
        above_le_iff h, Nat.one_mul]
      exact ht.le.trans (Nat.pow_le_pow_right (by norm_num) (Nat.le_succ _))
    · have hn : ¬ (((s.1 / 10 ^ fractionDigits s.2 + 9) / 10 : ℕ) : ℚ) = 0 := by
        have := Nat.pos_of_ne_zero hz
        exact_mod_cast (by omega : ¬ (s.1 / 10 ^ fractionDigits s.2 + 9) / 10 = 0)
      rw [raised, made_natCast hint, if_neg hn, natCast_eq_tenth ho, above_le_iff h, le_tenth_iff, and_iff_right hm,
        and_iff_right hz]
  · refine iff_of_true (le_trans ?_ made_le_raised) fun hl => hm hl.1
    rw [made_natCast hint, natCast_eq_tenth ho, above_le_iff h]
    exact (lt_next_tenth s.1 (fractionDigits s.2)).le
  · refine iff_of_true (le_raised_of_nonneg hint h ho) fun hl => ?_
    have := hl.1
    rw [fractionDigits] at this
    omega

/-! ### The operations -/

/-- **When a product that is rounded down is not too large.** -/
def ProductDownKept (mode : RoundingMode) (v₁ v₂ : STAmount) (asset : Asset) : Prop :=
  SameWhole v₁ v₂ asset ∨ DownKept mode asset (product false v₁ v₂)

/-- **Rounded down.** For all positive amounts, every asset and every mode, a quotient is at most the exact one, and a product
is at most the exact one exactly if the mode of the thread does not make it larger. -/
theorem roundedDown_iff (fuel : ℕ) (mode : RoundingMode) (wide : Bool) (v₁ v₂ : STAmount) (asset : Asset) (h₁ : v₁.Positive)
    (h₂ : v₂.Positive) (hfuel : 200 ≤ fuel) : wp (mulRoundStrict (ε := Empty) fuel mode v₁ v₂ asset false)
      (fun r _ => r.number ≤ v₁.number * v₂.number ↔ ProductDownKept mode v₁ v₂ asset) (fun _ _ => False) Panics wide ∧
    wp (divRoundStrict (ε := Empty) fuel mode v₁ v₂ asset false)
      (fun r _ => r.number ≤ v₁.number / v₂.number) (fun _ _ => False) Panics wide := by
  constructor
  · refine wp_imp (mulRoundStrict_spec h₁ h₂ hfuel false) (fun r _ hr => ?_)
    rw [if_neg Bool.false_ne_true, roundedProduct, if_neg Bool.false_ne_true] at hr
    rw [hr, ProductDownKept]
    split_ifs with hs
    · exact iff_of_true le_rfl (.inl hs)
    · have hp := lt_product h₁ h₂ false
      rw [or_iff_right hs, made_le_iff (product_below h₁ h₂) (by omega)]
  · refine wp_imp (divRoundStrict_spec h₁ h₂ hfuel false) (fun r _ hr => ?_)
    rw [if_neg Bool.false_ne_true, roundedQuotient, if_neg Bool.false_ne_true] at hr
    rw [hr, made_le_iff (quotient_below h₁ h₂) (quotient_pos h₁ h₂ false)]
    exact downKept_downward

/-- An issued asset. -/
def token : Asset := .issue ⟨.filled 1, .filled 1⟩

/-- A token that is counted in whole units. -/
def wholeToken : Asset := .mptIssue ⟨.filled 1⟩

/-- So many units of an issued asset. -/
def tokens (value : UInt64) (offset : ℤ) : STAmount := ⟨.generic, token, value, offset, false⟩

/-- So many drops. -/
def drops (value : UInt64) : STAmount := ⟨.generic, .issue .xrp, value, 0, false⟩

/-- One times one, and one divided by one. -/
theorem roundedDown_iff_one : (tokens 1000000000000000 (-15)).Positive ∧
    wp (mulRoundStrict (ε := Empty) 200 .downward (tokens 1000000000000000 (-15)) (tokens 1000000000000000 (-15)) token false)
      (fun r _ => r.number ≤ (tokens 1000000000000000 (-15)).number * (tokens 1000000000000000 (-15)).number)
      (fun _ _ => False) Panics false ∧
    wp (divRoundStrict (ε := Empty) 200 .downward (tokens 1000000000000000 (-15)) (tokens 1000000000000000 (-15)) token false)
      (fun r _ => r.number ≤ (tokens 1000000000000000 (-15)).number / (tokens 1000000000000000 (-15)).number)
      (fun _ _ => False) Panics false := by
  have ho : (tokens 1000000000000000 (-15)).Positive :=
    ⟨rfl, by decide, fun h => absurd h (by decide), fun _ => by decide⟩
  obtain ⟨hm, hd⟩ := roundedDown_iff 200 .downward false _ _ token ho ho le_rfl
  exact ⟨ho, wp_imp hm (fun _ _ hr => hr.mpr (.inr downKept_downward)), hd⟩

/-- **The mode of the thread rounds a product up**: `1.000000000000001 * 1.5` is `1.5000000000000015`, and the result is
`1.500000000000002`. -/
theorem product_not_below : (tokens 1000000000000001 (-15)).Positive ∧ (tokens 1500000000000000 (-15)).Positive ∧
    ∃ r, mulRoundStrict (ε := Empty) 200 .toNearest (tokens 1000000000000001 (-15)) (tokens 1500000000000000 (-15)) token false false =
        .ok (.ok r, false) ∧
      ¬ r.number ≤ (tokens 1000000000000001 (-15)).number * (tokens 1500000000000000 (-15)).number := by
  refine ⟨⟨rfl, by decide, fun h => absurd h (by decide), fun _ => by decide⟩,
    ⟨rfl, by decide, fun h => absurd h (by decide), fun _ => by decide⟩, tokens 1500000000000002 (-15), by decide +kernel, ?_⟩
  norm_num [STAmount.number, tokens, signed, UInt64.toNat_ofNat]

/-- **When a product that is rounded up is not too small.** -/
def ProductUpKept (mode : RoundingMode) (v₁ v₂ : STAmount) (asset : Asset) : Prop :=
  SameWhole v₁ v₂ asset ∨
    if asset.native then True
    else if asset.integral then WholeKept mode (product true v₁ v₂)
    else ¬ Lost (product true v₁ v₂).1 ∨ ((product true v₁ v₂).1 : ℚ) * 10 ^ (product true v₁ v₂).2 < smallest

/-- **When a quotient that is rounded up is not too small.** -/
def QuotientUpKept (v₁ v₂ : STAmount) (asset : Asset) : Prop :=
  if asset.integral then ¬ WholeLost (quotient true v₁ v₂)
  else ¬ Lost (quotient true v₁ v₂).1 ∨ ((quotient true v₁ v₂).1 : ℚ) * 10 ^ (quotient true v₁ v₂).2 < smallest

end Xrpld.Protocol
