import Xrpld.Lib.Decimal
import Xrpld.Basics.NumberConversion
import Xrpld.Protocol.IouAmount

/-!
# How an issued amount is rounded

## What is proved

`normalize_parts_to_range` rounds to sixteen digits (`shown`), in the rounding mode of the thread, and
`from_parts` makes an amount of that, or zero, or fails, as the number is in the range of the
amounts, below it or above it (`fromParts_makes`).
-/

namespace Xrpld.Protocol

open Number Decimal Nat IOUAmount

variable {mode : RoundingMode} {sc : MantissaScale} {negative wide : Bool} {x y z : NumberParts} {a f s v : ℚ} {e : ℤ}
  {m n fuel : ℕ} {g : IouRoundGuard} {b : ℤ}

/-! ### Rounding to a whole number -/

/-- The mode takes a number to the whole number above it. -/
def RoundsUp (mode : RoundingMode) (negative : Bool) (s : ℚ) : Prop :=
  decision mode negative (Int.fract s) = 1 ∨ (decision mode negative (Int.fract s) = 0 ∧ ⌊s⌋₊ % 2 = 1)

instance : Decidable (RoundsUp mode negative s) := inferInstanceAs (Decidable (_ ∨ _ ∧ _))

/-- The whole number that the mode takes a number to. -/
def whole (mode : RoundingMode) (negative : Bool) (s : ℚ) : ℕ := ⌊s⌋₊ + if RoundsUp mode negative s then 1 else 0

theorem floor_add_fract (hf : 0 ≤ f) (hf1 : f < 1) : ⌊(m : ℚ) + f⌋₊ = m ∧ Int.fract ((m : ℚ) + f) = f := by
  constructor
  · rw [floor_eq_iff (by positivity)]
    exact ⟨by linarith, by linarith⟩
  · rw [Int.fract_natCast_add, Int.fract_eq_self]
    exact ⟨hf, hf1⟩

theorem not_roundsUp_natCast : ¬ RoundsUp mode negative (m : ℚ) := by
  rw [RoundsUp, Int.fract_natCast]
  cases mode <;> norm_num [decision]

theorem whole_natCast : whole mode negative (m : ℚ) = m := by
  rw [whole, if_neg not_roundsUp_natCast, floor_natCast, add_zero]

/-- The guard decides as the fraction does. -/
theorem roundsUp_iff (h : Exact g f) (hn : g.negative = negative) :
    RoundsUp mode negative (m + f) ↔ g.round mode = 1 ∨ (g.round mode = 0 ∧ m % 2 = 1) := by
  obtain ⟨hl, hf⟩ := floor_add_fract (m := m) h.nonneg h.lt_one
  rw [RoundsUp, hl, hf, h.round_eq, hn]

/-! ### Sixteen digits -/

/-- **A number as an amount shows it**: its first sixteen digits, rounded. -/
def shown (mode : RoundingMode) (negative : Bool) (a : ℚ) : ℚ := whole mode negative (a / place 16 a) * place 16 a

/-- The amount that a mantissa with a fraction shows. -/
theorem shown_eq (hm : 10 ^ 15 ≤ m) (hl : m < 10 ^ 16) (hf : 0 ≤ f) (hf1 : f < 1) :
    shown mode negative ((m + f) * 10 ^ e) = whole mode negative (m + f) * 10 ^ e := by
  have hp : place 16 ((m + f) * 10 ^ e) = 10 ^ e := by
    refine place_eq (n := m) (by norm_num) hm hl ?_ ?_
    · exact mul_le_mul_of_nonneg_right (by linarith) (ten_zpow_pos e).le
    · exact mul_lt_mul_of_pos_right (by linarith) (ten_zpow_pos e)
  rw [shown, hp, mul_div_cancel_right₀ _ (ten_zpow_pos e).ne']

/-- **A number of at most sixteen digits** is shown as it is. -/
theorem shown_of_digits (hn0 : 0 < n) (hn : n ≤ 10 ^ 16) : shown mode negative (n * 10 ^ e) = n * 10 ^ e := by
  have hc : cut 16 ((n : ℚ) * 10 ^ e) = n * 10 ^ e :=
    cut_eq (by norm_num) hn0 hn le_rfl (mul_lt_mul_of_pos_right (lt_add_one _) (ten_zpow_pos e)) (.inr rfl)
  have hd : (n : ℚ) * 10 ^ e / place 16 ((n : ℚ) * 10 ^ e) = digits 16 ((n : ℚ) * 10 ^ e) := by
    rw [div_eq_iff place_pos.ne']
    exact hc.symm
  rw [shown, hd, whole_natCast]
  exact hc

/-! ### Rounding into the range of the mantissa -/

/-- **A mantissa with its digits**: it stands for the magnitude. -/
structure Shows (negative : Bool) (a : ℚ) (z : NumberParts) : Prop where
  negative : z.negative = negative
  ge : 10 ^ 15 ≤ z.mantissa
  lt : z.mantissa < 10 ^ 16
  eq : (z.mantissa : ℚ) * 10 ^ z.exponent = a

/-- Digits are added to a mantissa that is too short. -/
theorem addDigits_spec {lo : ℕ} (hlo : 0 < lo) (hl : lo ≤ 10 ^ 18) (hm : x.mantissa ≠ 0)
    (hb : b ≤ 30000) (he : |x.exponent| ≤ b) (hf : 20 ≤ fuel) : wp (whileLoop .outOfFuel
      (fun x : NumberParts => decide (x.mantissa < lo) && decide (minExponent < x.exponent)) addDigit fuel x)
      (fun y _ => ∃ j : ℕ, j ≤ 18 ∧ y = { x with mantissa := x.mantissa * 10 ^ j, exponent := x.exponent - j } ∧
        lo ≤ y.mantissa ∧ (0 < j → y.mantissa < 10 * lo)) ⊥ ⊥ wide := by
  have ho : minExponent = -32768 := rfl
  rw [abs_le] at he
  have hd {j : ℕ} (h : x.mantissa * 10 ^ j < lo) : j < 18 := by
    by_contra hj
    have hp : 10 ^ 18 ≤ 10 ^ j := Nat.pow_le_pow_right (by norm_num) (not_lt.mp hj)
    have := mul_le_mul (one_le_iff_ne_zero.mpr hm) hp
    omega
  refine wp_imp (wp_whileLoop (fun j y _ => j ≤ 18 ∧
    y = { x with mantissa := x.mantissa * 10 ^ j, exponent := x.exponent - j } ∧ (0 < j → y.mantissa < 10 * lo)) ?_
    (fun j y _ hy hc => ?_) fun y _ hy hc => ?_) (fun y _ hy => ?_)
  · refine ⟨by omega, ?_, fun h => absurd h (lt_irrefl 0)⟩
    rw [pow_zero, mul_one, cast_zero, sub_zero]
  · obtain ⟨hj, rfl, -⟩ := hy
    rw [Bool.and_eq_true, decide_eq_true_iff] at hc
    have hj' := hd hc.1
    simp only at hc
    rw [addDigit, wp_bind, checkedU64, if_pos (by simp only; omega), wp_pure, wp_bind, i32,
      if_pos (by simp only; omega)]
    refine ⟨by omega, ?_, fun _ => by simp only; omega⟩
    rw [pow_succ, ← mul_assoc]
    push_cast
    rw [sub_sub]
  · obtain ⟨hj, rfl, -⟩ := hy
    omega
  · obtain ⟨hc, j, hj, rfl, ht⟩ := hy
    refine ⟨j, hj, rfl, ?_, ht⟩
    rw [Bool.and_eq_false_iff, decide_eq_false_iff_not, decide_eq_false_iff_not] at hc
    simp only at hc ⊢
    omega

/-- The end of `normalize_parts_to_range` for a mantissa of sixteen digits. -/
theorem doRoundUp_shows (mode : RoundingMode) (hg : Exact g f) (hn : g.negative = x.negative) (hm : 10 ^ 15 ≤ x.mantissa)
    (hlt : x.mantissa < 10 ^ 16) (hb : b ≤ 30000) (he : |x.exponent| ≤ b) :
    wp (IouRoundGuard.doRoundUp mode minIouMantissa maxIouMantissa g x)
      (fun z _ => Shows x.negative (shown mode x.negative ((x.mantissa + f) * 10 ^ x.exponent)) z ∧ |z.exponent| ≤ b + 1)
      ⊥ ⊥ wide := by
  have hl : minExponent = -32768 := rfl
  have hh : maxExponent = 32768 := rfl
  have hi : minIouMantissa = 10 ^ 15 := rfl
  have ha : maxIouMantissa = 10 ^ 16 - 1 := rfl
  have hr : maxRep = 9223372036854775807 := rfl
  rw [abs_le] at he
  rw [shown_eq hm hlt hg.nonneg hg.lt_one, whole, (floor_add_fract hg.nonneg hg.lt_one).1]
  -- a mantissa of sixteen digits is in its range
  have hd {y : NumberParts} (hy : 10 ^ 15 ≤ y.mantissa) (hye : -b ≤ y.exponent) (hye' : y.exponent ≤ b + 1) (wide : Bool)
      {Q : NumberParts → Bool → Prop} (hQ : Q y wide) :
      wp (IouRoundGuard.bringIntoRange minIouMantissa y >>= fun x =>
        if maxExponent < x.exponent then Prog.fail NumberArithmeticError.overflow else pure x) Q ⊥ ⊥ wide := by
    have hz : IouRoundGuard.zeroIfTooSmall y = y := if_neg (by omega)
    rw [wp_bind, IouRoundGuard.bringIntoRange, if_neg (by omega), wp_pure, hz, if_neg (by omega)]
    exact hQ
  rw [IouRoundGuard.doRoundUp, wp_bind, IouRoundGuard.roundMantissa, wp_ite]
  refine ⟨fun hu => ?_, fun hdn => ?_⟩
  · rw [if_pos ((roundsUp_iff hg hn).mpr hu), IouRoundGuard.increment, wp_bind, checkedU128, if_pos (by omega),
      wp_pure, wp_ite]
    refine ⟨fun ho => ?_, fun hf => ?_⟩
    · -- all nines
      have ht : x.mantissa + 1 = 10 ^ 15 * 10 := by omega
      rw [wp_bind, checkedI32, if_pos (by omega), wp_pure]
      refine hd (by simp only; omega) (by simp only; omega) (by simp only; omega) _ ⟨⟨rfl, ?_, ?_, ?_⟩, ?_⟩
      · simp only
        omega
      · simp only
        omega
      · simp only
        rw [ht, Nat.mul_div_cancel _ (by norm_num), Decimal.ten_zpow_succ]
        ring
      · rw [abs_le]
        simp only
        omega
    · exact hd (by simp only; omega) (by simp only; omega) (by simp only; omega) _
        ⟨⟨rfl, by simp only; omega, by simp only; omega, rfl⟩, abs_le.mpr ⟨by simp only; omega, by simp only; omega⟩⟩
  · rw [if_neg (mt (roundsUp_iff hg hn).mp hdn)]
    exact hd hm (by omega) (by omega) _ ⟨⟨rfl, hm, hlt, rfl⟩, abs_le.mpr ⟨by omega, by omega⟩⟩

/-- The digits past the sixteenth are dropped. -/
theorem dropDigits_sixteen (hm : 10 ^ 15 ≤ x.mantissa) (hm' : x.mantissa < 2 ^ 64) (hb : b ≤ 30000)
    (he : |x.exponent| ≤ b) (hf : 20 ≤ fuel) :
    wp (whileLoop .outOfFuel (fun s : IouRoundGuard × NumberParts => decide (maxIouMantissa < s.2.mantissa))
      dropDigitBelowMax fuel (({ negative := x.negative } : IouRoundGuard), x))
      (fun s _ => ∃ f, Holds (x.mantissa * 10 ^ x.exponent) f s.1 s.2 ∧ Exact s.1 f ∧ s.2.negative = x.negative ∧
        10 ^ 15 ≤ s.2.mantissa ∧ s.2.mantissa < 10 ^ 16 ∧ |s.2.exponent| ≤ b + 5) ⊥ ⊥ wide := by
  have hi : maxExponent = 32768 := rfl
  have ha : maxIouMantissa = 10 ^ 16 - 1 := rfl
  rw [abs_le] at he
  -- after `j` turns `j` digits are gone
  have hd {j m : ℕ} (h : m * 10 ^ j ≤ x.mantissa) (hg : 10 ^ 15 ≤ m) : j < 5 := by
    by_contra hj
    have hp : 10 ^ 5 ≤ 10 ^ j := Nat.pow_le_pow_right (by norm_num) (not_lt.mp hj)
    have := mul_le_mul hg hp
    omega
  refine wp_imp (wp_whileLoop (fun j s _ => (∃ f, Holds (x.mantissa * 10 ^ x.exponent) f s.1 s.2 ∧ Exact s.1 f) ∧
    s.2.negative = x.negative ∧ 10 ^ 15 ≤ s.2.mantissa ∧ s.2.mantissa * 10 ^ j ≤ x.mantissa ∧ s.2.exponent = x.exponent + j) ?_
    (fun j s _ hs hc => ?_) fun s _ hs hc => ?_) (fun s _ hs => ?_)
  · refine ⟨⟨0, ⟨sums_new.toSums, by rw [add_zero], rfl⟩, sums_new⟩, rfl, hm, by simp, by simp⟩
  · obtain ⟨⟨f, hh, -⟩, hn, hg, hl, hx⟩ := hs
    have hj := hd hl hg
    have hlt := of_decide_eq_true hc
    rw [dropDigitBelowMax, if_neg (by omega), wp_bind, i32, if_pos (by omega)]
    refine ⟨⟨_, hh.drop⟩, hn, by simp only; omega, ?_, by simp only; omega⟩
    have ht : s.2.mantissa / 10 * 10 ≤ s.2.mantissa := div_mul_le_self _ _
    rw [pow_succ', ← Nat.mul_assoc]
    exact (mul_le_mul_right _ ht).trans hl
  · have := hd hs.2.2.2.1 hs.2.2.1
    omega
  · obtain ⟨hc, j, ⟨f, hh, hxa⟩, hn, hg, hl, hx⟩ := hs
    have hj := hd hl hg
    have hlt := of_decide_eq_false hc
    exact ⟨f, hh, hxa, hn, hg, by omega, abs_le.mpr ⟨by omega, by omega⟩⟩

/-- **Sixteen digits**: a number is rounded to what an amount shows of it. -/
theorem normalize_shows (hm : x.mantissa ≠ 0) (hm' : x.mantissa < 2 ^ 64) (hb : b ≤ 29000) (he : |x.exponent| ≤ b)
    (hf : 20 ≤ fuel) : wp (normalizePartsToRange fuel mode x minIouMantissa maxIouMantissa)
      (fun z _ => Shows x.negative (shown mode x.negative (x.mantissa * 10 ^ x.exponent)) z ∧ |z.exponent| ≤ b + 24)
      ⊥ ⊥ wide := by
  have ho : minExponent = -32768 := rfl
  have hi : minIouMantissa = 10 ^ 15 := rfl
  have hr : maxRep = 9223372036854775807 := rfl
  rw [normalizePartsToRange, if_neg hm, wp_bind]
  refine wp_imp (addDigits_spec (by decide) (by decide) hm (by omega) he hf) (fun y _ hy => ?_)
  obtain ⟨j, hj, rfl, hge, ht⟩ := hy
  have hv : ((x.mantissa * 10 ^ j : ℕ) : ℚ) * 10 ^ (x.exponent - j) = x.mantissa * 10 ^ x.exponent := by
    rw [natCast_mul_zpow, sub_add_cancel]
  have hw : x.mantissa * 10 ^ j < 2 ^ 64 := by
    obtain rfl | hj0 := Nat.eq_zero_or_pos j
    · simpa using hm'
    · have := ht hj0
      simp only at this
      omega
  rw [wp_bind]
  have hx : |x.exponent - j| ≤ b + 18 := by
    rw [abs_le] at he ⊢
    omega
  refine wp_imp (dropDigits_sixteen hge hw (by omega) hx hf) (fun s _ hs => ?_)
  obtain ⟨f, hh, hxa, hn, hg, hl, hex⟩ := hs
  obtain ⟨g, y⟩ := s
  have hexp'' := abs_le.mp hex
  simp only at hg hl hexp''
  simp only
  rw [if_neg (by omega), wp_bind, dropPastRep, if_neg (by simp only; omega), wp_pure, wp_bind]
  refine wp_imp (doRoundUp_shows mode hxa hh.sign hg hl (by omega) hex) (fun z _ hz => ?_)
  obtain ⟨hz, hze⟩ := hz
  have hm0 : z.mantissa ≠ 0 := by
    have := hz.ge
    omega
  have hz6 : ¬ 2 ^ 64 ≤ z.mantissa := by
    have := hz.lt
    omega
  rw [if_neg hz6, decide_eq_true hm0, Bool.and_true]
  have ha : (y.mantissa + f) * 10 ^ y.exponent = (x.mantissa : ℚ) * 10 ^ x.exponent := by
    rw [← hh.eq, ← hv]
  rw [ha, hn] at hz
  exact ⟨⟨hz.negative, hz.ge, hz.lt, hz.eq⟩, hze.trans (by omega)⟩

/-! ### Amounts -/

/-- **A normalized amount**: zero, or sixteen digits and an exponent of the range. -/
def IOUAmount.Normal (a : IOUAmount) : Prop :=
  a = .new ∨ (10 ^ 15 ≤ a.mantissa.natAbs ∧ a.mantissa.natAbs < 10 ^ 16 ∧ -96 ≤ a.exponent ∧ a.exponent ≤ 80)

/-- The smallest positive amount. -/
def smallest : ℚ := 10 ^ 15 * 10 ^ (-96 : ℤ)

/-- What is past the largest amount. -/
def limit : ℚ := 10 ^ 16 * 10 ^ (80 : ℤ)

/-- **The amount that is made of a magnitude**: it, or zero if it is too small. -/
def Makes (negative : Bool) (v : ℚ) (r : IOUAmount) : Prop :=
  (v < smallest ∧ r = .new) ∨ (smallest ≤ v ∧ v < limit ∧ r.Normal ∧ r.mantissa ≠ 0 ∧ r.value = signed negative v)

theorem zpow_mono {i j : ℤ} (h : i ≤ j) : (10 : ℚ) ^ i ≤ 10 ^ j := zpow_le_zpow_right₀ (by norm_num) h

namespace Shows

variable (h : Shows negative a z)

include h

theorem ge_unit : 10 ^ 15 * 10 ^ z.exponent ≤ a := by
  have hg : (10 : ℚ) ^ 15 ≤ z.mantissa := by exact_mod_cast h.ge
  rw [← h.eq]
  exact mul_le_mul_of_nonneg_right hg (ten_zpow_pos _).le

theorem lt_unit : a < 10 ^ 16 * 10 ^ z.exponent := by
  have hl : (z.mantissa : ℚ) < 10 ^ 16 := by exact_mod_cast h.lt
  rw [← h.eq]
  exact mul_lt_mul_of_pos_right hl (ten_zpow_pos _)

theorem limit_le (he : 80 < z.exponent) : limit ≤ a := by
  calc limit = 10 ^ 15 * 10 ^ (80 + 1 : ℤ) := by rw [limit, ten_zpow_succ]; ring
    _ ≤ 10 ^ 15 * 10 ^ z.exponent := mul_le_mul_of_nonneg_left (zpow_mono (by omega)) (by norm_num)
    _ ≤ a := h.ge_unit

theorem lt_smallest (he : z.exponent < -96) : a < smallest := by
  calc a < 10 ^ 16 * 10 ^ z.exponent := h.lt_unit
    _ ≤ 10 ^ 16 * 10 ^ (-97 : ℤ) := mul_le_mul_of_nonneg_left (zpow_mono (by omega)) (by norm_num)
    _ = 10 ^ 15 * 10 ^ (-97 + 1 : ℤ) := by rw [ten_zpow_succ]; ring
    _ = smallest := by rw [smallest]; norm_num

theorem smallest_le (he : -96 ≤ z.exponent) : smallest ≤ a :=
  (mul_le_mul_of_nonneg_left (zpow_mono he) (by norm_num)).trans h.ge_unit

theorem lt_limit (he : z.exponent ≤ 80) : a < limit :=
  h.lt_unit.trans_le (mul_le_mul_of_nonneg_left (zpow_mono he) (by norm_num))

end Shows

theorem wp_signedMantissa {Q : ℤ → Bool → Prop} {E : NumberArithmeticError → Bool → Prop} {F : Fault → Prop} (hm : m < 2 ^ 63)
    (h : Q (if negative then -m else m) wide) : wp (signedMantissa negative m) Q E F wide := by
  rw [signedMantissa, wp_ite]
  refine ⟨fun hn => ?_, fun hn => ?_⟩
  · rw [checkedI64, if_pos (by omega)]
    rwa [if_pos hn] at h
  · rwa [if_neg hn] at h

/-- **`from_number`** makes the amount that is shown. -/
theorem fromNumber_makes (mode : RoundingMode) (wide : Bool) (hm : x.mantissa ≠ 0) (hm' : x.mantissa < 2 ^ 64)
    (he : |x.exponent| ≤ 29000) (hf : 20 ≤ fuel) : wp (fromNumber fuel mode x)
      (fun r _ => Makes x.negative (shown mode x.negative (x.mantissa * 10 ^ x.exponent)) r)
      (fun err _ => err = .overflow ∧ limit ≤ shown mode x.negative (x.mantissa * 10 ^ x.exponent)) ⊥ wide := by
  have hi : minIouExponent = -96 := rfl
  have ha : maxIouExponent = 80 := rfl
  rw [fromNumber, normalizeRuntimeNumberToRange, wp_bind]
  refine wp_noError (normalize_shows hm hm' le_rfl he hf) (fun z _ hz => ?_)
  replace hz := hz.1
  have hg := hz.ge
  have hl := hz.lt
  rw [wp_bind, signedRuntimeMantissa, wp_bind, checkedI64, if_pos (by omega), wp_pure]
  refine wp_signedMantissa (by omega) ?_
  rw [wp_ite]
  refine ⟨fun h => ⟨rfl, hz.limit_le (by omega)⟩, fun h => ?_⟩
  rw [wp_ite]
  refine ⟨fun h' => .inl ⟨hz.lt_smallest (by omega), rfl⟩, fun h' => ?_⟩
  refine .inr ⟨hz.smallest_le (by omega), hz.lt_limit (by omega), .inr ?_, ?_, ?_⟩
  · simp only
    split_ifs <;> omega
  · simp only
    split_ifs <;> omega
  · rw [value, ← hz.eq, signed, hz.negative]
    split_ifs <;> push_cast <;> ring

/-- An empty guard rounds nothing. -/
theorem round_of_zero {hasExtra : Bool} (hg : Exact ⟨0, hasExtra, negative⟩ 0) :
    ArithmeticGuard.round ⟨0, hasExtra, negative⟩ mode = -1 := by
  rw [hg.round_eq]
  cases mode <;> norm_num [decision]

/-- The end of `normalize_parts_to_range` for nineteen digits: a zero that was dropped comes back. -/
theorem doRoundUp_large (hg : g.round mode = -1) (hb : b ≤ 30000) (he : |x.exponent| ≤ b) (ht : x.mantissa < 10 ^ 19)
    (hge : 10 ^ 17 ≤ x.mantissa) :
    wp (IouRoundGuard.doRoundUp mode (10 ^ 18) (10 ^ 19 - 1) g x) (fun z _ => z.negative = x.negative ∧
      10 ^ 18 ≤ z.mantissa ∧ z.mantissa < 10 ^ 19 ∧ |z.exponent| ≤ b + 1 ∧
      (z.mantissa : ℚ) * 10 ^ z.exponent = x.mantissa * 10 ^ x.exponent) ⊥ ⊥ wide := by
  have hl : minExponent = -32768 := rfl
  have hh : maxExponent = 32768 := rfl
  rw [abs_le] at he
  have hr : ¬ (g.round mode = 1 ∨ g.round mode = 0 ∧ x.mantissa % 2 = 1) := by omega
  rw [IouRoundGuard.doRoundUp, wp_bind, IouRoundGuard.roundMantissa, if_neg hr, wp_pure, wp_bind,
    IouRoundGuard.bringIntoRange, wp_ite]
  refine ⟨fun hs => ?_, fun hlg => ?_⟩
  · rw [wp_bind, u128, if_pos (by omega), wp_pure, wp_bind, i32, if_pos (by omega), wp_pure, wp_pure]
    have hz : IouRoundGuard.zeroIfTooSmall { x with mantissa := x.mantissa * 10, exponent := x.exponent - 1 } =
        { x with mantissa := x.mantissa * 10, exponent := x.exponent - 1 } := if_neg (by simp only; omega)
    rw [hz, if_neg (by simp only; omega)]
    refine ⟨rfl, by simp only; omega, by simp only; omega, abs_le.mpr ⟨by simp only; omega, by simp only; omega⟩, ?_⟩
    have h := natCast_mul_zpow (K := ℚ) x.mantissa 1 (x.exponent - 1)
    rwa [pow_one, Nat.cast_one, sub_add_cancel] at h
  · have hz : IouRoundGuard.zeroIfTooSmall x = x := if_neg (by omega)
    rw [wp_pure, hz, if_neg (by omega)]
    exact ⟨rfl, by omega, ht, abs_le.mpr ⟨by omega, by omega⟩, rfl⟩

/-- **Nineteen digits** are enough for a number of eighteen. -/
theorem normalize_large (hm : x.mantissa ≠ 0) (hm' : x.mantissa ≤ 10 ^ 18) (hb : b ≤ 28000) (he : |x.exponent| ≤ b)
    (hu : 20 ≤ fuel) : wp (normalizePartsToRange fuel mode x (10 ^ 18) (10 ^ 19 - 1))
      (fun z _ => z.negative = x.negative ∧ z.mantissa ≠ 0 ∧ z.mantissa < 2 ^ 64 ∧ |z.exponent| ≤ b + 20 ∧
        (z.mantissa : ℚ) * 10 ^ z.exponent = x.mantissa * 10 ^ x.exponent) ⊥ ⊥ wide := by
  have hlo : minExponent = -32768 := rfl
  have hh : maxExponent = 32768 := rfl
  have hr : maxRep = 9223372036854775807 := rfl
  rw [normalizePartsToRange, if_neg hm, wp_bind]
  refine wp_imp (addDigits_spec (by norm_num) le_rfl hm (by omega) he hu) (fun y _ hy => ?_)
  obtain ⟨j, hj, hy, hge, hlt⟩ := hy
  have hv : (y.mantissa : ℚ) * 10 ^ y.exponent = x.mantissa * 10 ^ x.exponent := by
    rw [hy]
    rw [natCast_mul_zpow, sub_add_cancel]
  have hg : y.negative = x.negative := by rw [hy]
  have hx : |y.exponent| ≤ b + 18 := by
    rw [abs_le] at he ⊢
    rw [hy]
    simp only
    omega
  have hw : y.mantissa < 10 ^ 19 := by
    obtain rfl | hj0 := Nat.eq_zero_or_pos j
    · rw [hy, pow_zero, Nat.mul_one]
      simp only
      omega
    · have := hlt hj0
      omega
  -- a mantissa past the largest `i64` is a multiple of ten
  have ht : maxRep < y.mantissa → y.mantissa % 10 = 0 := by
    intro hp
    have hj0 : j ≠ 0 := by
      rintro rfl
      rw [hy, pow_zero, Nat.mul_one] at hp
      simp only at hp
      omega
    obtain ⟨i, rfl⟩ := Nat.exists_eq_succ_of_ne_zero hj0
    rw [hy]
    rw [pow_succ, ← Nat.mul_assoc, Nat.mul_mod_left]
  have hex := abs_le.mp hx
  have hl (g : IouRoundGuard) : whileLoop (ε := NumberArithmeticError) (σ := Bool) Fault.outOfFuel
      (fun s : IouRoundGuard × NumberParts => decide (10 ^ 19 - 1 < s.2.mantissa)) dropDigitBelowMax fuel (g, y) = pure (g, y) := by
    have hno : decide (10 ^ 19 - 1 < y.mantissa) = false := decide_eq_false (by omega)
    cases fuel <;> simp only [whileLoop, hno, Bool.false_eq_true, if_false]
  have hf {z : NumberParts} (h : z.negative = y.negative ∧ 10 ^ 18 ≤ z.mantissa ∧ z.mantissa < 10 ^ 19 ∧
      |z.exponent| ≤ b + 20 ∧ (z.mantissa : ℚ) * 10 ^ z.exponent = y.mantissa * 10 ^ y.exponent) (wide : Bool) :
      wp (if 2 ^ 64 ≤ z.mantissa then Prog.fail NumberArithmeticError.overflow
        else (pure ⟨z.negative && decide (z.mantissa ≠ 0), z.mantissa, z.exponent⟩ : Work NumberParts))
      (fun z _ => z.negative = x.negative ∧ z.mantissa ≠ 0 ∧ z.mantissa < 2 ^ 64 ∧ |z.exponent| ≤ b + 20 ∧
        (z.mantissa : ℚ) * 10 ^ z.exponent = x.mantissa * 10 ^ x.exponent) ⊥ ⊥ wide := by
    obtain ⟨hn, hz, hz', hze, hq⟩ := h
    rw [if_neg (by omega), decide_eq_true (by omega : z.mantissa ≠ 0), Bool.and_true]
    exact ⟨hn.trans hg, by simp only; omega, by simp only; omega, hze, hq.trans hv⟩
  rw [wp_bind, hl, wp_pure]
  simp only
  rw [if_neg (by omega), wp_bind, dropPastRep, wp_ite]
  refine ⟨fun hp => ?_, fun hp => ?_⟩
  · -- one zero is dropped, and comes back
    have ho := ht hp
    have hd : lastDigit y.mantissa = 0 := by rw [lastDigit, ho]; rfl
    have hem : ArithmeticGuard.push { negative := y.negative } 0 = { negative := y.negative } := by
      simp [ArithmeticGuard.push]
    rw [dropDigitBelowMax, if_neg (by simp only; omega), wp_bind, i32, if_pos (by simp only; omega)]
    simp only [wp_pure, hd, hem]
    rw [wp_bind]
    have hk : ((y.mantissa / 10 : ℕ) : ℚ) * 10 ^ (y.exponent + 1) = y.mantissa * 10 ^ y.exponent := by
      have h := natCast_mul_zpow (K := ℚ) (y.mantissa / 10) 1 y.exponent
      rw [pow_one, Nat.div_mul_cancel (Nat.dvd_of_mod_eq_zero ho)] at h
      exact h.symm
    refine wp_imp (doRoundUp_large (b := b + 19) (round_of_zero sums_new) (by omega)
      (abs_le.mpr ⟨by simp only; omega, by simp only; omega⟩) (by simp only; omega) (by simp only; omega)) (fun z _ hz => ?_)
    obtain ⟨hn, hz, hz', hze, hq⟩ := hz
    exact hf ⟨hn, hz, hz', hze.trans (by omega), hq.trans hk⟩ _
  · rw [wp_pure]
    simp only
    rw [wp_bind]
    refine wp_imp (doRoundUp_large (round_of_zero sums_new) (by omega) hx hw (by omega)) (fun z _ hz => ?_)
    obtain ⟨hn, hz, hz', hze, hq⟩ := hz
    exact hf ⟨hn, hz, hz', hze.trans (by omega), hq⟩ _

/-- **`from_parts`** makes the amount that is shown. -/
theorem fromParts_makes (sc : MantissaScale) (mode : RoundingMode) (wide : Bool) {m : ℤ} (hm : m ≠ 0)
    (hm' : m.natAbs ≤ 10 ^ 18) (he : |e| ≤ 28000) (hf : 20 ≤ fuel) : wp (fromParts fuel sc mode m e)
      (fun r _ => Makes (decide (m < 0)) (shown mode (decide (m < 0)) (m.natAbs * 10 ^ e)) r)
      (fun err _ => err = .overflow ∧ limit ≤ shown mode (decide (m < 0)) (m.natAbs * 10 ^ e)) ⊥ wide := by
  have hx : NumberParts.externalToInternalMantissa (Int64.ofInt m) = m.natAbs := by
    rw [externalToInternalMantissa_eq, Int64.toInt_ofInt_of_le (by omega) (by omega)]
  rw [fromParts, if_neg hm, runtimeNumberFromExternalParts, hx, wp_bind]
  by_cases hs : sc = .small
  · subst hs
    refine wp_noError (normalize_shows (x := ⟨decide (m < 0), m.natAbs, e⟩) (by simp only; omega) (by simp only; omega)
      (by norm_num) he hf) (fun z wide' hz => ?_)
    obtain ⟨hz, hze⟩ := hz
    have hz0 : 0 < z.mantissa := by
      have := hz.ge
      omega
    have hz6 : z.mantissa < 2 ^ 64 := by
      have := hz.lt
      omega
    have hi : shown mode z.negative (z.mantissa * 10 ^ z.exponent) = shown mode (decide (m < 0)) (m.natAbs * 10 ^ e) := by
      rw [shown_of_digits hz0 hz.lt.le, hz.eq]
    have h := fromNumber_makes mode wide' hz0.ne' hz6 (hze.trans (by norm_num)) hf
    rw [hi, hz.negative] at h
    exact h
  · obtain ⟨hmi, ha⟩ := mantissaRange_large hs
    rw [hmi, ha]
    refine wp_noError (normalize_large (x := ⟨decide (m < 0), m.natAbs, e⟩) (by simp only; omega) hm' le_rfl he hf)
      (fun z wide' hz => ?_)
    obtain ⟨hn, hz0, hz6, hp, hv⟩ := hz
    have h := fromNumber_makes mode wide' hz0 hz6 (hp.trans (by norm_num)) hf
    rw [hv, hn] at h
    exact h

end Xrpld.Protocol
