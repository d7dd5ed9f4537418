import Xrpld.Protocol.Canonicalize
import Xrpld.Protocol.RatioDirection

/-!
# Amounts times an integer

`*` and `/` of an `IOUAmount` by an `i64`, and of an `STAmount` by a `u64`
(`iou_amount.rs`, `st_amount.rs`), against the exact product and the exact quotient.

## The model

`Close` says that a result is at most one unit in the last place of the exact number away from it; below
the smallest amount the unit is that amount, which is the distance of the amounts there.

## What is proved

A whole amount is multiplied exactly and divided with an error below one. For an issued amount the
factor is cut to 32 bits, so that from `2 ^ 32` on the result is far away; below that it is close, unless
the digits are rounded up twice, once by `from_parts` and once by `mul_ratio` (`scaling_iff`).
-/

namespace Xrpld.Protocol

open Number Decimal Nat Bool IOUAmount Int

variable {ε : Type} {mode : RoundingMode} {sc : MantissaScale} {wide neg aw : Bool} {fuel n : ℕ} {v x y : ℚ} {e : ℤ}
  {a r : IOUAmount}

/-! ### Units -/

variable {k : UInt64} {E : ε → Bool → Prop} {P : ℚ → Prop} {z : ℤ}

/-- The unit in the last place of a magnitude. -/
def ulp (x : ℚ) : ℚ := if x < smallest then smallest else place 16 x

/-- **A result is close to the exact number.** -/
def Close (exact got : ℚ) : Prop := |got - exact| ≤ ulp |exact|

/-- The digits are rounded up twice: by the mode, and because digits were left over. -/
def Twice (mode : RoundingMode) (negative away : Bool) (x : ℚ) : Prop := away = true ∧ cut 18 x ≠ x ∧ Rises mode negative x

theorem place_le (hx : 0 < x) : place 16 x * 10 ^ 15 ≤ x := by
  obtain ⟨n, e, h⟩ := exists_sixteen hx
  have hn : (10 : ℚ) ^ 15 ≤ n := by exact_mod_cast h.ge
  rw [h.place, mul_comm]
  exact (mul_le_mul_of_nonneg_right hn (ten_zpow_pos e).le).trans h.le_self

/-- The rounded number and the step after it. -/
theorem shown_le (mode : RoundingMode) (neg : Bool) (hx : 0 < x) :
    cut 16 x ≤ shown mode neg (cut 18 x) ∧ shown mode neg (cut 18 x) ≤ x + place 16 x := by
  obtain ⟨n, e, h⟩ := exists_sixteen hx
  have ht := ten_zpow_pos (K := ℚ) e
  have hl := h.le_self
  rw [shown_cut mode neg hx, h.digits, h.place, h.cut_eq]
  split_ifs
  · push_cast
    constructor <;> linarith
  · rw [add_zero]
    constructor <;> linarith

theorem place_shown_le (mode : RoundingMode) (neg : Bool) (hx : 0 < x) :
    place 16 (shown mode neg (cut 18 x)) ≤ 10 * place 16 x := by
  obtain ⟨n, e, h⟩ := exists_sixteen hx
  have hg := h.ge
  have hl := h.lt
  have ht := ten_zpow_pos (K := ℚ) e
  rw [shown_cut mode neg hx, h.digits, h.place]
  have hu {m : ℕ} (hm : 10 ^ 15 ≤ m) (hm' : m ≤ 10 ^ 16) : place 16 ((m : ℚ) * 10 ^ e) ≤ 10 * 10 ^ e := by
    rcases lt_or_ge m (10 ^ 16) with h' | h'
    · rw [place_unit hm h']
      linarith
    · rw [show m = 10 ^ 16 by omega, place_top, ten_zpow_succ]
      exact (mul_comm _ _).le
  split_ifs
  · exact hu (by omega) (by omega)
  · exact hu (by omega) (by omega)

/-- A ratio is not far above the exact one. -/
theorem ratio_le (mode : RoundingMode) (neg aw : Bool) (hx : 0 < x) :
    ratio mode neg aw x ≤ max smallest (x + 11 * place 16 x) := by
  have hs := (shown_le mode neg hx).2
  have hl := place_shown_le mode neg hx
  have hp := place_pos (K := ℚ) (d := 16) (x := x)
  rw [ratio]
  split_ifs
  · rw [nextUnit]
    split_ifs
    · exact le_max_left _ _
    · exact le_max_of_le_right (by linarith)
  · exact le_max_of_le_right (by linarith)

/-- A ratio is not below the digits of the exact one. -/
theorem cut_le_ratio (mode : RoundingMode) (neg aw : Bool) (hx : 0 < x) : cut 16 x ≤ ratio mode neg aw x := by
  have hs := (shown_le mode neg hx).1
  rw [ratio]
  split_ifs
  · refine hs.trans ?_
    rw [nextUnit]
    split_ifs with h
    · exact h.le
    · exact le_add_of_nonneg_right place_pos.le
  · exact hs

/-- **When a ratio is close**: when it is not rounded up twice. -/
theorem ratio_close_iff (mode : RoundingMode) (neg aw : Bool) (hx : smallest ≤ x) :
    |ratio mode neg aw x - x| ≤ place 16 x ↔ ¬ Twice mode neg aw x := by
  have hp := smallest_pos.trans_le hx
  have hv := smallest_le_shown mode neg hx
  obtain ⟨n, e, h⟩ := exists_sixteen hp
  have he := h.le_self
  have ht := h.self_lt
  have hg := h.ge
  have hl := h.lt
  have hw := shown_cut mode neg hp
  rw [h.digits, h.place] at hw
  rw [ratio, Twice, h.place, abs_le]
  by_cases hs : cut 18 x ≠ x ∧ aw
  · rw [if_pos hs, nextUnit, if_neg (not_lt.mpr hv), hw]
    by_cases hr : Rises mode neg x
    · -- two units, or more at a power of ten
      rw [if_pos hr]
      refine iff_of_false (fun hc => ?_) (fun hn => hn ⟨hs.2, hs.1, hr⟩)
      have hpl : (10 : ℚ) ^ e ≤ place 16 (((n + 1 : ℕ) : ℚ) * 10 ^ e) := by
        rcases lt_or_ge (n + 1) (10 ^ 16) with h' | h'
        · rw [place_unit (by omega) h']
        · rw [show n + 1 = 10 ^ 16 by omega, place_top]
          exact zpow_mono (by omega)
      push_cast at hc hpl
      linarith [hc.2]
    · rw [if_neg hr, add_zero, place_unit hg hl]
      exact iff_of_true ⟨by linarith, by linarith⟩ (fun hn => hr hn.2.2)
  · rw [if_neg hs, hw]
    refine iff_of_true ?_ (fun hn => hs ⟨hn.2.1, hn.1⟩)
    split_ifs
    · push_cast
      exact ⟨by linarith, by linarith⟩
    · rw [add_zero]
      exact ⟨by linarith, by linarith⟩

theorem abs_signed_sub (neg : Bool) (x y : ℚ) : |signed neg x - signed neg y| = |x - y| := by
  cases neg
  · rfl
  · rw [signed, signed, if_pos rfl, if_pos rfl, neg_sub_neg, abs_sub_comm]

theorem abs_signed (neg : Bool) (hx : 0 ≤ x) : |signed neg x| = x := by
  cases neg
  · exact abs_of_nonneg hx
  · rw [signed, if_pos rfl, abs_neg, abs_of_nonneg hx]

theorem value_eq_zero (hm : a.mantissa = 0) : a.value = 0 := by rw [IOUAmount.value, hm, Int.cast_zero, zero_mul]

theorem value_new : new.value = 0 := value_eq_zero rfl

theorem Makes.value_eq (h : Makes neg v r) (hv : smallest ≤ v) : r.value = signed neg v := by
  obtain ⟨ht, -⟩ | ⟨-, -, -, -, hl⟩ := h
  · exact absurd hv (not_le.mpr ht)
  · exact hl

theorem smallest_le_ratio (mode : RoundingMode) (neg aw : Bool) (hx : smallest ≤ x) : smallest ≤ ratio mode neg aw x := by
  have hv := smallest_le_shown mode neg hx
  rw [ratio]
  split_ifs
  · exact smallest_le_nextUnit hv
  · exact hv

/-- **A ratio of the right factor** is close, unless it is rounded up twice. -/
theorem close_iff (hx : 0 < x) (hr : Makes neg (ratio mode neg aw x) r) :
    Close (signed neg x) r.value ↔ x < smallest ∨ ¬ Twice mode neg aw x := by
  rw [Close, abs_signed neg hx.le, ulp]
  by_cases hs : x < smallest
  · rw [if_pos hs]
    refine iff_of_true ?_ (.inl hs)
    obtain ⟨-, rfl⟩ | ⟨hg, -, -, -, hv⟩ := hr
    · rw [value_new, zero_sub, abs_neg, abs_signed neg hx.le]
      exact hs.le
    · have hl := ratio_le mode neg aw hx
      have hp := place_le hx
      rw [hv, abs_signed_sub, abs_of_nonneg (by linarith), sub_le_iff_le_add]
      rcases max_cases smallest (x + 11 * place 16 x) with ⟨h, -⟩ | ⟨h, -⟩
      · linarith
      · linarith
  · rw [if_neg hs, or_iff_right hs]
    have hg := not_lt.mp hs
    rw [hr.value_eq (smallest_le_ratio mode neg aw hg), abs_signed_sub]
    exact ratio_close_iff mode neg aw hg

/-- A ratio of a factor that is at most half of the right one is not close. -/
theorem not_close_of_small (hx : smallest ≤ x) (hy : 2 * x ≤ y) (hr : Makes neg (ratio mode neg aw x) r) :
    ¬ Close (signed neg y) r.value := by
  have hx0 := smallest_pos.trans_le hx
  have hy0 : 0 < y := by linarith
  have hl := place_le hx0
  have hp := place_le hy0
  have he : ratio mode neg aw x ≤ x + 11 * place 16 x := by
    refine (ratio_le mode neg aw hx0).trans (max_le (hx.trans ?_) le_rfl)
    exact le_add_of_nonneg_right (mul_nonneg (by norm_num) place_pos.le)
  rw [Close, abs_signed neg hy0.le, ulp, if_neg (not_lt.mpr (by linarith)), not_le,
    hr.value_eq (smallest_le_ratio mode neg aw hx), abs_signed_sub, abs_sub_comm, abs_of_nonneg (by linarith)]
  linarith

/-- A ratio of a divisor that is at most half of the right one is not close. -/
theorem not_close_of_large (hy : smallest ≤ y) (hx : 2 * y ≤ x) (hr : Makes neg (ratio mode neg aw x) r) :
    ¬ Close (signed neg y) r.value := by
  have hy0 := smallest_pos.trans_le hy
  have hx0 : 0 < x := by linarith
  have hl := place_le hx0
  have hp := place_le hy0
  have hg := cut_le_ratio mode neg aw hx0
  have hc := lt_cut_add x 16
  rw [Close, abs_signed neg hy0.le, ulp, if_neg (not_lt.mpr hy), not_le,
    hr.value_eq (smallest_le_ratio mode neg aw (by linarith)), abs_signed_sub, abs_of_nonneg (by linarith)]
  linarith

/-- Below the smallest amount a ratio of a wrong divisor may be close. -/
theorem close_tiny_iff (hy : 0 < y) (hy' : y < smallest) (hr : Makes neg (ratio mode neg aw x) r) :
    Close (signed neg y) r.value ↔ ratio mode neg aw x ≤ smallest + y := by
  rw [Close, abs_signed neg hy.le, ulp, if_pos hy']
  obtain ⟨hl, rfl⟩ | ⟨hg, -, -, -, hv⟩ := hr
  · rw [value_new, zero_sub, abs_neg, abs_signed neg hy.le]
    exact iff_of_true hy'.le (by linarith)
  · rw [hv, abs_signed_sub, abs_of_nonneg (by linarith), sub_le_iff_le_add]

/-! ### Issued amounts -/

/-- The direction that `*` and `/` ask for. -/
def awayOf (mode : RoundingMode) (a : IOUAmount) : Bool := decide (mode = .upward) ^^ decide (a.mantissa < 0)

/-- **When a product is close.** -/
def MulKept (mode : RoundingMode) (a : IOUAmount) (n : ℕ) : Prop :=
  a.mantissa = 0 ∨ (n < 2 ^ 32 ∧ (exactRatio a n 1 < smallest ∨
    ¬ Twice mode (decide (a.mantissa < 0)) (awayOf mode a) (exactRatio a n 1)))

/-- **When a quotient is close.** -/
def DivKept (mode : RoundingMode) (a : IOUAmount) (n : ℕ) : Prop :=
  a.mantissa = 0 ∨
    if n < 2 ^ 32 then
      exactRatio a 1 n < smallest ∨ ¬ Twice mode (decide (a.mantissa < 0)) (awayOf mode a) (exactRatio a 1 n)
    else exactRatio a 1 n < smallest ∧
      ratio mode (decide (a.mantissa < 0)) (awayOf mode a) (exactRatio a 1 (n % 2 ^ 32)) ≤ smallest + exactRatio a 1 n

/-- The panics of an overflow. -/
def overflowPanics : List Fault :=
  [.overflow, .expect "IOUAmount multiplication overflow: Overflow", .expect "IOUAmount division overflow: Overflow",
    .expect "multiplier should fit i64: TryFromIntError(())", .expect "divisor should fit i64: TryFromIntError(())",
    .assertion "Native currency amount out of range", .assertion "MPT amount out of range"]

theorem exactRatio_mul (a : IOUAmount) (n : ℕ) : exactRatio a n 1 = |a.value| * n := by
  have h := abs_exactRatio a n 1
  rw [Nat.cast_one, div_one, abs_mul, Nat.abs_cast] at h
  exact h.symm

theorem exactRatio_div (a : IOUAmount) (n : ℕ) : exactRatio a 1 n = |a.value| / n := by
  have h := abs_exactRatio a 1 n
  rw [Nat.cast_one, mul_one, abs_div, Nat.abs_cast] at h
  exact h.symm

theorem smallest_le_abs (ha : a.Normal) (hm : a.mantissa ≠ 0) : smallest ≤ |a.value| := by
  obtain rfl | ⟨hge, hl, he, he'⟩ := ha
  · exact absurd rfl hm
  have hg : (10 : ℚ) ^ 15 ≤ a.mantissa.natAbs := by exact_mod_cast hge
  rw [value_eq_signed, abs_signed _ (mul_nonneg (Nat.cast_nonneg _) (Decimal.ten_zpow_pos _).le)]
  exact mul_le_mul hg (zpow_mono he) (Decimal.ten_zpow_pos _).le (Nat.cast_nonneg _)

variable {F : Fault → Prop}

/-- The result of a ratio function gets the sign of the factor. -/
theorem wp_withSignOf {k : ℤ} (hr : r.Normal) (h : P (if k < 0 then -r.value else r.value)) :
    wp (withSignOf k r) (fun r' _ => P r'.value ∧ r'.Normal) E F wide := by
  rw [withSignOf, wp_ite]
  refine ⟨fun hk => ?_, fun hk => ?_⟩
  · rw [if_pos hk] at h
    rw [neg, wp_ite]
    refine ⟨fun hz => ?_, fun hz => ?_⟩
    · have hm : r.mantissa = 0 := of_decide_eq_true hz
      have hv := value_eq_zero hm
      rw [hv, neg_zero, ← hv] at h
      exact ⟨h, hr⟩
    · obtain rfl | ⟨hg, hl, he, he'⟩ := hr
      · exact absurd rfl hz
      rw [wp_bind, i64, if_pos (by omega), wp_pure, wp_pure]
      refine ⟨?_, .inr ⟨by simpa using hg, by simpa using hl, he, he'⟩⟩
      rw [value]
      push_cast
      rwa [neg_mul]
  · rw [if_neg hk] at h
    exact ⟨h, hr⟩

theorem Makes.normal (h : Makes neg v r) : r.Normal := by
  obtain ⟨-, rfl⟩ | ⟨-, -, hn, -⟩ := h
  · exact .inl rfl
  · exact hn

theorem close_neg : Close (-x) (-y) ↔ Close x y := by
  rw [Close, Close, abs_neg, neg_sub_neg, abs_sub_comm]

theorem close_self (x : ℚ) : Close x x := by
  rw [Close, sub_self, abs_zero, ulp]
  split_ifs
  · exact smallest_pos.le
  · exact place_pos.le

theorem not_close_zero (hx : smallest ≤ |x|) : ¬ Close x 0 := by
  have hp := smallest_pos.trans_le hx
  have hl := place_le hp
  rw [Close, ulp, if_neg (not_lt.mpr hx), zero_sub, abs_neg, not_le]
  linarith

theorem cast_eq_natAbs (k : ℤ) : (k : ℚ) = if k < 0 then -(k.natAbs : ℚ) else k.natAbs := by
  rw [cast_natAbs]
  split_ifs with hk
  · rw [abs_of_neg hk, cast_neg, neg_neg]
  · rw [abs_of_nonneg (not_lt.mp hk)]

/-- The sign of a factor does not matter. -/
theorem close_mul_sign (k : ℤ) : Close (x * k) (if k < 0 then -y else y) ↔ Close (x * k.natAbs) y := by
  rw [cast_eq_natAbs k]
  split_ifs
  · rw [mul_neg, close_neg]
  · rfl

theorem close_div_sign (k : ℤ) : Close (x / k) (if k < 0 then -y else y) ↔ Close (x / k.natAbs) y := by
  rw [cast_eq_natAbs k]
  split_ifs
  · rw [div_neg, close_neg]
  · rfl

theorem toInt_ofInt_toNat (hk : k.toNat < 2 ^ 63) : (Int64.ofInt k.toNat).toInt = k.toNat :=
  Int64.toInt_ofInt_of_le (by omega) (by omega)

theorem toNat_truncated (k : ℕ) : (UInt32.ofNat k).toNat = k % 2 ^ 32 := UInt32.toNat_ofNat'

/-- **Products of issued amounts.** -/
theorem mul_close_iff (sc : MantissaScale) (mode : RoundingMode) (wide : Bool) (ha : a.Normal) (k : Int64)
    (hf : 40 ≤ fuel) : wp (a.mul (ε := ε) fuel sc mode k)
      (fun r _ => (Close (a.value * k.toInt) r.value ↔ MulKept mode a k.toInt.natAbs) ∧ r.Normal) ⊥
      (fun fault => fault = .expect "IOUAmount multiplication overflow: Overflow") wide := by
  rw [mul, wp_bind, wp_orPanic, mulRatio, if_neg (by decide), toNat_truncated]
  generalize hN : k.toInt.natAbs = N
  have ho : (1 : UInt32).toNat = 1 := rfl
  rw [ho]
  have hg {y : ℚ} : Close (a.value * k.toInt) (if k.toInt < 0 then -y else y) ↔ Close (a.value * N) y := by
    rw [← hN]
    exact close_mul_sign _
  by_cases hz : a.mantissa = 0 ∨ N % 2 ^ 32 = 0
  · -- the result is zero
    rw [mulRatioOf_zero ha hz one_pos (by norm_num) hf, wp_pure]
    refine wp_withSignOf (P := fun v => Close (a.value * k.toInt) v ↔ MulKept mode a N) (.inl rfl) ?_
    rw [hg, value_new]
    by_cases hm : a.mantissa = 0
    · rw [value_eq_zero hm, zero_mul]
      exact iff_of_true (close_self 0) (.inl hm)
    · have hd := hz.resolve_left hm
      obtain rfl | hN0 := Nat.eq_zero_or_pos N
      · rw [Nat.cast_zero, mul_zero]
        refine iff_of_true (close_self 0) (.inr ⟨by norm_num, .inl ?_⟩)
        rw [exactRatio_mul, Nat.cast_zero, mul_zero]
        exact smallest_pos
      · refine iff_of_false (not_close_zero ?_) (not_or.mpr ⟨hm, fun h => ?_⟩)
        · rw [abs_mul, abs_cast]
          exact (smallest_le_abs ha hm).trans (le_mul_of_one_le_right (abs_nonneg _) (by exact_mod_cast hN0))
        · rw [mod_eq_of_lt h.1] at hd
          omega
  · obtain ⟨hm, hd⟩ := not_or.mp hz
    have hb := smallest_le_abs ha hm
    have hx : a.value * N = signed (decide (a.mantissa < 0)) (exactRatio a N 1) := by
      have h := exactRatio_eq a N 1
      rwa [Nat.cast_one, div_one] at h
    refine wp_mono (mulRatioOf_makes ha hm (pos_of_ne_zero hd) (mod_lt _ (by norm_num)) one_pos (by norm_num) hf)
      (fun r _ hr => ?_) (fun err _ he => by rw [he.1]; rfl) fun _ h => h.elim
    refine wp_withSignOf (P := fun v => Close (a.value * k.toInt) v ↔ MulKept mode a N) hr.normal ?_
    rw [hg, hx]
    by_cases hs : N < 2 ^ 32
    · rw [mod_eq_of_lt hs] at hr
      have hp : 0 < exactRatio a N 1 := by
        rw [exactRatio_mul]
        refine mul_pos (smallest_pos.trans_le hb) ?_
        exact_mod_cast (by omega : 0 < N)
      rw [close_iff hp hr, MulKept, or_iff_right hm, and_iff_right hs]
      rfl
    · refine iff_of_false ?_ (not_or.mpr ⟨hm, fun h => hs h.1⟩)
      refine not_close_of_small ?_ ?_ hr
      · rw [exactRatio_mul]
        exact hb.trans (le_mul_of_one_le_right (abs_nonneg _) (by exact_mod_cast pos_of_ne_zero hd))
      · rw [exactRatio_mul, exactRatio_mul]
        have ht : 2 * ((N % 2 ^ 32 : ℕ) : ℚ) ≤ N := by exact_mod_cast (by omega : 2 * (N % 2 ^ 32) ≤ N)
        calc 2 * (|a.value| * ((N % 2 ^ 32 : ℕ) : ℚ)) = |a.value| * (2 * ((N % 2 ^ 32 : ℕ) : ℚ)) := by ring
          _ ≤ |a.value| * N := mul_le_mul_of_nonneg_left ht (abs_nonneg _)

/-- **Quotients of issued amounts.** -/
theorem div_close_iff (sc : MantissaScale) (mode : RoundingMode) (wide : Bool) (ha : a.Normal) (k : Int64)
    (hk : k.toInt.natAbs % 2 ^ 32 ≠ 0) (hf : 40 ≤ fuel) : wp (a.div (ε := ε) fuel sc mode k)
      (fun r _ => (Close (a.value / k.toInt) r.value ↔ DivKept mode a k.toInt.natAbs) ∧ r.Normal) ⊥
      (fun fault => fault = .expect "IOUAmount division overflow: Overflow") wide := by
  have hn : UInt32.ofNat k.toInt.natAbs ≠ 0 := fun h => hk (by rw [← toNat_truncated, h]; rfl)
  rw [div, wp_bind, wp_orPanic, mulRatio, if_neg hn, toNat_truncated]
  generalize hN : k.toInt.natAbs = N at hk
  have ho : (1 : UInt32).toNat = 1 := rfl
  rw [ho]
  have hg {y : ℚ} : Close (a.value / k.toInt) (if k.toInt < 0 then -y else y) ↔ Close (a.value / N) y := by
    rw [← hN]
    exact close_div_sign _
  have hN0 : (0 : ℚ) < N := by
    refine cast_pos.mpr (pos_of_ne_zero fun h => hk ?_)
    rw [h, zero_mod]
  have hd := mod_lt N (y := 2 ^ 32) (by norm_num)
  by_cases hm : a.mantissa = 0
  · rw [mulRatioOf_zero ha (.inl hm) (pos_of_ne_zero hk) hd hf, wp_pure]
    refine wp_withSignOf (P := fun v => Close (a.value / k.toInt) v ↔ DivKept mode a N) (.inl rfl) ?_
    rw [hg, value_new, value_eq_zero hm, zero_div]
    exact iff_of_true (close_self 0) (.inl hm)
  · have hb := smallest_le_abs ha hm
    have hp := smallest_pos.trans_le hb
    have hx : a.value / N = signed (decide (a.mantissa < 0)) (exactRatio a 1 N) := by
      have h := exactRatio_eq a 1 N
      rwa [Nat.cast_one, mul_one] at h
    have hy : 0 < exactRatio a 1 N := by
      rw [exactRatio_div]
      exact div_pos hp hN0
    refine wp_mono (mulRatioOf_makes ha hm one_pos (by norm_num) (pos_of_ne_zero hk) hd hf)
      (fun r _ hr => ?_) (fun err _ he => by rw [he.1]; rfl) fun _ h => h.elim
    refine wp_withSignOf (P := fun v => Close (a.value / k.toInt) v ↔ DivKept mode a N) hr.normal ?_
    rw [hg, hx, DivKept, or_iff_right hm]
    by_cases hs : N < 2 ^ 32
    · rw [mod_eq_of_lt hs] at hr
      rw [close_iff hy hr, if_pos hs]
      rfl
    · rw [if_neg hs]
      by_cases ht : exactRatio a 1 N < smallest
      · rw [close_tiny_iff hy ht hr, and_iff_right ht]
        rfl
      · refine iff_of_false ?_ (fun h => ht h.1)
        refine not_close_of_large (not_lt.mp ht) ?_ hr
        rw [exactRatio_div, exactRatio_div, ← mul_div_assoc, div_le_div_iff₀ hN0 (by exact_mod_cast pos_of_ne_zero hk)]
        have hw : 2 * ((N % 2 ^ 32 : ℕ) : ℚ) ≤ N := by exact_mod_cast (by omega : 2 * (N % 2 ^ 32) ≤ N)
        calc 2 * |a.value| * ((N % 2 ^ 32 : ℕ) : ℚ) = |a.value| * (2 * ((N % 2 ^ 32 : ℕ) : ℚ)) := by ring
          _ ≤ |a.value| * N := mul_le_mul_of_nonneg_left hw (abs_nonneg _)

/-- A divisor that is cut to zero. -/
theorem div_of_cut (a : IOUAmount) (k : Int64) (hk : k.toInt.natAbs % 2 ^ 32 = 0) :
    a.div (ε := ε) fuel sc mode k = abort (.expect "IOUAmount division overflow: DivideByZero") := by
  have hz : UInt32.ofNat k.toInt.natAbs = 0 := UInt32.toNat_inj.mp (by rw [toNat_truncated, hk]; rfl)
  rw [div, hz]
  rfl

/-! ### Amounts of every kind -/

namespace STAmount

variable {a : STAmount} {msg : String}

theorem number_withWhole (h : n < 2 ^ 64) : (a.withWhole n).number = signed a.isNegative n := by
  rw [number, withWhole]
  simp only [UInt64.toNat_ofNat', mod_eq_of_lt h, zpow_zero, mul_one, signed]
  by_cases hn : n = 0
  · simp [hn]
  · simp [hn]

/-- An amount made of an `i64` is that number. -/
theorem fromI64_number {field : SField} {ast : Asset} (ha : ast.integral) (hz : -2 ^ 63 ≤ z)
    (hz' : z < 2 ^ 63) (hf : 40 ≤ fuel) : wp (fromI64 (ε := ε) fuel mode field ast z) (fun b _ => b.number = z) ⊥
      (fun fault => fault ∈ overflowPanics) wide := by
  have hl : z.natAbs < 2 ^ 64 := by omega
  have ht : (UInt64.ofNat z.natAbs).toNat = z.natAbs := by rw [UInt64.toNat_ofNat', mod_eq_of_lt hl]
  rw [fromI64, canonicalize, wp_orPanicText]
  by_cases hze : z = 0
  · subst hze
    rw [tryCanonicalize_zero (a := ⟨field, ast, UInt64.ofNat (natAbs 0), 0, decide ((0 : ℤ) < 0)⟩) ha (.inl rfl),
      wp_pure, number]
    simp [signed]
  · have hv : UInt64.ofNat z.natAbs ≠ 0 := fun h => by
      rw [← UInt64.toNat_inj, ht] at h
      exact hze (natAbs_eq_zero.mp h)
    refine wp_mono (tryCanonicalize_whole (a := ⟨field, ast, UInt64.ofNat z.natAbs, 0, decide (z < 0)⟩) ha hv
      (by norm_num) hf) (fun b _ hb => ?_) (fun err _ he => ?_) fun _ h => h.elim
    · obtain ⟨-, -, rfl⟩ := hb
      have hr : (⟨field, ast, UInt64.ofNat z.natAbs, 0, decide (z < 0)⟩ : STAmount).rounded mode = z.natAbs := by
        rw [rounded]
        simp only [ht, zpow_zero, mul_one]
        exact whole_natCast
      rw [hr, number_withWhole hl, signed]
      simp only [decide_eq_true_iff]
      split_ifs with hn
      · rw [cast_natAbs, abs_of_neg hn, cast_neg, neg_neg]
      · rw [cast_natAbs, abs_of_nonneg (not_lt.mp hn)]
    · rw [he.1, wholeError]
      split_ifs <;> simp [AmountError.text, overflowPanics]

/-- The value of a whole canonical amount as an `i64`. -/
theorem signedValue_canonical {Q : ℤ → Bool → Prop} (h : a.Canonical) (hi : a.integral)
    (hQ : ∀ z : ℤ, (z : ℚ) = a.number → |z| < 2 ^ 63 → Q z wide) :
    wp (a.signedValue msg) Q E F wide := by
  have hp : a.offset = 0 ∧ a.value.toNat < 2 ^ 63 := by
    rw [Canonical] at h
    have ha : maxMpTokenAmount = 2 ^ 63 - 1 := rfl
    have ht : stAmountMaxNativeNetwork = 10 ^ 17 := rfl
    rw [integral, Asset.integral_eq, or_eq_true] at hi
    split_ifs at h with hna hm
    · exact ⟨h.1, by omega⟩
    · exact ⟨h.1, by omega⟩
    · exact absurd hi (not_or.mpr ⟨hna, hm⟩)
  have hn : a.number = signed a.isNegative a.value.toNat := by rw [number, hp.1, zpow_zero, mul_one]
  rw [signedValue, wp_bind, wp_fitI64]
  refine ⟨fun hl => ?_, fun hg => absurd hp.2 (not_lt.mpr hg)⟩
  rw [wp_ite]
  refine ⟨fun he => ?_, fun he => ?_⟩
  · rw [i64, if_pos (by omega), wp_pure]
    refine hQ _ ?_ (abs_lt.mpr ⟨by omega, by omega⟩)
    rw [hn, signed, if_pos he]
    rfl
  · refine hQ _ ?_ (abs_lt.mpr ⟨by omega, by omega⟩)
    rw [hn, signed, if_neg he]
    rfl

variable {iss : IOUAmount → Int64 → Calc ε IOUAmount} {whole : ℤ → ℤ → Calc ε ℤ}

/-- The scaling of a whole amount. -/
theorem scaleBy_whole (h : a.Canonical) (hi : a.integral)
    (hs : .expect (msg ++ ": TryFromIntError(())") ∈ overflowPanics)
    (hw : ∀ z : ℤ, (z : ℚ) = a.number → |z| < 2 ^ 63 → wp (whole z k.toNat)
      (fun p _ => P p ∧ -2 ^ 63 ≤ p ∧ p < 2 ^ 63) ⊥ (fun fault => fault ∈ overflowPanics) wide) (hu : 40 ≤ fuel) :
    wp (a.scaleBy fuel sc mode msg whole iss k) (fun b _ => P b.number) ⊥ (fun fault => fault ∈ overflowPanics) wide := by
  have ht {z : ℤ} {f : ℤ → Calc ε STAmount} (hz : (z : ℚ) = a.number) (hz' : |z| < 2 ^ 63)
      (hf : ∀ p : ℤ, -2 ^ 63 ≤ p → p < 2 ^ 63 → ∀ wide, wp (f p) (fun b _ => b.number = p) ⊥
        (fun fault => fault ∈ overflowPanics) wide) :
      wp (do
        let rhs ← fitI64 msg k
        let p ← whole z rhs
        f p) (fun b _ => P b.number) ⊥ (fun fault => fault ∈ overflowPanics) wide := by
    rw [wp_bind, wp_fitI64]
    refine ⟨fun _ => ?_, fun _ => hs⟩
    rw [wp_bind]
    refine wp_imp (hw z hz hz') (fun p wide' hp => ?_)
    exact wp_imp (hf p hp.2.1 hp.2.2 wide') (fun b _ hb => hb ▸ hp.1)
  rw [scaleBy]
  by_cases hn : a.native
  · rw [if_pos hn, wp_bind, xrp, if_neg (by simp [hn])]
    exact signedValue_canonical h hi fun z hz hz' => ht hz hz' fun p hp hp' _ => fromI64_number rfl hp hp' hu
  · rw [if_neg hn]
    have hm : a.asset.holdsMptIssue := by
      rw [integral, Asset.integral_eq, or_eq_true] at hi
      exact hi.resolve_left hn
    cases ha : a.asset with
    | issue i => exact absurd hm (by rw [ha]; exact false_ne_true)
    | mptIssue i =>
      rw [wp_bind, mpt, if_neg (by simp [holdsMptIssue, hm])]
      exact signedValue_canonical h hi fun z hz hz' => ht hz hz' fun p hp hp' _ => fromI64_number rfl hp hp' hu

/-- The scaling of an issued amount. -/
theorem scaleBy_issued (h : a.Canonical) (hn : a.integral = false)
    (hm : 2 ^ 63 ≤ k.toNat → F (.expect (msg ++ ": TryFromIntError(())")))
    (hs : ∀ wide, k.toNat < 2 ^ 63 → wp (iss a.asIou (Int64.ofInt k.toNat))
      (fun r _ => P r.value ∧ r.Normal) ⊥ F wide) (hf : 40 ≤ fuel) :
    wp (a.scaleBy fuel sc mode msg whole iss k) (fun b _ => P b.number) ⊥ F wide := by
  have hki := hn
  rw [integral, Asset.integral_eq, Bool.or_eq_false_iff] at hki
  rw [scaleBy, native, hki.1, if_neg Bool.false_ne_true]
  cases ha : a.asset with
  | mptIssue i => exact absurd hki.2 (by rw [ha]; intro h; cases h)
  | issue i =>
    have hi : i.native = false := by
      have := hki.1
      rwa [ha] at this
    rw [wp_bind]
    refine wp_mono (iou_canonical h hn (by omega)) (fun r wide' hr => ?_) (fun _ _ h => h) fun _ h => h.elim
    subst hr
    rw [wp_bind, wp_fitI64]
    refine ⟨fun hk => ?_, hm⟩
    rw [wp_bind]
    refine wp_imp (hs wide' hk) (fun r wide'' hr => ?_)
    exact wp_mono (fromIouAmount_normal hr.2 hi (by omega)) (fun b _ hb => hb ▸ hr.1) (fun _ _ h => h) fun _ h => h.elim

theorem tdiv_close {k : ℤ} (hk : 0 < k) : |((z.tdiv k : ℤ) : ℚ) - z / k| < 1 := by
  have hk' : (0 : ℚ) < k := by exact_mod_cast hk
  have hs : (z : ℚ) = k * (z.tdiv k : ℤ) + (z.tmod k : ℤ) := by exact_mod_cast (mul_tdiv_add_tmod z k).symm
  have hm : |z.tmod k| < k := by
    have := natAbs_tmod z k
    have := mod_lt z.natAbs (y := k.natAbs) (by omega)
    rw [abs_eq_natAbs]
    omega
  have hd : ((z.tdiv k : ℤ) : ℚ) - z / k = -((z.tmod k : ℤ) : ℚ) / k := by
    rw [eq_div_iff hk'.ne', sub_mul, div_mul_cancel₀ _ hk'.ne', hs]
    ring
  rw [hd, abs_div, abs_neg, abs_of_pos hk', div_lt_one hk']
  exact_mod_cast hm

/-- A canonical issued amount as it is. -/
theorem not_twice_self {a : IOUAmount} (ha : a.Normal) (hm : a.mantissa ≠ 0) {x : ℚ} (hx : x = |a.value|) :
    ¬ Twice mode neg aw x := by
  rintro ⟨-, hc, -⟩
  obtain rfl | ⟨hg, hl, -, -⟩ := ha
  · exact hm rfl
  refine hc ?_
  rw [hx, value_eq_signed, abs_signed _ (mul_nonneg (Nat.cast_nonneg _) (Decimal.ten_zpow_pos _).le)]
  exact cut_natCast_mul (by norm_num) (by omega) (by omega)

/-- **Products of amounts of every kind.** -/
theorem mul_close_iff (sc : MantissaScale) (mode : RoundingMode) (wide : Bool) (h : a.Canonical) (k : UInt64)
    (hf : 40 ≤ fuel) : wp (a.mul (ε := ε) fuel sc mode k)
      (fun b _ => if a.integral then b.number = a.number * k.toNat
        else (Close (a.number * k.toNat) b.number ↔ MulKept mode a.asIou k.toNat))
      ⊥ (fun fault => fault ∈ overflowPanics) wide := by
  rw [mul]
  by_cases hn : a.integral
  · simp only [hn, if_true]
    by_cases ho : k = 1
    · rw [if_pos ho, ho]
      simp
    · rw [if_neg ho]
      by_cases he : k = 0
      · rw [if_pos he, he]
        simp [clear, number, signed]
      · rw [if_neg he]
        refine scaleBy_whole (P := fun v => v = a.number * k.toNat) h hn (by simp [overflowPanics]) (fun z hz _ => ?_) hf
        rw [i64, wp_ite]
        refine ⟨fun hr => ⟨?_, hr⟩, fun _ => by simp [overflowPanics]⟩
        rw [← hz]
        push_cast
        rfl
  · have hi : a.integral = false := not_eq_true _ ▸ hn
    have hnm := asIou_normal h hi
    simp only [hn]
    by_cases ho : k = 1
    · rw [if_pos ho, ho, wp_pure]
      have ht : (1 : UInt64).toNat = 1 := rfl
      rw [ht, Nat.cast_one, mul_one]
      refine iff_of_true ?_ ?_
      · exact close_self _
      · by_cases hm : a.asIou.mantissa = 0
        · exact .inl hm
        · exact .inr ⟨by norm_num, .inr (not_twice_self hnm hm (by rw [exactRatio_mul, Nat.cast_one, mul_one]))⟩
    · rw [if_neg ho]
      by_cases he : k = 0
      · rw [if_pos he, he, wp_pure]
        have ht : (0 : UInt64).toNat = 0 := rfl
        have hc : a.clear.number = 0 := by simp [clear, number, signed]
        rw [ht, Nat.cast_zero, mul_zero, hc]
        refine iff_of_true (close_self 0) (.inr ⟨by norm_num, .inl ?_⟩)
        rw [exactRatio_mul, Nat.cast_zero, mul_zero]
        exact smallest_pos
      · rw [if_neg he]
        refine scaleBy_issued (P := fun v => Close (a.number * k.toNat) v ↔ MulKept mode a.asIou k.toNat) h hi
          (fun _ => by simp [overflowPanics]) (fun wide hk => ?_) hf
        have ht := toInt_ofInt_toNat hk
        have hu := Protocol.mul_close_iff (ε := ε) sc mode wide hnm (Int64.ofInt k.toNat) hf
        rw [ht, value_asIou, natAbs_natCast, cast_natCast] at hu
        exact wp_mono hu (fun _ _ h => h) (fun _ _ h => h) fun _ h => by simp [h, overflowPanics]

/-- **Quotients of amounts of every kind.** -/
theorem div_close_iff (sc : MantissaScale) (mode : RoundingMode) (wide : Bool) (h : a.Canonical) (k : UInt64) (hk : k ≠ 0)
    (hc : a.integral ∨ k.toNat % 2 ^ 32 ≠ 0 ∨ 2 ^ 63 ≤ k.toNat) (hf : 40 ≤ fuel) :
    wp (a.div (ε := ε) fuel sc mode k) (fun b _ => if a.integral then |b.number - a.number / k.toNat| < 1
        else (Close (a.number / k.toNat) b.number ↔ DivKept mode a.asIou k.toNat))
      ⊥ (fun fault => fault ∈ overflowPanics) wide := by
  have hk' : 0 < k.toNat := pos_of_ne_zero fun h => hk (UInt64.toNat_inj.mp h)
  rw [div]
  by_cases hn : a.integral
  · simp only [hn, if_true]
    by_cases ho : k = 1
    · rw [if_pos ho, ho]
      simp
    · rw [if_neg ho, if_neg hk]
      refine scaleBy_whole (P := fun v => |v - a.number / k.toNat| < 1) h hn (by simp [overflowPanics]) (fun z hz hz' => ?_) hf
      have hl : |z.tdiv k.toNat| ≤ |z| := by
        rw [abs_eq_natAbs, abs_eq_natAbs, natAbs_tdiv]
        exact_mod_cast div_le_self _ _
      have hb := abs_lt.mp (hl.trans_lt hz')
      rw [divI64, if_neg (by omega), i64, if_pos (by omega), wp_pure, ← hz]
      refine ⟨?_, by omega, by omega⟩
      have := tdiv_close (z := z) (k := k.toNat) (by omega)
      rwa [cast_natCast] at this
  · have hi : a.integral = false := not_eq_true _ ▸ hn
    have hnm := asIou_normal h hi
    simp only [hn]
    by_cases ho : k = 1
    · rw [if_pos ho, ho, wp_pure]
      have ht : (1 : UInt64).toNat = 1 := rfl
      rw [ht, Nat.cast_one, div_one]
      refine iff_of_true ?_ ?_
      · exact close_self _
      · by_cases hm : a.asIou.mantissa = 0
        · exact .inl hm
        · rw [DivKept, if_pos (by norm_num)]
          exact .inr (.inr (not_twice_self hnm hm (by rw [exactRatio_div, Nat.cast_one, div_one])))
    · rw [if_neg ho, if_neg hk]
      refine scaleBy_issued (P := fun v => Close (a.number / k.toNat) v ↔ DivKept mode a.asIou k.toNat) h hi
        (fun _ => by simp [overflowPanics]) (fun wide hk => ?_) hf
      have ht := toInt_ofInt_toNat hk
      have hd := Protocol.div_close_iff (ε := ε) sc mode wide hnm (Int64.ofInt k.toNat)
        (by rw [ht]; exact (hc.resolve_left hn).resolve_right (not_le.mpr hk)) hf
      rw [ht, value_asIou, natAbs_natCast, cast_natCast] at hd
      exact wp_mono hd (fun _ _ h => h) (fun _ _ h => h) fun _ h => by simp [h, overflowPanics]

/-- A divisor that is cut to zero. -/
theorem div_of_cut (h : a.Canonical) (hi : a.integral = false) (k : UInt64) (hk : k ≠ 0) (hl : k.toNat < 2 ^ 63)
    (hc : k.toNat % 2 ^ 32 = 0) (hf : 40 ≤ fuel) : wp (a.div (ε := ε) fuel sc mode k) ⊥ ⊥
      (fun fault => fault = .expect "IOUAmount division overflow: DivideByZero") wide := by
  have ho : k ≠ 1 := by
    rintro rfl
    exact absurd hc (by decide)
  rw [div, if_neg ho, if_neg hk]
  refine scaleBy_issued (P := ⊥) h hi (fun hg => absurd hl (not_lt.mpr hg)) (fun wide _ => ?_) hf
  rw [Protocol.div_of_cut _ _ (by rw [toInt_ofInt_toNat hl, natAbs_natCast, hc])]
  rfl

end STAmount

end Xrpld.Protocol
