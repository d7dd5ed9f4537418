import Xrpld.Basics.NumberGuard

/-!
# Correct rounding

In the scale `Large330` a result is the exact result rounded into the set of normalized numbers.

## What is proved

The exact result is between two neighbours of the grid of all normalized mantissas, with any
exponent (`grid`). The mantissa that a computation arrives at and the fraction that its guard stands
for say between which ones (`between_unit`, `between_cusp`, `between_tens`), and `do_round_up` takes
the one that the mode asks for (`doRoundUp_rounds`).
-/

namespace Xrpld.Number

open Rounding

variable {mode : RoundingMode} {neg wide : Bool} {g : ArithmeticGuard} {x y z : NumberParts} {f a lo hi q r : ℚ} {e : ℤ}
  {m n fuel : ℕ} {S T : Set ℚ}

/-! ### Modes -/

/-- A magnitude and a sign. -/
def signed (negative : Bool) (a : ℚ) : ℚ := if negative then -a else a

theorem value_eq : x.value = signed x.negative (x.mantissa * 10 ^ x.exponent) := by
  rw [NumberParts.value, signed]
  split_ifs <;> ring

/-- **A number rounded into a set** by a mode. -/
def RoundedTo (S : Set ℚ) (mode : RoundingMode) (q r : ℚ) : Prop :=
  match mode with
  | .toNearest => IsNearest S q r
  | .towardsZero => IsTrunc S q r
  | .downward => IsFloor S q r
  | .upward => IsCeil S q r

theorem RoundedTo.mono (h : RoundedTo T mode q r) (hST : S ⊆ T) (hr : r ∈ S) : RoundedTo S mode q r := by
  cases mode with
  | toNearest => exact IsNearest.mono h hST hr
  | towardsZero => exact IsTrunc.mono h hST hr
  | downward => exact IsFloor.mono h hST hr
  | upward => exact IsCeil.mono h hST hr

/-- The mode takes the neighbour that is smaller in magnitude. -/
def MayStay (mode : RoundingMode) (negative : Bool) (lo hi a : ℚ) : Prop :=
  match mode with
  | .toNearest => a - lo ≤ hi - a
  | .towardsZero => True
  | .downward => negative = true → lo = a
  | .upward => negative = false → lo = a

/-- The mode takes the neighbour that is larger in magnitude. -/
def MayRise (mode : RoundingMode) (negative : Bool) (lo hi a : ℚ) : Prop :=
  match mode with
  | .toNearest => hi - a ≤ a - lo
  | .towardsZero => False
  | .downward => negative = true ∧ lo ≠ a
  | .upward => negative = false ∧ lo ≠ a

theorem RoundedTo.of_stay (h : Between S lo hi a) (hn : ∀ s ∈ S, -s ∈ S) (hs : MayStay mode neg lo hi a) :
    RoundedTo S mode (signed neg a) (signed neg lo) := by
  cases neg with
  | false =>
    cases mode with
    | toNearest => exact h.isNearest_lo hs
    | towardsZero => exact h.isTrunc
    | downward => exact h.isFloor
    | upward => exact h.isCeil_lo (hs rfl)
  | true =>
    cases mode with
    | toNearest => exact (h.isNearest_lo hs).neg hn
    | towardsZero => exact h.isTrunc.neg hn
    | downward => exact (h.isCeil_lo (hs rfl)).neg hn
    | upward => exact h.isFloor.neg hn

theorem RoundedTo.of_rise (h : Between S lo hi a) (hn : ∀ s ∈ S, -s ∈ S) (hr : MayRise mode neg lo hi a) :
    RoundedTo S mode (signed neg a) (signed neg hi) := by
  cases neg with
  | false =>
    cases mode with
    | toNearest => exact h.isNearest_hi hr
    | towardsZero => exact hr.elim
    | downward => exact absurd hr.1 Bool.false_ne_true
    | upward => exact h.isCeil_hi hr.2
  | true =>
    cases mode with
    | toNearest => exact (h.isNearest_hi hr).neg hn
    | towardsZero => exact hr.elim
    | downward => exact (h.isCeil_hi hr.2).neg hn
    | upward => exact absurd hr.1.symm Bool.false_ne_true

/-! ### The grid -/

/-- The mantissas of normalized numbers. -/
structure MantissaOk (m : ℕ) : Prop where
  ge : 10 ^ 18 ≤ m
  lt : m < 10 ^ 19
  ends : m ≤ maxRep ∨ m % 10 = 0

/-- Zero, and all normalized mantissas with any sign and any exponent. -/
def grid : Set ℚ := { v | v = 0 ∨ ∃ negative m e, MantissaOk m ∧ v = signed negative ((m : ℚ) * 10 ^ (e : ℤ)) }

theorem neg_mem_grid {s : ℚ} (hs : s ∈ grid) : -s ∈ grid := by
  rcases hs with rfl | ⟨neg, m, e, hm, rfl⟩
  · exact .inl neg_zero
  · refine .inr ⟨!neg, m, e, hm, ?_⟩
    cases neg <;> simp [signed]

theorem mem_grid (hm : MantissaOk m) : (m : ℚ) * 10 ^ e ∈ grid := .inr ⟨false, m, e, hm, rfl⟩

theorem ten_zpow_succ : (10 : ℚ) ^ (e + 1) = 10 ^ e * 10 := zpow_add_one₀ (by norm_num) e

theorem ten_zpow_pos : (0 : ℚ) < 10 ^ e := zpow_pos (by norm_num) e

/-- The first number after all those of an exponent. -/
theorem mem_grid_top : ((10 ^ 19 : ℕ) : ℚ) * 10 ^ e ∈ grid := by
  have ho : MantissaOk (10 ^ 18) := ⟨le_rfl, by norm_num, .inl (by norm_num [maxRep])⟩
  have h := mem_grid (e := e + 1) ho
  rw [ten_zpow_succ] at h
  convert h using 1
  ring

/-- All numbers of an exponent are smaller than those of a larger one. -/
theorem mul_zpow_le {e' : ℤ} (hm : m ≤ 10 ^ 19) (hn : 10 ^ 18 ≤ n) (hl : e < e') : (m : ℚ) * 10 ^ e ≤ n * 10 ^ e' := by
  have hm' : (m : ℚ) ≤ 10 ^ 19 := by exact_mod_cast hm
  have hn' : (10 : ℚ) ^ 18 ≤ n := by exact_mod_cast hn
  have hp : (10 : ℚ) ^ (e + 1) ≤ 10 ^ e' := zpow_le_zpow_right₀ (by norm_num) hl
  calc (m : ℚ) * 10 ^ e ≤ 10 ^ 19 * 10 ^ e := mul_le_mul_of_nonneg_right hm' ten_zpow_pos.le
    _ = 10 ^ 18 * 10 ^ (e + 1) := by
        rw [ten_zpow_succ]
        ring
    _ ≤ n * 10 ^ e' := mul_le_mul hn' hp ten_zpow_pos.le (Nat.cast_nonneg n)

/-- **There is nothing between neighbours**: numbers with another exponent are smaller or larger than
all of this one. -/
theorem grid_gap (hm : 10 ^ 18 ≤ m) (hn : n ≤ 10 ^ 19) (hg : ∀ k, MantissaOk k → k ≤ m ∨ n ≤ k) {s : ℚ} (hs : s ∈ grid) :
    s ≤ m * 10 ^ e ∨ n * 10 ^ e ≤ s := by
  have hp : (0 : ℚ) < 10 ^ e := ten_zpow_pos
  have hm0 : (0 : ℚ) ≤ m * 10 ^ e := by positivity
  rcases hs with rfl | ⟨neg, k, e', hk, rfl⟩
  · exact .inl hm0
  cases neg with
  | true =>
    refine .inl (le_trans ?_ hm0)
    rw [signed, if_pos rfl, neg_nonpos]
    positivity
  | false =>
    rcases lt_trichotomy e' e with hl | rfl | hl
    · exact .inl (mul_zpow_le hk.lt.le hm hl)
    · refine (hg k hk).imp (fun h => ?_) fun h => ?_
      · exact mul_le_mul_of_nonneg_right (by exact_mod_cast h) hp.le
      · exact mul_le_mul_of_nonneg_right (by exact_mod_cast h) hp.le
    · exact .inr (mul_zpow_le hn hk.ge hl)

/-- Neighbours of the grid with one exponent. -/
theorem between_grid (hm : MantissaOk m) (hn : MantissaOk n ∨ n = 10 ^ 19) (hg : ∀ k, MantissaOk k → k ≤ m ∨ n ≤ k)
    (hl : m * 10 ^ e ≤ a) (ht : a < n * 10 ^ e) : Between grid (m * 10 ^ e) (n * 10 ^ e) a := by
  refine ⟨mem_grid hm, ?_, by positivity, hl, ht, fun s hs => grid_gap hm.ge ?_ hg hs⟩
  · rcases hn with hn | rfl
    · exact mem_grid hn
    · exact mem_grid_top
  · rcases hn with hn | rfl
    · exact hn.lt.le
    · exact le_rfl

/-- Up to `i64::MAX` neighbours are one apart. -/
theorem between_unit (hm : 10 ^ 18 ≤ m) (hl : m < maxRep) (hf : 0 ≤ f) (hf1 : f < 1) :
    Between grid (m * 10 ^ e) ((m + 1 : ℕ) * 10 ^ e) ((m + f) * 10 ^ e) := by
  have hp : (0 : ℚ) < 10 ^ e := ten_zpow_pos
  have hr : maxRep < 10 ^ 19 := by decide
  refine between_grid ⟨hm, by omega, .inl hl.le⟩ (.inl ⟨by omega, by omega, .inl hl⟩) (fun k _ => by omega) ?_ ?_
  · exact mul_le_mul_of_nonneg_right (by linarith) hp.le
  · refine mul_lt_mul_of_pos_right ?_ hp
    push_cast
    linarith

/-- Between `i64::MAX` and the next multiple of ten there is nothing. -/
theorem between_cusp (hm : maxRep ≤ m) (ht : m < maxRepUp) (hf : 0 ≤ f) (hf1 : f < 1) :
    Between grid (maxRep * 10 ^ e) (maxRepUp * 10 ^ e) ((m + f) * 10 ^ e) := by
  have hp : (0 : ℚ) < 10 ^ e := ten_zpow_pos
  have hm' : (maxRep : ℚ) ≤ m := by exact_mod_cast hm
  have hl : (m : ℚ) + 1 ≤ maxRepUp := by exact_mod_cast ht
  refine between_grid ⟨by decide, by decide, .inl le_rfl⟩ (.inl ⟨by decide, by decide, .inr (by decide)⟩)
    (fun k hk => ?_) ?_ ?_
  · have := hk.ends
    have hu : maxRepUp = maxRep + 3 := rfl
    have hr : maxRep % 10 = 7 := by decide
    omega
  · exact mul_le_mul_of_nonneg_right (by linarith) hp.le
  · exact mul_lt_mul_of_pos_right (by linarith) hp

/-- From then on neighbours are ten apart, which is one unit of the next exponent. -/
theorem between_tens (hm : maxRepUp ≤ 10 * m) (hl : m < 10 ^ 18) (hf : 0 ≤ f) (hf1 : f < 1) :
    Between grid (m * 10 ^ e) ((m + 1 : ℕ) * 10 ^ e) ((m + f) * 10 ^ e) := by
  have hp : (0 : ℚ) < 10 ^ (e - 1) := ten_zpow_pos
  have hs : (10 : ℚ) ^ e = 10 ^ (e - 1) * 10 := by rw [← ten_zpow_succ, sub_add_cancel]
  have hu : 10 ^ 18 ≤ maxRepUp := by decide
  have h : Between grid ((10 * m : ℕ) * 10 ^ (e - 1)) ((10 * m + 10 : ℕ) * 10 ^ (e - 1)) ((m + f) * 10 ^ e) := by
    refine between_grid ⟨by omega, by omega, .inr (by omega)⟩ ?_ (fun k hk => ?_) ?_ ?_
    · by_cases ht : m + 1 = 10 ^ 18
      · exact .inr (by omega)
      · exact .inl ⟨by omega, by omega, .inr (by omega)⟩
    · have he := hk.ends
      have hr : maxRepUp = maxRep + 3 := rfl
      omega
    · rw [hs]
      push_cast
      nlinarith
    · rw [hs]
      push_cast
      nlinarith
  convert h using 1 <;> (rw [hs]; push_cast; ring)

/-! ### Decisions -/

/-- What the guard decides is what the mode asks for, between neighbours that are one unit apart. -/
theorem mayRise_of_decision (h : decision mode neg f = 1 ∨ decision mode neg f = 0) :
    MayRise mode neg (m * 10 ^ e) ((m + 1 : ℕ) * 10 ^ e) ((m + f) * 10 ^ e) := by
  have hp : (0 : ℚ) < 10 ^ e := ten_zpow_pos
  have hn : f ≠ 0 → (m : ℚ) * 10 ^ e ≠ (m + f) * 10 ^ e := fun hf he => hf (by
    have := mul_right_cancel₀ hp.ne' he
    linarith)
  cases mode with
  | toNearest =>
    have hf : 1 / 2 ≤ f := by
      by_contra hl
      rw [decision, if_neg (by linarith), if_neg (by linarith)] at h
      norm_num at h
    show ((m + 1 : ℕ) : ℚ) * 10 ^ e - (m + f) * 10 ^ e ≤ (m + f) * 10 ^ e - m * 10 ^ e
    push_cast
    nlinarith
  | towardsZero =>
    rw [decision] at h
    norm_num at h
  | downward =>
    by_cases hc : neg ∧ f ≠ 0
    · exact ⟨hc.1, hn hc.2⟩
    · rw [decision, if_neg hc] at h
      norm_num at h
  | upward =>
    by_cases hc : neg = false ∧ f ≠ 0
    · exact ⟨hc.1, hn hc.2⟩
    · rw [decision, if_neg hc] at h
      norm_num at h

theorem mayStay_of_decision (h : decision mode neg f ≠ 1) :
    MayStay mode neg (m * 10 ^ e) ((m + 1 : ℕ) * 10 ^ e) ((m + f) * 10 ^ e) := by
  have hp : (0 : ℚ) < 10 ^ e := ten_zpow_pos
  cases mode with
  | toNearest =>
    have hf : f ≤ 1 / 2 := by
      by_contra hl
      exact h (by rw [decision, if_pos (by linarith)])
    show (m + f) * 10 ^ e - m * 10 ^ e ≤ ((m + 1 : ℕ) : ℚ) * 10 ^ e - (m + f) * 10 ^ e
    push_cast
    nlinarith
  | towardsZero => trivial
  | downward =>
    intro hn
    by_cases hf : f = 0
    · rw [hf, add_zero]
    · exact absurd (by rw [decision, if_pos ⟨hn, hf⟩]) h
  | upward =>
    intro hn
    by_cases hf : f = 0
    · rw [hf, add_zero]
    · exact absurd (by rw [decision, if_pos ⟨hn, hf⟩]) h

/-- What is not rounded up is not rounded up one digit further on. -/
theorem decision_div_ten (hf : f < 1) (h : decision mode neg f ≠ 1) : decision mode neg (f / 10) ≠ 1 := by
  cases mode with
  | toNearest =>
    rw [decision, if_neg (by linarith), if_neg (by linarith)]
    norm_num
  | towardsZero => exact h
  | downward => simpa [decision] using h
  | upward => simpa [decision] using h

/-! ### The end of rounding -/

/-- A digit more does not change the number. -/
theorem value_shift : (⟨neg, m * 10, e - 1⟩ : NumberParts).value = (⟨neg, m, e⟩ : NumberParts).value := by
  have hs : (10 : ℚ) ^ e = 10 ^ (e - 1) * 10 := by rw [← ten_zpow_succ, sub_add_cancel]
  simp only [NumberParts.value]
  rw [hs]
  push_cast
  ring

/-- `bring_into_range` keeps the number, if it does not become zero. -/
theorem bringIntoRange_value : wp (bringIntoRange .large330 x) (fun y _ => y.mantissa ≠ 0 → y.value = x.value)
    ⊤ ⊤ wide := by
  have he : ∀ y : NumberParts, y.value = x.value → (zeroIfTooSmall .large330 y).mantissa ≠ 0 →
      (zeroIfTooSmall .large330 y).value = x.value := by
    intro y hy
    rw [zeroIfTooSmall]
    split_ifs
    · exact fun h0 => absurd rfl h0
    · exact fun _ => hy
  rw [bringIntoRange, wp_ite]
  refine ⟨fun _ => ?_, fun _ => he x rfl⟩
  rw [wp_bind, u128, wp_ite]
  refine ⟨fun _ => ?_, fun _ => trivial⟩
  rw [wp_pure, wp_bind, i32, wp_ite]
  exact ⟨fun _ => he _ value_shift, fun _ => trivial⟩

theorem closeRound_value : wp (closeRound .large330 x) (fun y _ => y.mantissa ≠ 0 → y.value = x.value) ⊤ ⊤ wide := by
  rw [closeRound, wp_bind]
  refine wp_imp bringIntoRange_value (fun y _ hy => ?_)
  rw [wp_ite]
  exact ⟨fun _ => trivial, fun _ => hy⟩

/-- What is left of the exact number `a` when it is rounded. -/
def Rounds (mode : RoundingMode) (negative : Bool) (a : ℚ) (y : NumberParts) : Prop :=
  y.mantissa ≠ 0 → RoundedTo grid mode (signed negative a) y.value

theorem closeRound_rounds (h : RoundedTo grid mode (signed neg a) x.value) :
    wp (closeRound .large330 x) (fun y _ => Rounds mode neg a y) ⊤ ⊤ wide :=
  wp_imp closeRound_value (fun y _ hy h0 => by rw [hy h0]; exact h)

/-- **Rounding below the cusp**: a mantissa up to `i64::MAX`, or one that lost a digit more. -/
theorem doRoundUp_rounds_below (hg : Exact g f) (hn : g.negative = x.negative) (hl : maxRepUp ≤ 10 * x.mantissa)
    (ht : x.mantissa < maxRep) : wp (doRoundUp mode .large330 fuel g x)
      (fun y _ => Rounds mode x.negative ((x.mantissa + f) * 10 ^ x.exponent) y) ⊤ ⊤ wide := by
  cases fuel with
  | zero => trivial
  | succ fuel =>
    have hs : safeToIncrement .large330 x.mantissa := by
      have ha : maxRep < mantissaRangeMax .large330 := by decide
      simp only [safeToIncrement, Bool.and_eq_true, decide_eq_true_iff]
      omega
    have hp : pastRep .large330 x.mantissa = false := by
      simp only [pastRep, Bool.and_eq_false_iff, decide_eq_false_iff_not]
      omega
    have hb : Between grid (x.mantissa * 10 ^ x.exponent) ((x.mantissa + 1 : ℕ) * 10 ^ x.exponent)
        ((x.mantissa + f) * 10 ^ x.exponent) := by
      by_cases hm : 10 ^ 18 ≤ x.mantissa
      · exact between_unit hm ht hg.nonneg hg.lt_one
      · exact between_tens hl (by omega) hg.nonneg hg.lt_one
    rw [doRoundUp, if_neg (by omega)]
    simp only [hg.round_eq, hn, hs, hp, Bool.false_eq_true, if_false, if_true]
    rw [wp_ite]
    refine ⟨fun hu => ?_, fun hd => ?_⟩
    · rw [if_pos (show cuspRounding320Enabled .large330 from rfl)]
      refine closeRound_rounds ?_
      rw [value_eq]
      exact RoundedTo.of_rise hb (fun _ => neg_mem_grid) (mayRise_of_decision (hu.imp_right And.left))
    · refine closeRound_rounds ?_
      rw [value_eq]
      exact RoundedTo.of_stay hb (fun _ => neg_mem_grid) (mayStay_of_decision fun h => hd (.inl h))

/-! ### The cusp -/

/-- What becomes of a mantissa at the cusp: the guard that it is rounded with. -/
theorem exact_cuspPush (hg : Exact g f) {k : ℕ} (hk : k ≤ 2) :
    Exact (g.push (UInt8.ofNat (k * 10 / (maxRepUp - maxRep)))) (((k * 10 / 3 : ℕ) + f) / 10) := by
  have hd : (UInt8.ofNat (k * 10 / (maxRepUp - maxRep))).toNat = k * 10 / 3 := by
    interval_cases k <;> rfl
  have h := hg.toSums.push (d := UInt8.ofNat (k * 10 / (maxRepUp - maxRep))) (by omega)
  rwa [hd] at h

/-- The mantissa at the cusp after the first rounding, as its distance from `i64::MAX`. -/
def cuspStep (mode : RoundingMode) (negative : Bool) (f : ℚ) (n : ℕ) : ℕ :=
  if n < 2 ∧ (decision mode negative f = 1 ∨ (decision mode negative f = 0 ∧ n = 1)) then n + 1 else n

/-- Rounding in a direction at the cusp: away from zero if there is anything to round. -/
theorem cuspStep_directed (hn : n ≤ 2) (hf : 0 ≤ f) (c : Prop) [Decidable c]
    (hm : ∀ f, decision mode neg f = if c ∧ f ≠ 0 then 1 else -1) :
    (decision mode neg (((cuspStep mode neg f n * 10 / 3 : ℕ) + f) / 10) = 1 ∧ 0 < cuspStep mode neg f n ∧
      c ∧ (n : ℚ) + f ≠ 0) ∨
    (decision mode neg (((cuspStep mode neg f n * 10 / 3 : ℕ) + f) / 10) = -1 ∧ (c → (n : ℚ) + f = 0)) := by
  by_cases hc : c
  · by_cases h0 : (n : ℚ) + f = 0
    · have hf0 : f = 0 := by linarith
      have hn0 : n = 0 := by
        have : (n : ℚ) = 0 := by linarith
        exact_mod_cast this
      right
      simp [hm, cuspStep, hf0, hn0]
    · left
      have hk : 0 < cuspStep mode neg f n := by
        rw [cuspStep]
        split_ifs with h
        · omega
        · by_contra hn'
          have hn0 : n = 0 := by omega
          by_cases hf0 : f = 0
          · exact h0 (by rw [hn0, hf0]; norm_num)
          · exact h ⟨by omega, .inl (by rw [hm, if_pos ⟨hc, hf0⟩])⟩
      have ht : 1 ≤ cuspStep mode neg f n * 10 / 3 := by omega
      refine ⟨?_, hk, hc, h0⟩
      rw [hm, if_pos ⟨hc, by positivity⟩]
  · right
    refine ⟨?_, fun h => absurd h hc⟩
    rw [hm, if_neg fun h => hc h.1]

/-- **The mode takes one of the neighbours of the cusp**, whose distance is three units. -/
theorem cuspStep_decides (mode : RoundingMode) (neg : Bool) (e : ℤ) (hn : n ≤ 2) (hf : 0 ≤ f) (hf1 : f < 1) :
    (decision mode neg (((cuspStep mode neg f n * 10 / 3 : ℕ) + f) / 10) = 1 ∧ 0 < cuspStep mode neg f n ∧
      MayRise mode neg (maxRep * 10 ^ e) (maxRepUp * 10 ^ e) (((maxRep + n : ℕ) + f) * 10 ^ e)) ∨
    (decision mode neg (((cuspStep mode neg f n * 10 / 3 : ℕ) + f) / 10) = -1 ∧
      MayStay mode neg (maxRep * 10 ^ e) (maxRepUp * 10 ^ e) (((maxRep + n : ℕ) + f) * 10 ^ e)) := by
  have hp : (0 : ℚ) < 10 ^ e := ten_zpow_pos
  have hu : (maxRepUp : ℚ) = maxRep + 3 := by norm_num [maxRepUp]
  have ha : (((maxRep + n : ℕ) : ℚ) + f) * 10 ^ e = maxRep * 10 ^ e + (n + f) * 10 ^ e := by
    push_cast
    ring
  have hne : (n : ℚ) + f ≠ 0 → (maxRep : ℚ) * 10 ^ e ≠ ((maxRep + n : ℕ) + f) * 10 ^ e := by
    intro h0 hq
    rw [ha, left_eq_add, mul_eq_zero] at hq
    exact hq.elim h0 hp.ne'
  have hq : (n : ℚ) + f = 0 → (maxRep : ℚ) * 10 ^ e = ((maxRep + n : ℕ) + f) * 10 ^ e := by
    intro h0
    rw [ha, h0, zero_mul, add_zero]
  cases mode with
  | toNearest =>
    have hst : (n : ℚ) + f ≤ 3 / 2 → MayStay .toNearest neg (maxRep * 10 ^ e) (maxRepUp * 10 ^ e)
        (((maxRep + n : ℕ) + f) * 10 ^ e) := by
      intro h
      show (((maxRep + n : ℕ) : ℚ) + f) * 10 ^ e - maxRep * 10 ^ e ≤ maxRepUp * 10 ^ e - ((maxRep + n : ℕ) + f) * 10 ^ e
      nlinarith
    have hr : 3 / 2 ≤ (n : ℚ) + f → MayRise .toNearest neg (maxRep * 10 ^ e) (maxRepUp * 10 ^ e)
        (((maxRep + n : ℕ) + f) * 10 ^ e) := by
      intro h
      show maxRepUp * 10 ^ e - (((maxRep + n : ℕ) : ℚ) + f) * 10 ^ e ≤ ((maxRep + n : ℕ) + f) * 10 ^ e - maxRep * 10 ^ e
      nlinarith
    have hl : ∀ {f}, f < 1 / 2 → decision .toNearest neg f = -1 := fun h => by
      rw [decision, if_neg (by linarith), if_neg h.ne]
    have hb : ∀ {f}, 1 / 2 < f → decision .toNearest neg f = 1 := fun h => by rw [decision, if_pos h]
    by_cases hh : 3 / 2 ≤ (n : ℚ) + f
    · -- the mantissa becomes the last one before the next multiple of ten
      have hs : cuspStep .toNearest neg f n = 2 := by
        have hn1 : n = 1 ∨ n = 2 := by
          by_contra hc
          have : n = 0 := by omega
          rw [this] at hh
          linarith
        rcases hn1 with rfl | rfl
        · have hd : decision .toNearest neg f = 1 ∨ decision .toNearest neg f = 0 ∧ 1 = 1 := by
            rcases (show 1 / 2 ≤ f by linarith).lt_or_eq with h | h
            · exact .inl (hb h)
            · exact .inr ⟨by rw [decision, if_neg h.not_lt, if_pos h.symm], rfl⟩
          rw [cuspStep, if_pos ⟨by norm_num, hd⟩]
        · rw [cuspStep, if_neg (by omega)]
      left
      rw [hs]
      exact ⟨hb (by norm_num; linarith), by norm_num, hr hh⟩
    · have hs : cuspStep .toNearest neg f n ≤ 1 := by
        have hn1 : n ≤ 1 := by
          by_contra hc
          have : n = 2 := by omega
          rw [this] at hh
          linarith
        rw [cuspStep]
        split_ifs with h
        · by_contra hc
          have hn' : n = 1 := by omega
          rw [hn', hl (by rw [hn'] at hh; push_cast at hh; linarith)] at h
          norm_num at h
        · exact hn1
      right
      have ht : cuspStep .toNearest neg f n * 10 / 3 ≤ 3 := by omega
      have hth : ((cuspStep .toNearest neg f n * 10 / 3 : ℕ) : ℚ) ≤ 3 := by exact_mod_cast ht
      exact ⟨hl (by linarith), hst (le_of_lt (not_le.mp hh))⟩
  | towardsZero => exact .inr ⟨rfl, trivial⟩
  | downward =>
    refine (cuspStep_directed hn hf (neg) fun _ => rfl).imp (fun h => ⟨h.1, h.2.1, h.2.2.1, hne h.2.2.2⟩)
      fun h => ⟨h.1, fun he => hq (h.2 he)⟩
  | upward =>
    refine (cuspStep_directed hn hf (neg = false) fun _ => rfl).imp (fun h => ⟨h.1, h.2.1, h.2.2.1, hne h.2.2.2⟩)
      fun h => ⟨h.1, fun he => hq (h.2 he)⟩

/-- **Rounding at the cusp.** -/
theorem doRoundUp_rounds_cusp (hg : Exact g f) (hneg : g.negative = x.negative) (hl : maxRep ≤ x.mantissa)
    (hlt : x.mantissa < maxRepUp) : wp (doRoundUp mode .large330 fuel g x)
      (fun y _ => Rounds mode x.negative ((x.mantissa + f) * 10 ^ x.exponent) y) ⊤ ⊤ wide := by
  cases fuel with
  | zero => trivial
  | succ fuel =>
    obtain ⟨n, hx⟩ := Nat.exists_eq_add_of_le hl
    have hn : n ≤ 2 := by
      have hup : maxRepUp = maxRep + 3 := rfl
      omega
    have hs : cuspStep mode x.negative f n ≤ 2 := by
      rw [cuspStep]
      split_ifs <;> omega
    have hu : cuspPush mode g x.mantissa =
        (g.push (UInt8.ofNat (cuspStep mode x.negative f n * 10 / (maxRepUp - maxRep))),
          maxRep + cuspStep mode x.negative f n) := by
      have hla : (maxRep + n) % 10 < 9 ↔ n < 2 := by
        have hr : maxRep % 10 = 7 := by decide
        omega
      have ho : maxRep + n = maxRep + 1 ↔ n = 1 := by omega
      simp only [cuspPush, hg.round_eq, hneg, hx, hla, ho, cuspStep]
      split_ifs <;> simp [Nat.add_assoc]
    have hxa := exact_cuspPush hg hs
    have hb : Between grid (maxRep * 10 ^ x.exponent) (maxRepUp * 10 ^ x.exponent)
        ((x.mantissa + f) * 10 ^ x.exponent) := between_cusp hl hlt hg.nonneg hg.lt_one
    rw [doRoundUp, if_pos ⟨rfl, hl, hlt⟩, hu]
    have hrn := hxa.round_eq mode
    have ha : (g.push (UInt8.ofNat (cuspStep mode x.negative f n * 10 / (maxRepUp - maxRep)))).negative =
        x.negative := hneg
    rw [ha] at hrn
    simp only [hrn]
    rw [hx] at hb ⊢
    rcases cuspStep_decides mode x.negative x.exponent hn hg.nonneg hg.lt_one with ⟨hd, hp, hri⟩ | ⟨hd, hst⟩
    · have hf : safeToIncrement .large330 (maxRep + cuspStep mode x.negative f n) = false := by
        simp only [safeToIncrement, Bool.and_eq_false_iff, decide_eq_false_iff_not]
        omega
      have ht : pastRep .large330 (maxRep + cuspStep mode x.negative f n) := by
        simp only [pastRep, Bool.and_eq_true, decide_eq_true_iff]
        exact ⟨⟨rfl, by omega⟩, by rw [maxRepUp]; omega⟩
      rw [if_pos (.inl hd), if_pos (show cuspRounding320Enabled .large330 from rfl), hf, ht]
      refine closeRound_rounds ?_
      rw [value_eq]
      exact RoundedTo.of_rise hb (fun _ => neg_mem_grid) hri
    · rw [if_neg (by rw [hd]; norm_num)]
      have he : wp (closeRound .large330 { x with mantissa := maxRep })
          (fun y _ => Rounds mode x.negative (((maxRep + n : ℕ) + f) * 10 ^ x.exponent) y) ⊤ ⊤ wide := by
        refine closeRound_rounds ?_
        rw [value_eq]
        exact RoundedTo.of_stay hb (fun _ => neg_mem_grid) hst
      rw [wp_ite]
      refine ⟨fun _ => he, fun ht => ?_⟩
      have hz : cuspStep mode x.negative f n = 0 := by
        by_contra hne
        refine ht ?_
        simp only [pastRep, Bool.and_eq_true, decide_eq_true_iff]
        exact ⟨⟨rfl, by omega⟩, by rw [maxRepUp]; omega⟩
      rw [hz, Nat.add_zero]
      exact he

/-- **`do_round_up` rounds correctly**: the mantissa is at most the first multiple of ten past
`i64::MAX`, or it lost one digit more because it was past that. -/
theorem doRoundUp_rounds (hg : Exact g f) (hn : g.negative = x.negative) (hl : maxRepUp ≤ 10 * x.mantissa)
    (he : x.mantissa ≤ maxRepUp) (ha : a = (x.mantissa + f) * 10 ^ x.exponent) :
    wp (doRoundUp mode .large330 fuel g x) (fun y _ => Rounds mode x.negative a y) ⊤ ⊤ wide := by
  rw [ha]
  by_cases hbl : x.mantissa < maxRep
  · exact doRoundUp_rounds_below hg hn hl hbl
  by_cases hc : x.mantissa < maxRepUp
  · exact doRoundUp_rounds_cusp hg hn (by omega) hc
  have hx : x.mantissa = maxRepUp := by omega
  cases fuel with
  | zero => trivial
  | succ fuel =>
    have hs : safeToIncrement .large330 maxRepUp = false := by decide
    have hpt : pastRep .large330 maxRepUp = false := by decide
    have ho : maxRepUp % 2 = 0 := by decide
    -- one digit less, which is a zero
    have hp : Exact (g.push (lastDigit maxRepUp)) (f / 10) := by
      have h := hg.toSums.push (d := lastDigit maxRepUp) (by decide)
      rwa [show (lastDigit maxRepUp).toNat = 0 by decide, Nat.cast_zero, zero_add] at h
    have ht : ((maxRepUp : ℚ) + f) * 10 ^ x.exponent = ((maxRepUp / 10 : ℕ) + f / 10) * 10 ^ (x.exponent + 1) := by
      rw [ten_zpow_succ, show (maxRepUp : ℚ) = (maxRepUp / 10 : ℕ) * 10 by norm_num [maxRepUp, maxRep]]
      ring
    rw [doRoundUp, if_neg (by omega)]
    simp only [hg.round_eq, hn, hx, hs, hpt, ho, Bool.false_eq_true, if_false, Nat.zero_ne_one, and_false, or_false]
    rw [wp_ite]
    refine ⟨fun hu => ?_, fun hd => ?_⟩
    · rw [if_pos (show cuspRounding320Enabled .large330 from rfl), wp_bind, checkedI32, wp_ite]
      refine ⟨fun _ => ?_, fun _ => trivial⟩
      rw [wp_pure, if_neg (by decide), ht]
      exact doRoundUp_rounds_below (x := { x with mantissa := maxRepUp / 10, exponent := x.exponent + 1 }) hp hn
        (show maxRepUp ≤ 10 * (maxRepUp / 10) by decide) (show maxRepUp / 10 < maxRep by decide)
    · refine closeRound_rounds ?_
      have hb : Between grid ((maxRepUp / 10 : ℕ) * 10 ^ (x.exponent + 1))
          ((maxRepUp / 10 + 1 : ℕ) * 10 ^ (x.exponent + 1)) (((maxRepUp / 10 : ℕ) + f / 10) * 10 ^ (x.exponent + 1)) :=
        between_tens (by decide) (by decide) (by have := hg.nonneg; positivity) (by have := hg.lt_one; linarith)
      have hv : (maxRepUp : ℚ) * 10 ^ x.exponent = (maxRepUp / 10 : ℕ) * 10 ^ (x.exponent + 1) := by
        rw [ten_zpow_succ, show (maxRepUp : ℚ) = (maxRepUp / 10 : ℕ) * 10 by norm_num [maxRepUp, maxRep]]
        ring
      rw [value_eq, ht]
      simp only [hv]
      exact RoundedTo.of_stay hb (fun _ => neg_mem_grid) (mayStay_of_decision (decision_div_ten hg.lt_one hd))

/-! ### Dropping digits -/

/-- **An exact magnitude while it is worked on**: the mantissa and the fraction that the guard stands for. -/
structure Holds (a f : ℚ) (g : ArithmeticGuard) (x : NumberParts) : Prop where
  sums : Sums g f
  eq : a = (x.mantissa + f) * 10 ^ x.exponent
  sign : g.negative = x.negative

theorem toNat_lastDigit : (lastDigit m).toNat = m % 10 := by
  rw [lastDigit, UInt8.toNat_ofNat']
  omega

/-- One digit moves from the mantissa to the guard. -/
theorem Holds.drop (h : Holds a f g x) : Holds a (((x.mantissa % 10 : ℕ) + f) / 10) (g.push (lastDigit x.mantissa))
      { x with mantissa := x.mantissa / 10, exponent := x.exponent + 1 } ∧
    Exact (g.push (lastDigit x.mantissa)) (((x.mantissa % 10 : ℕ) + f) / 10) := by
  have hx := h.sums.push (d := lastDigit x.mantissa) (by rw [toNat_lastDigit]; omega)
  rw [toNat_lastDigit] at hx
  refine ⟨⟨hx.toSums, ?_, h.sign⟩, hx⟩
  have hd : (x.mantissa : ℚ) = 10 * (x.mantissa / 10 : ℕ) + (x.mantissa % 10 : ℕ) := by
    exact_mod_cast (Nat.div_add_mod x.mantissa 10).symm
  rw [h.eq, hd, ten_zpow_succ]
  ring

/-- A number of the set is rounded to itself. -/
theorem RoundedTo.eq_self (h : RoundedTo S mode q r) (hq : q ∈ S) : r = q := by
  cases mode with
  | toNearest =>
    have hl := IsNearest.le h q hq
    rw [sub_self, abs_zero, abs_nonpos_iff, sub_eq_zero] at hl
    exact hl.symm
  | towardsZero =>
    have hl := IsTrunc.le h q hq le_rfl
    rw [sub_self, abs_zero, abs_nonpos_iff, sub_eq_zero] at hl
    exact hl.symm
  | downward => exact le_antisymm h.1.2 (h.2 ⟨hq, le_rfl⟩)
  | upward => exact le_antisymm (h.2 ⟨hq, le_rfl⟩) h.1.2

theorem RoundedTo.mem (h : RoundedTo S mode q r) : r ∈ S := by
  cases mode with
  | toNearest => exact IsNearest.mem h
  | towardsZero => exact IsTrunc.mem h
  | downward => exact h.1.1
  | upward => exact h.1.1

/-! ### Normalization -/

/-- What was dropped before normalization: it is not needed for rounding, or it comes after more
digits than a mantissa has. -/
def Negligible (m : ℕ) (f : ℚ) : Prop := f = 0 ∨ 10 ^ 19 ≤ m ∨ ∃ j ≤ 2, 10 ^ (16 + j) ≤ m ∧ f * 10 ^ 5 < 10 ^ j

theorem Negligible.grow (h : Negligible m f) (hl : m < 10 ^ 18) : f * 10 < 1 ∧ Negligible (m * 10) (f * 10) := by
  rcases h with rfl | h | ⟨j, -, hm, hf⟩
  · exact ⟨by norm_num, .inl (by norm_num)⟩
  · omega
  · have hj : j ≤ 1 := by
      by_contra hc
      have : 10 ^ 18 ≤ 10 ^ (16 + j) := Nat.pow_le_pow_right (by norm_num) (by omega)
      omega
    have hp : (10 : ℚ) ^ j ≤ 10 ^ 1 := pow_le_pow_right₀ (by norm_num) hj
    refine ⟨by linarith, .inr (.inr ⟨j + 1, by omega, ?_, ?_⟩)⟩
    · rw [← Nat.add_assoc, pow_succ]
      exact Nat.mul_le_mul_right 10 hm
    · rw [pow_succ (10 : ℚ) j]
      linarith

/-- What is negligible in a mantissa that has its digits is less than a half. -/
theorem Negligible.lt_half (h : Negligible m f) (hl : m < 10 ^ 19) : f < 1 / 2 := by
  rcases h with rfl | h | ⟨j, hj, -, hf⟩
  · norm_num
  · omega
  · have hp : (10 : ℚ) ^ j ≤ 10 ^ 2 := pow_le_pow_right₀ (by norm_num) hj
    linarith

/-- The mantissa gets its digits, and what was dropped stays negligible. -/
theorem growMantissa_holds (hf : 0 ≤ f) (hf1 : f < 1) (hm : Negligible x.mantissa f)
    (ha : a = (x.mantissa + f) * 10 ^ x.exponent) :
    wp (growMantissa fuel .large330 x) (fun y _ => y.negative = x.negative ∧ ∃ f', (f' = 0 ↔ f = 0) ∧ 0 ≤ f' ∧ f' < 1 ∧
      Negligible y.mantissa f' ∧ a = (y.mantissa + f') * 10 ^ y.exponent) ⊤ ⊤ wide := by
  refine wp_imp (wp_whileLoop (fun _ y _ => y.negative = x.negative ∧ ∃ f', (f' = 0 ↔ f = 0) ∧ 0 ≤ f' ∧ f' < 1 ∧
    Negligible y.mantissa f' ∧ a = (y.mantissa + f') * 10 ^ y.exponent) ⟨rfl, f, Iff.rfl, hf, hf1, hm, ha⟩
    (fun _ y _ hy hc => ?_) fun _ _ _ _ => trivial) (fun _ _ h => h.2.choose_spec)
  obtain ⟨hn, f', hz, hf', hf1', hs, ha'⟩ := hy
  rw [Bool.and_eq_true, decide_eq_true_iff] at hc
  obtain ⟨ht, hg⟩ := hs.grow hc.1
  rw [wp_bind, checkedU128, wp_ite]
  refine ⟨fun _ => ?_, fun _ => trivial⟩
  rw [wp_pure, wp_bind, i32, wp_ite]
  refine ⟨fun _ => ⟨hn, f' * 10, ?_, by positivity, ht, hg, ?_⟩, fun _ => trivial⟩
  · rw [← hz]
    simp
  · have hu : (10 : ℚ) ^ y.exponent = 10 ^ (y.exponent - 1) * 10 := by rw [← ten_zpow_succ, sub_add_cancel]
    rw [ha', hu]
    push_cast
    ring

/-- One digit is dropped in normalization. -/
theorem dropDigitBelowMax_holds (h : Holds a f g x) : wp (dropDigitBelowMax (g, x)) (fun s _ =>
    s.2.negative = x.negative ∧ s.2.mantissa = x.mantissa / 10 ∧ ∃ f', Holds a f' s.1 s.2 ∧ Exact s.1 f') ⊤ ⊤ wide := by
  rw [dropDigitBelowMax, wp_ite]
  refine ⟨fun _ => trivial, fun _ => ?_⟩
  rw [wp_bind, i32, wp_ite]
  exact ⟨fun _ => ⟨rfl, rfl, _, h.drop⟩, fun _ => trivial⟩

/-- The digits that a mantissa may not have are dropped. -/
theorem dropDigits_holds (h : Holds a f g x) (hm : Negligible x.mantissa f) (hd : g.digits.toNat = 0) :
    wp (whileLoop .outOfFuel (fun s : ArithmeticGuard × NumberParts =>
      decide (mantissaRangeMax .large330 < s.2.mantissa)) dropDigitBelowMax fuel (g, x))
      (fun s _ => s.2.negative = x.negative ∧ s.2.mantissa < 10 ^ 19 ∧ ∃ f', Holds a f' s.1 s.2 ∧ Exact s.1 f')
      ⊤ ⊤ wide := by
  -- before the first turn the guard only knows whether something was dropped
  refine wp_imp (wp_whileLoop (fun _ s _ => s.2.negative = x.negative ∧ ∃ f', Holds a f' s.1 s.2 ∧
    (s.2.mantissa < 10 ^ 19 → Exact s.1 f')) ⟨rfl, f, h, fun hl => h.sums.exact_of_digits (hm.lt_half hl) hd⟩
    (fun _ s _ hs _ => ?_) fun _ _ _ _ => trivial) (fun s _ hs => ?_)
  · obtain ⟨he, f', hf, -⟩ := hs
    refine wp_imp (dropDigitBelowMax_holds hf) (fun s' _ hs' => ?_)
    obtain ⟨hn, -, f'', hf'', hx⟩ := hs'
    exact ⟨hn.trans he, f'', hf'', fun _ => hx⟩
  · obtain ⟨hc, -, he, f', hf, hx⟩ := hs
    have hle : ¬ 10 ^ 19 - 1 < s.2.mantissa := of_decide_eq_false hc
    exact ⟨he, by omega, f', hf, hx (by omega)⟩

/-- A mantissa past the limit loses one digit more. -/
theorem dropPastLimit_holds (h : Holds a f g x) (ha : Exact g f) (hl : 10 ^ 18 ≤ x.mantissa) :
    wp (dropPastLimit .large330 (g, x)) (fun s _ => s.2.negative = x.negative ∧ maxRepUp ≤ 10 * s.2.mantissa ∧
      (x.mantissa < 10 ^ 19 → s.2.mantissa ≤ maxRepUp) ∧ ∃ f', Holds a f' s.1 s.2 ∧ Exact s.1 f') ⊤ ⊤ wide := by
  have hu : maxRepUp = 9223372036854775810 := rfl
  have hlm : repLimit .large330 = maxRepUp := rfl
  rw [dropPastLimit, wp_ite]
  refine ⟨fun hp => ?_, fun hp => ⟨rfl, ?_, fun _ => not_lt.mp hp, f, h, ha⟩⟩
  · refine wp_imp (dropDigitBelowMax_holds h) (fun s _ hs => ?_)
    obtain ⟨hn, hm, f', hf, hx⟩ := hs
    refine ⟨hn, ?_, fun _ => ?_, f', hf, hx⟩ <;> (simp only at hp; omega)
  · simp only
    omega

/-- Normalization rounds correctly, if the last step keeps what is rounded. -/
theorem normalize_rounds_of {dropped : Bool} (hf : 0 ≤ f) (hf1 : f < 1) (hd : dropped = false ↔ f = 0)
    (hm : Negligible x.mantissa f) (ha : a = (x.mantissa + f) * 10 ^ x.exponent)
    (hfi : ∀ y wide, Rounds mode x.negative a y → wp (finishArithmeticResult mode .large330 fuel y)
      (fun z _ => Rounds mode x.negative a z) ⊤ ⊤ wide) :
    wp (normalizeArithmeticPartsWithDropped mode .large330 dropped (fuel + 1) x)
      (fun y _ => Rounds mode x.negative a y) ⊤ ⊤ wide := by
  rw [normalizeArithmeticPartsWithDropped, wp_ite]
  refine ⟨fun _ h0 => absurd rfl h0, fun _ => ?_⟩
  rw [wp_bind]
  refine wp_imp (growMantissa_holds hf hf1 hm ha) (fun x1 _ hx => ?_)
  obtain ⟨hne, f1, hz, hf₁, hf11, hsm, ha1⟩ := hx
  have hu : Sums { hasExtra := dropped, negative := x1.negative } f1 := by
    refine ⟨hf₁, hf11, ?_⟩
    rw [hz, ← hd, ArithmeticGuard.empty_iff]
    simp
  rw [wp_bind]
  refine wp_imp (dropDigits_holds ⟨hu, ha1, rfl⟩ hsm rfl) (fun s _ hs => ?_)
  obtain ⟨hn, ht, f2, hf2, he⟩ := hs
  obtain ⟨g2, x2⟩ := s
  rw [wp_ite]
  refine ⟨fun _ h0 => absurd rfl h0, fun hin => ?_⟩
  have hl : 10 ^ 18 ≤ x2.mantissa := not_lt.mp fun hc => hin (.inr hc)
  rw [wp_bind]
  refine wp_imp (dropPastLimit_holds hf2 he hl) (fun s _ hs => ?_)
  obtain ⟨hg, ho, hle, f3, hf3, hex⟩ := hs
  rw [wp_bind]
  refine wp_imp (doRoundUp_rounds hex hf3.sign ho (hle ht) hf3.eq) (fun y _ hy => ?_)
  rw [hg.trans (hn.trans hne)] at hy
  exact hfi y _ hy

/-- **The last step keeps what is rounded**: if it normalizes again, there is nothing left to round. -/
theorem finish_rounds (h : Rounds mode neg a x) :
    wp (finishArithmeticResult mode .large330 fuel x) (fun y _ => Rounds mode neg a y) ⊤ ⊤ wide := by
  induction fuel using Nat.strongRecOn generalizing neg a x wide with
  | ind fuel ih =>
    match fuel with
    | 0 => trivial
    | fuel + 1 =>
      rw [finishArithmeticResult, wp_ite]
      refine ⟨fun _ h0 => absurd rfl h0, fun hx => ?_⟩
      rw [wp_ite]
      refine ⟨fun _ => trivial, fun _ => ?_⟩
      rw [wp_ite]
      refine ⟨fun _ => trivial, fun _ => ?_⟩
      have hm : x.mantissa ≠ 0 := fun h0 => hx (.inl h0)
      have hs : (⟨x.negative && decide (x.mantissa ≠ 0), x.mantissa, x.exponent⟩ : NumberParts) = x := by
        rw [decide_eq_true hm, Bool.and_true]
      simp only [hs]
      rw [wp_ite]
      refine ⟨fun _ => h, fun _ => ?_⟩
      match fuel with
      | 0 => trivial
      | fuel + 1 =>
        refine wp_imp (normalize_rounds_of le_rfl one_pos (iff_of_true rfl rfl) (.inl rfl) rfl fun y _ hy =>
          ih fuel (by omega) hy) (fun y _ hy h0 => ?_)
        have hr := hy h0
        rw [add_zero, ← value_eq] at hr
        rw [hr.eq_self (h hm).mem]
        exact h hm

/-- **Normalization rounds correctly.** -/
theorem normalize_rounds {dropped : Bool} (hf : 0 ≤ f) (hf1 : f < 1) (hd : dropped = false ↔ f = 0)
    (hs : Negligible x.mantissa f) (ha : a = (x.mantissa + f) * 10 ^ x.exponent) :
    wp (normalizeArithmeticPartsWithDropped mode .large330 dropped fuel x)
      (fun y _ => Rounds mode x.negative a y) ⊤ ⊤ wide := by
  cases fuel with
  | zero => trivial
  | succ fuel => exact normalize_rounds_of hf hf1 hd hs ha fun y _ hy => finish_rounds hy

end Xrpld.Number
