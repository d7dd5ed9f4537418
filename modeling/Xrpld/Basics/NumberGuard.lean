import Xrpld.Lib.Rounding
import Xrpld.Basics.Number

/-!
# What the guard stands for

The guard of `xrpl/basics/math/number.rs` keeps the sixteen digits that were dropped last, as half
bytes of a `u64`, and one bit for all the others. It stands for the fraction of a unit that was
dropped.

## What is proved

`Sums`: the guard is empty exactly when nothing was dropped; this much is true of any guard that
saw what was dropped. `Exact`: it also decides each rounding as the fraction does; this is so once a
digit was pushed (`Sums.push`).
-/

namespace Xrpld.Number

open ArithmeticGuard

variable {g : ArithmeticGuard} {f : ℚ} {d : UInt8} {mode : RoundingMode}

namespace ArithmeticGuard

/-! ### The digits -/

theorem digits_push : (g.push d).digits.toNat = d.toNat % 16 * 2 ^ 60 + g.digits.toNat / 16 := by
  have hd : ((d &&& 0x0F).toUInt64 <<< 60).toNat = (d.toNat % 16) <<< 60 := by
    have h16 : (d &&& 0x0F).toNat = d.toNat % 16 := by
      rw [UInt8.toNat_and]
      exact Nat.and_two_pow_sub_one_eq_mod d.toNat 4
    rw [UInt64.toNat_shiftLeft, UInt8.toNat_toUInt64, h16]
    simp only [UInt64.reduceToNat, Nat.reduceMod]
    rw [Nat.shiftLeft_eq]
    omega
  have hl : g.digits.toNat / 16 < 2 ^ 60 := by
    have := g.digits.toNat_lt
    omega
  rw [push, UInt64.toNat_or, hd, UInt64.toNat_shiftRight, Nat.or_comm]
  simp only [UInt64.reduceToNat, Nat.reduceMod, Nat.shiftRight_eq_div_pow, Nat.reducePow]
  rw [← Nat.shiftLeft_add_eq_or_of_lt hl, Nat.shiftLeft_eq]

theorem digit_pop : g.pop.1.toNat = g.digits.toNat / 2 ^ 60 := by
  have hl := g.digits.toNat_lt
  have ha : (g.digits &&& 0xF000000000000000) >>> 60 = g.digits >>> 60 := by
    rw [← UInt64.toNat_inj, UInt64.toNat_shiftRight, UInt64.toNat_shiftRight, UInt64.toNat_and]
    simp only [UInt64.reduceToNat, Nat.reduceMod]
    rw [Nat.shiftRight_and_distrib, show (17293822569102704640 : ℕ) >>> 60 = 2 ^ 4 - 1 by rfl,
      Nat.and_two_pow_sub_one_eq_mod, Nat.shiftRight_eq_div_pow]
    omega
  rw [pop, ha, UInt64.toNat_toUInt8, UInt64.toNat_shiftRight]
  simp only [UInt64.reduceToNat, Nat.reduceMod, Nat.shiftRight_eq_div_pow]
  omega

theorem digits_pop : g.pop.2.digits.toNat = g.digits.toNat * 16 % 2 ^ 64 := by
  rw [pop, UInt64.toNat_shiftLeft]
  simp only [UInt64.reduceToNat, Nat.reduceMod, Nat.shiftLeft_eq, Nat.reducePow]

theorem empty_iff : g.empty ↔ g.digits.toNat = 0 ∧ g.hasExtra = false := by
  rw [empty, Bool.and_eq_true, decide_eq_true_iff, Bool.not_eq_true', ← UInt64.toNat_inj]
  rfl

theorem hasExtra_push : (g.push d).hasExtra ↔ g.hasExtra ∨ g.digits.toNat % 16 ≠ 0 := by
  have h16 : (g.digits &&& 0xF).toNat = g.digits.toNat % 16 := by
    rw [UInt64.toNat_and]
    exact Nat.and_two_pow_sub_one_eq_mod g.digits.toNat 4
  rw [push, Bool.or_eq_true, decide_eq_true_iff, ne_eq, ← UInt64.toNat_inj, h16]
  rfl

theorem round_toNearest : g.round .toNearest =
    if 5 * 2 ^ 60 < g.digits.toNat then 1 else if g.digits.toNat < 5 * 2 ^ 60 then -1 else if g.hasExtra then 1 else 0 := by
  simp only [round, UInt64.lt_iff_toNat_lt]
  rfl

/-- Whether something was dropped. -/
theorem dropped_eq : (decide (0 < g.digits) || g.hasExtra) = !g.empty := by
  have hp : decide (0 < g.digits) = !decide (g.digits = 0) := by
    rw [← decide_not, decide_eq_decide, UInt64.lt_iff_toNat_lt, ← UInt64.toNat_inj]
    exact Nat.pos_iff_ne_zero
  rw [hp, empty, Bool.not_and, Bool.not_not]

end ArithmeticGuard

/-! ### The fraction -/

/-- How a fraction is rounded: up, down, or neither. -/
def decision (mode : RoundingMode) (negative : Bool) (f : ℚ) : ℤ :=
  match mode with
  | .towardsZero => -1
  | .downward => if negative = true ∧ f ≠ 0 then 1 else -1
  | .upward => if negative = false ∧ f ≠ 0 then 1 else -1
  | .toNearest => if 1 / 2 < f then 1 else if f = 1 / 2 then 0 else -1

/-- **The guard knows whether something was dropped** when the fraction `f` was. -/
structure Sums (g : ArithmeticGuard) (f : ℚ) : Prop where
  nonneg : 0 ≤ f
  lt_one : f < 1
  empty_iff : g.empty = true ↔ f = 0

/-- **The guard rounds** as the fraction `f` does. -/
structure Exact (g : ArithmeticGuard) (f : ℚ) : Prop extends Sums g f where
  round_eq : ∀ mode, g.round mode = decision mode g.negative f

/-- A guard that knows whether something was dropped rounds in a direction. -/
theorem Sums.round_eq (h : Sums g f) (hm : mode ≠ .toNearest) : g.round mode = decision mode g.negative f := by
  have he : g.empty = decide (f = 0) := by
    rw [Bool.eq_iff_iff, decide_eq_true_iff]
    exact h.empty_iff
  cases mode with
  | toNearest => exact absurd rfl hm
  | towardsZero => rfl
  | downward =>
    rw [ArithmeticGuard.round, dropped_eq, he, decision]
    simp
  | upward =>
    rw [ArithmeticGuard.round, dropped_eq, he, decision]
    cases g.negative <;> simp

/-- A guard that knows that less than a half was dropped rounds. -/
theorem Sums.exact_of_digits (h : Sums g f) (hf : f < 1 / 2) (hd : g.digits.toNat = 0) : Exact g f := by
  refine ⟨h, fun mode => ?_⟩
  by_cases hm : mode = .toNearest
  · rw [hm, round_toNearest, hd, decision, if_neg (by norm_num), if_pos (by norm_num),
      if_neg (not_lt.mpr hf.le), if_neg hf.ne]
  · exact h.round_eq hm

/-- **A digit is dropped**: now the guard rounds as the fraction does. -/
theorem Sums.push (h : Sums g f) (hd : d.toNat ≤ 9) : Exact (g.push d) ((d.toNat + f) / 10) := by
  have hno := h.nonneg
  have hl := h.lt_one
  have hd' : (d.toNat : ℚ) ≤ 9 := by exact_mod_cast hd
  have hg : (g.push d).digits.toNat = d.toNat * 2 ^ 60 + g.digits.toNat / 16 := by
    rw [digits_push, Nat.mod_eq_of_lt (by omega)]
  have hn : g.digits.toNat / 16 < 2 ^ 60 := by
    have := g.digits.toNat_lt
    omega
  -- the rest is nothing exactly when the old guard is empty
  have hr : f = 0 ↔ g.digits.toNat / 16 = 0 ∧ (g.push d).hasExtra = false := by
    rw [← h.empty_iff, ArithmeticGuard.empty_iff, ← Bool.not_eq_true, ← Bool.not_eq_true, ArithmeticGuard.hasExtra_push]
    have hsp : g.digits.toNat = 0 ↔ g.digits.toNat / 16 = 0 ∧ g.digits.toNat % 16 = 0 := by omega
    tauto
  have hs : Sums (g.push d) ((d.toNat + f) / 10) := by
    refine ⟨by positivity, by linarith, ?_⟩
    rw [ArithmeticGuard.empty_iff, hg, div_eq_zero_iff, or_iff_left (by norm_num)]
    constructor
    · rintro ⟨h0, hx⟩
      rw [hr.mpr ⟨by omega, hx⟩, show d.toNat = 0 by omega]
      norm_num
    · intro h0
      have hd0 : (d.toNat : ℚ) = 0 := by linarith
      have hf0 : f = 0 := by linarith
      obtain ⟨h16, hx⟩ := hr.mp hf0
      have hd0'' : d.toNat = 0 := by exact_mod_cast hd0
      exact ⟨by omega, hx⟩
  refine ⟨hs, fun mode => ?_⟩
  by_cases hm : mode = .toNearest
  · rw [hm, round_toNearest, hg, decision]
    rcases lt_trichotomy d.toNat 5 with hd5 | hd5 | hd5
    · have : (d.toNat : ℚ) ≤ 4 := by exact_mod_cast Nat.le_of_lt_succ hd5
      rw [if_neg (by omega), if_pos (by omega), if_neg (by linarith), if_neg (by linarith)]
    · rw [hd5]
      by_cases hf : f = 0
      · obtain ⟨h16, hx⟩ := hr.mp hf
        rw [h16, hx, hf]
        norm_num
      · have hp : 0 < f := lt_of_le_of_ne hno (Ne.symm hf)
        have ho : ¬ (g.digits.toNat / 16 = 0 ∧ (g.push d).hasExtra = false) := fun hc => hf (hr.mpr hc)
        rw [if_pos (show (1 : ℚ) / 2 < ((5 : ℕ) + f) / 10 by push_cast; linarith)]
        by_cases h16 : g.digits.toNat / 16 = 0
        · have hx : (g.push d).hasExtra := by
            by_contra hc
            exact ho ⟨h16, Bool.not_eq_true _ ▸ hc⟩
          rw [if_neg (by omega), if_neg (by omega), if_pos hx]
        · rw [if_pos (by omega)]
    · have : (6 : ℚ) ≤ d.toNat := by exact_mod_cast hd5
      rw [if_pos (by omega), if_pos (by linarith)]
  · exact hs.round_eq hm

/-- Nothing was dropped. -/
theorem sums_new {neg : Bool} : Exact { negative := neg } 0 :=
  (Sums.mk le_rfl one_pos (iff_of_true rfl rfl)).exact_of_digits (by norm_num) rfl

/-- **The last digit is taken back**: the guard knows what was dropped before it. -/
theorem Sums.pop_push (h : Sums g f) (hd : d.toNat ≤ 9) : (g.push d).pop.1 = d ∧ Sums (g.push d).pop.2 f := by
  have hn : g.digits.toNat / 16 < 2 ^ 60 := by
    have := g.digits.toNat_lt
    omega
  have hg : (g.push d).digits.toNat = d.toNat * 2 ^ 60 + g.digits.toNat / 16 := by
    rw [digits_push, Nat.mod_eq_of_lt (by omega)]
  refine ⟨?_, h.nonneg, h.lt_one, ?_⟩
  · rw [← UInt8.toNat_inj, digit_pop, hg]
    omega
  · rw [ArithmeticGuard.empty_iff, ArithmeticGuard.digits_pop, hg, ← h.empty_iff, ArithmeticGuard.empty_iff]
    have hx : (g.push d).pop.2.hasExtra = (g.push d).hasExtra := rfl
    rw [hx, ← Bool.not_eq_true, ← Bool.not_eq_true, hasExtra_push]
    have hs : (d.toNat * 2 ^ 60 + g.digits.toNat / 16) * 16 % 2 ^ 64 = 0 ∧ g.digits.toNat % 16 = 0 ↔
        g.digits.toNat = 0 := by omega
    tauto

end Xrpld.Number
