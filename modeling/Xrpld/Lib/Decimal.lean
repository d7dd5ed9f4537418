import Mathlib

/-!
# Significant digits

The first digits of a positive number, in a field with a floor. `place d x` is the unit of the last
of `d` digits, `digits d x` is the whole number that they spell and `cut d x` is what is left of the
number when the rest is dropped.

A number is often known only by a whole number of units that it lies above, with the next one above
it; how many digits it has is then known too (`digits_eq`, `cut_eq`).
-/

namespace Xrpld.Decimal

open Nat Int

variable {K : Type} [Field K] [LinearOrder K] [IsStrictOrderedRing K] [FloorRing K] {x y u : K} {d k n : ℕ} {e : ℤ}

/-- The unit of the last of `d` digits. -/
def place (d : ℕ) (x : K) : K := 10 ^ (Int.log 10 x - d + 1)

/-- The first `d` digits. -/
def digits (d : ℕ) (x : K) : ℕ := ⌊x / place d x⌋₊

/-- The first `d` digits in their place. -/
def cut (d : ℕ) (x : K) : K := digits d x * place d x

section

omit [FloorRing K]

theorem ten_zpow_pos (e : ℤ) : (0 : K) < 10 ^ e := zpow_pos (by norm_num) e

theorem ten_zpow_succ (e : ℤ) : (10 : K) ^ (e + 1) = 10 ^ e * 10 := zpow_add_one₀ (by norm_num) e

/-- Powers of ten are read off. -/
theorem natCast_mul_zpow (n k : ℕ) (e : ℤ) : ((n * 10 ^ k : ℕ) : K) * 10 ^ e = n * 10 ^ (e + k) := by
  rw [zpow_add₀ (by norm_num), zpow_natCast]
  push_cast
  ring

end

theorem place_pos : 0 < place d x := ten_zpow_pos _

/-- The magnitude of a number. -/
theorem log_eq (hl : 10 ^ e ≤ x) (ht : x < 10 ^ (e + 1)) : log 10 x = e := by
  have hx : 0 < x := (ten_zpow_pos e).trans_le hl
  have h1 : e ≤ log 10 x := (zpow_le_iff_le_log (by norm_num) hx).mp (by exact_mod_cast hl)
  have h2 : log 10 x < e + 1 := (lt_zpow_iff_log_lt (by norm_num) hx).mp (by exact_mod_cast ht)
  omega

/-! ### A number has its digits -/

theorem place_mul_le (hx : 0 < x) (hd : 0 < d) : place d x * 10 ^ (d - 1) ≤ x := by
  have h := zpow_log_le_self (R := K) (b := 10) (by norm_num) hx
  rwa [place, ← zpow_natCast, ← zpow_add₀ (by norm_num), show log 10 x - d + 1 + (d - 1 : ℕ) = log 10 x by omega]

theorem lt_place_mul (x : K) (d : ℕ) : x < place d x * 10 ^ d := by
  have h := lt_zpow_succ_log_self (R := K) (b := 10) (by norm_num) x
  rwa [place, ← zpow_natCast, ← zpow_add₀ (by norm_num), show log 10 x - d + 1 + d = log 10 x + 1 by ring]

theorem le_digits (hx : 0 < x) (hd : 0 < d) : 10 ^ (d - 1) ≤ digits d x := by
  rw [digits, le_floor_iff (div_pos hx place_pos).le, le_div_iff₀ place_pos, mul_comm]
  exact_mod_cast place_mul_le hx hd

theorem digits_lt (hx : 0 < x) : digits d x < 10 ^ d := by
  rw [digits, floor_lt (div_pos hx place_pos).le, div_lt_iff₀ place_pos, mul_comm]
  exact_mod_cast lt_place_mul x d

theorem cut_le (hx : 0 < x) : cut d x ≤ x := by
  rw [cut, ← le_div_iff₀ place_pos]
  exact floor_le (div_pos hx place_pos).le

theorem lt_cut_add (x : K) (d : ℕ) : x < cut d x + place d x := by
  have h : x < (digits d x + 1) * place d x := by
    rw [← div_lt_iff₀ place_pos]
    exact lt_floor_add_one _
  rwa [add_mul, one_mul] at h

/-! ### Numbers known by a whole number of units -/

/-- **The last place** of a number between two multiples of a unit. -/
theorem place_eq (hd : 0 < d) (hg : 10 ^ (d - 1) ≤ n) (hn : n < 10 ^ d) (he : n * 10 ^ e ≤ x) (ht : x < (n + 1) * 10 ^ e) :
    place d x = 10 ^ e := by
  have hl : (10 : K) ^ (e + d - 1) ≤ x := by
    refine le_trans ?_ he
    have hc : ((10 ^ (d - 1) : ℕ) : K) ≤ n := by exact_mod_cast hg
    rw [show e + d - 1 = e + (d - 1 : ℕ) by omega, zpow_add₀ (by norm_num), zpow_natCast, mul_comm]
    exact mul_le_mul_of_nonneg_right (by exact_mod_cast hc) (ten_zpow_pos e).le
  have hh : x < 10 ^ (e + d - 1 + 1) := by
    refine ht.trans_le ?_
    have hc : ((n + 1 : ℕ) : K) ≤ (10 ^ d : ℕ) := by exact_mod_cast hn
    rw [show e + d - 1 + 1 = e + d by ring, zpow_add₀ (by norm_num), zpow_natCast, mul_comm (10 ^ e)]
    exact mul_le_mul_of_nonneg_right (by exact_mod_cast hc) (ten_zpow_pos e).le
  rw [place, log_eq hl hh]
  congr 1
  ring

/-- **The digits** of a number between two multiples of a unit. -/
theorem digits_eq (hd : 0 < d) (hg : 10 ^ (d - 1) ≤ n) (hn : n < 10 ^ d) (hl : n * 10 ^ e ≤ x) (ht : x < (n + 1) * 10 ^ e) :
    digits d x = n := by
  have hx : 0 ≤ x := le_trans (mul_nonneg (cast_nonneg n) (ten_zpow_pos e).le) hl
  rw [digits, place_eq hd hg hn hl ht, floor_eq_iff (div_nonneg hx (ten_zpow_pos e).le)]
  exact ⟨(le_div_iff₀ (ten_zpow_pos e)).mpr hl, (div_lt_iff₀ (ten_zpow_pos e)).mpr ht⟩

theorem cut_eq_of_digits (hd : 0 < d) (hg : 10 ^ (d - 1) ≤ n) (hn : n < 10 ^ d) (hl : n * 10 ^ e ≤ x)
    (ht : x < (n + 1) * 10 ^ e) : cut d x = n * 10 ^ e := by
  rw [cut, digits_eq hd hg hn hl ht, place_eq hd hg hn hl ht]

/-- A number with few digits has no more. -/
theorem cut_natCast_mul (hd : 0 < d) (hn0 : 0 < n) (hn : n < 10 ^ d) : cut d ((n : K) * 10 ^ e) = n * 10 ^ e := by
  -- zeros are put after the digits until there are enough of them
  obtain ⟨k, hg, ht⟩ : ∃ k, 10 ^ (d - 1) ≤ n * 10 ^ k ∧ n * 10 ^ k < 10 ^ d := by
    induction h : d - 1 - log 10 n generalizing n with
    | zero =>
      refine ⟨0, ?_, by simpa using hn⟩
      have := pow_log_le_self 10 hn0.ne'
      have hm : 10 ^ (d - 1) ≤ 10 ^ Nat.log 10 n := Nat.pow_le_pow_right (by norm_num) (by omega)
      omega
    | succ j ih =>
      have hl : log 10 (n * 10) = log 10 n + 1 := log_mul_base (by norm_num) hn0.ne'
      have hu : n < 10 ^ (log 10 n + 1) := lt_pow_succ_log_self (by norm_num) n
      have hm : 10 ^ (Nat.log 10 n + 1 + 1) ≤ 10 ^ d := Nat.pow_le_pow_right (by norm_num) (by omega)
      obtain ⟨k, hg, ht⟩ := ih (n := n * 10) (by omega) (by rw [pow_succ] at hm; omega) (by omega)
      exact ⟨k + 1, by rwa [pow_succ', ← Nat.mul_assoc], by rwa [pow_succ', ← Nat.mul_assoc]⟩
  have he : ((n * 10 ^ k : ℕ) : K) * 10 ^ (e - k) = n * 10 ^ e := by rw [natCast_mul_zpow, sub_add_cancel]
  rw [← he]
  refine cut_eq_of_digits hd hg ht le_rfl ?_
  exact mul_lt_mul_of_pos_right (lt_add_one _) (ten_zpow_pos _)

/-- **What is left of a number** of which a whole number of units is known: that many, when they are all its digits or
there are enough of them. -/
theorem cut_eq (hd : 0 < d) (hn0 : 0 < n) (hn : n ≤ 10 ^ d) (hl : n * 10 ^ e ≤ x) (hlt : x < (n + 1) * 10 ^ e)
    (h : 10 ^ (d - 1) ≤ n ∨ x = n * 10 ^ e) : cut d x = n * 10 ^ e := by
  obtain hn | rfl := hn.lt_or_eq
  · rcases h with hg | rfl
    · exact cut_eq_of_digits hd hg hn hl hlt
    · exact cut_natCast_mul hd hn0 hn
  · -- one followed by zeros has one digit too many
    have ht : ((10 ^ d : ℕ) : K) * 10 ^ e = (10 ^ (d - 1) : ℕ) * 10 ^ (e + 1) := by
      have hp : 10 ^ d = 10 ^ (d - 1) * 10 ^ 1 := by rw [← pow_add, Nat.sub_add_cancel hd]
      rw [hp, natCast_mul_zpow]
      rfl
    rw [ht] at hl ⊢
    refine cut_eq_of_digits hd le_rfl (Nat.pow_lt_pow_right (by norm_num) (by omega)) hl (hlt.trans_le ?_)
    rw [add_mul, ht, add_mul, one_mul, one_mul, ten_zpow_succ]
    have := ten_zpow_pos (K := K) e
    linarith

/-! ### Digits of what is left -/

/-- The whole number of units of a later place. -/
theorem exists_digits (hx : 0 < x) (hd : 0 < d) (hk : d ≤ k) :
    ∃ n : ℕ, 10 ^ (k - 1) ≤ n ∧ n < 10 ^ k ∧ cut k x = n * place k x ∧ place d x = place k x * 10 ^ (k - d) := by
  refine ⟨digits k x, le_digits hx (hd.trans_le hk), digits_lt hx, rfl, ?_⟩
  rw [place, place, ← zpow_natCast, ← zpow_add₀ (by norm_num)]
  congr 1
  omega

theorem cut_pos (hx : 0 < x) (hd : 0 < d) : 0 < cut d x := by
  have h : 0 < digits d x := (pow_pos (by norm_num) _).trans_le (le_digits hx hd)
  exact mul_pos (by exact_mod_cast h) place_pos

/-- **Dropping later digits** keeps the place of the earlier ones. -/
theorem place_cut (hx : 0 < x) (hd : 0 < d) (hdk : d ≤ k) : place d (cut k x) = place d x := by
  have hk := hd.trans_le hdk
  have h : place k (cut k x) = place k x :=
    place_eq hk (le_digits hx hk) (digits_lt hx) le_rfl (mul_lt_mul_of_pos_right (lt_add_one _) place_pos)
  obtain ⟨-, -, -, -, h1⟩ := exists_digits hx hd hdk
  obtain ⟨-, -, -, -, h2⟩ := exists_digits (cut_pos hx hk) hd hdk
  rw [h1, h2, h]

/-- **Dropping later digits** keeps the earlier ones. -/
theorem digits_cut (hx : 0 < x) (hd : 0 < d) (hk : d ≤ k) : digits d (cut k x) = digits d x := by
  obtain ⟨e, he⟩ : ∃ e : ℤ, place d x = 10 ^ e := ⟨_, rfl⟩
  obtain ⟨-, -, -, -, hp⟩ := exists_digits hx hd hk
  have hl : digits d x * 10 ^ (k - d) ≤ digits k x := by
    refine le_floor ?_
    rw [le_div_iff₀ place_pos]
    push_cast
    rw [mul_assoc, mul_comm ((10 : K) ^ (k - d)), ← hp]
    exact cut_le hx
  refine digits_eq (e := e) hd (le_digits hx hd) (digits_lt hx) ?_ ?_
  · have hc : (digits d x * 10 ^ (k - d) : K) ≤ digits k x := by exact_mod_cast hl
    rw [← he, hp, cut, mul_comm (place k x), ← mul_assoc]
    exact mul_le_mul_of_nonneg_right hc place_pos.le
  · rw [add_mul, one_mul, ← he]
    exact (cut_le hx).trans_lt (lt_cut_add x d)

end Xrpld.Decimal
