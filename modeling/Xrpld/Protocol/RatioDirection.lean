import Xrpld.Protocol.MulRatio

/-!
# Directed ratios

What `mul_ratio` of `iou_amount.rs` promises: the result is on the side of the exact ratio that
`round_up` asks for, at most one unit in the last place away.

## The model

`DirectedBy` is the promise, in numbers; `Good` is the same for the magnitudes. A magnitude is given
by its sixteen digits and its unit (`Sixteen`).

## What is proved

The function keeps eighteen digits of the exact ratio and lets `from_parts` round these to sixteen in
the rounding mode of the thread, before it looks at the direction. So the promise is kept exactly when
that rounding does not go the wrong way (`Kept`, `good_ratio_iff`).
-/

namespace Xrpld.Protocol

open Number Decimal Nat

variable {mode : RoundingMode} {negative aw up : Bool} {v w x : ℚ} {e : ℤ} {n : ℕ} {r : IOUAmount}

/-! ### Directions -/

/-- The seventeenth and the eighteenth digit are rounded up. -/
def Rises (mode : RoundingMode) (negative : Bool) (x : ℚ) : Prop := RoundsUp mode negative (cut 18 x / place 16 x)

instance : Decidable (Rises mode negative x) := inferInstanceAs (Decidable (RoundsUp ..))

/-- **The rounding does not go the wrong way**: towards zero nothing is rounded up; away from zero nothing is rounded up
if there are more than eighteen digits (unless the two units make a power of ten), and all else is. -/
def Kept (mode : RoundingMode) (negative away : Bool) (x : ℚ) : Prop :=
  if away = true then
    if cut 18 x ≠ x then Rises mode negative x → digits 16 x = 10 ^ 16 - 2 else Rises mode negative x ∨ cut 16 x = x
  else ¬ Rises mode negative x

/-- The largest amount. -/
def largest : ℚ := (10 ^ 16 - 1) * 10 ^ (80 : ℤ)

/-- A magnitude is on the side asked for, and at most a unit away. -/
def Good (away : Bool) (x w : ℚ) : Prop := (if away = true then x ≤ w else w ≤ x) ∧ |w - x| ≤ place 16 w

/-- **A result is directed**: on the side asked for, and at most one unit in its last place away. -/
def DirectedBy (roundUp : Bool) (exact : ℚ) (r : IOUAmount) : Prop :=
  (if roundUp = true then exact ≤ r.value else r.value ≤ exact) ∧ |r.value - exact| ≤ 10 ^ r.exponent

theorem shown_cut (mode : RoundingMode) (negative : Bool) (hx : 0 < x) :
    shown mode negative (cut 18 x) = (digits 16 x + if Rises mode negative x then 1 else 0 : ℕ) * place 16 x := by
  rw [shown, whole, place_cut hx (by norm_num) (by norm_num)]
  have hf : ⌊cut 18 x / place 16 x⌋₊ = digits 16 x := by
    rw [← digits_cut (k := 18) hx (by norm_num) (by norm_num), Decimal.digits, place_cut hx (by norm_num) (by norm_num)]
  rw [hf]
  rfl

/-- What is rounded up is not whole. -/
theorem Rises.lt (h : Rises mode negative x) (hx : 0 < x) : cut 16 x < x := by
  refine lt_of_le_of_ne (cut_le hx) fun he => ?_
  have hw : cut 18 x = x := by
    have hn : cut 18 (cut 16 x) = cut 16 x := by
      refine cut_natCast_mul (by norm_num) (pos_of_ne_zero fun h0 => ?_) ((digits_lt hx).trans (by norm_num))
      have := le_digits (d := 16) hx (by norm_num)
      omega
    rwa [he] at hn
  rw [Rises, hw, ← he, place_cut hx (by norm_num) le_rfl, cut, mul_div_cancel_right₀ _ place_pos.ne'] at h
  exact not_roundsUp_natCast h

theorem directed_iff_good (hr : Makes negative w r) (hw : smallest ≤ w) :
    DirectedBy up (signed negative x) r ↔ Good (up ^^ negative) x w := by
  obtain ⟨hn, ht, hg, hl, -⟩ := hr.parts hw
  have hp : place 16 w = 10 ^ r.exponent := by
    rw [ht]
    exact place_eq (by norm_num) hg hl le_rfl (mul_lt_mul_of_pos_right (lt_add_one _) (ten_zpow_pos _))
  have hv : r.value = signed negative w := by
    obtain ⟨hs, -⟩ | ⟨-, -, -, -, hv⟩ := hr
    · exact absurd hw (not_le.mpr hs)
    · exact hv
  rw [DirectedBy, Good, hv, hp]
  cases negative <;> cases up <;> simp only [signed, Bool.xor_false, Bool.xor_true, Bool.not_false, Bool.not_true, if_true,
    if_false, Bool.false_eq_true, neg_le_neg_iff, neg_sub_neg, abs_sub_comm x w]

/-- **A positive number and its sixteen digits.** -/
structure Sixteen (x : ℚ) (n : ℕ) (e : ℤ) : Prop where
  digits : digits 16 x = n
  place : place 16 x = 10 ^ e
  ge : 10 ^ 15 ≤ n
  lt : n < 10 ^ 16
  le_self : n * 10 ^ e ≤ x
  self_lt : x < (n + 1) * 10 ^ e

theorem exists_sixteen (hx : 0 < x) : ∃ n e, Sixteen x n e := by
  obtain ⟨e, he⟩ : ∃ e : ℤ, place 16 x = 10 ^ e := ⟨_, rfl⟩
  refine ⟨digits 16 x, e, rfl, he, le_digits (d := 16) hx (by norm_num), digits_lt hx, ?_, ?_⟩
  · rw [← he]
    exact cut_le hx
  · rw [← he, add_mul, one_mul]
    exact lt_cut_add x 16

theorem place_unit (hg : 10 ^ 15 ≤ n) (hl : n < 10 ^ 16) : place 16 ((n : ℚ) * 10 ^ e) = 10 ^ e :=
  place_eq (by norm_num) hg hl le_rfl (mul_lt_mul_of_pos_right (lt_add_one _) (ten_zpow_pos _))

theorem top_eq : ((10 ^ 16 : ℕ) : ℚ) * 10 ^ e = (10 ^ 15 : ℕ) * 10 ^ (e + 1) := by
  rw [ten_zpow_succ]
  ring

theorem place_top : place 16 (((10 ^ 16 : ℕ) : ℚ) * 10 ^ e) = 10 ^ (e + 1) := by
  rw [top_eq]
  exact place_unit le_rfl (by norm_num)

namespace Sixteen

variable (h : Sixteen x n e)

include h

theorem cut_eq : cut 16 x = n * 10 ^ e := by rw [cut, h.digits, h.place]

theorem smallest_le (hx : smallest ≤ x) : smallest ≤ n * 10 ^ e := by
  have hn : (10 : ℚ) ^ 15 ≤ n := by exact_mod_cast h.ge
  have he : -96 ≤ e := by
    by_contra hl
    have ht : x < 10 ^ 16 * 10 ^ e := by
      have hn' : (n : ℚ) + 1 ≤ 10 ^ 16 := by exact_mod_cast h.lt
      exact h.self_lt.trans_le (mul_le_mul_of_nonneg_right hn' (ten_zpow_pos e).le)
    have hle : (10 : ℚ) ^ 16 * 10 ^ e ≤ smallest := by
      calc (10 : ℚ) ^ 16 * 10 ^ e ≤ 10 ^ 16 * 10 ^ (-97 : ℤ) := mul_le_mul_of_nonneg_left (zpow_mono (by omega)) (by norm_num)
        _ = 10 ^ 15 * 10 ^ (-97 + 1 : ℤ) := by rw [ten_zpow_succ]; ring
        _ = smallest := by rw [smallest]; norm_num
    linarith
  calc smallest ≤ 10 ^ 15 * 10 ^ e := mul_le_mul_of_nonneg_left (zpow_mono he) (by norm_num)
    _ ≤ n * 10 ^ e := mul_le_mul_of_nonneg_right hn (ten_zpow_pos e).le

/-- The digits as they are. -/
theorem good_stay (aw : Bool) : Good aw x (n * 10 ^ e) ↔ (aw → cut 16 x = x) := by
  have hl := h.le_self
  have ht := h.self_lt
  have hu : |(n : ℚ) * 10 ^ e - x| ≤ 10 ^ e := abs_le.mpr ⟨by linarith, by linarith [ten_zpow_pos (K := ℚ) e]⟩
  rw [Good, place_unit h.ge h.lt, h.cut_eq, and_iff_left hu]
  cases aw with
  | false => simpa using hl
  | true => simpa using ⟨fun h' => le_antisymm hl h', fun h' => h'.ge⟩

/-- One unit more. -/
theorem good_up (aw : Bool) : Good aw x ((n + 1 : ℕ) * 10 ^ e) ↔ aw := by
  have he := h.le_self
  have hl := h.self_lt
  have hp : (10 : ℚ) ^ e ≤ Decimal.place 16 (((n + 1 : ℕ) : ℚ) * 10 ^ e) := by
    rcases Nat.lt_or_ge (n + 1) (10 ^ 16) with h' | h'
    · rw [place_unit (by have := h.ge; omega) h']
    · rw [show n + 1 = 10 ^ 16 by have := h.lt; omega, place_top]
      exact zpow_mono (by omega)
  push_cast at hp ⊢
  rw [Good]
  cases aw with
  | false => simpa using fun h' : ((n : ℚ) + 1) * 10 ^ e ≤ x => absurd h' (not_le.mpr hl)
  | true =>
    simp only [if_true, iff_true]
    exact ⟨hl.le, abs_le.mpr ⟨by linarith, by linarith⟩⟩

/-- **Two units more** are too many, unless they make a power of ten. -/
theorem good_twice (hx : smallest ≤ x) : Good true x (nextUnit ((n + 1 : ℕ) * 10 ^ e)) ↔ n = 10 ^ 16 - 2 := by
  have he := h.ge
  have hn := h.lt
  have hle := h.le_self
  have hlt := h.self_lt
  have hs : ¬ ((n + 1 : ℕ) : ℚ) * 10 ^ e < smallest := by
    push_cast
    linarith
  rw [nextUnit, if_neg hs, Good]
  simp only [if_true]
  rcases lt_or_ge (n + 1) (10 ^ 16) with h1 | h1
  · have hnx : ((n + 1 : ℕ) : ℚ) * 10 ^ e + 10 ^ e = (n + 2 : ℕ) * 10 ^ e := by
      push_cast
      ring
    rw [place_unit (by omega) h1, hnx]
    rcases lt_or_ge (n + 2) (10 ^ 16) with h2 | h2
    · rw [place_unit (by omega) h2]
      refine iff_of_false (fun hg => ?_) (by omega)
      have := (abs_le.mp hg.2).2
      push_cast at this
      linarith
    · rw [show n + 2 = 10 ^ 16 by omega, place_top, ten_zpow_succ, show ((10 ^ 16 : ℕ) : ℚ) = n + 2 by
        rw [show 10 ^ 16 = n + 2 by omega]; push_cast; ring]
      exact iff_of_true ⟨by linarith, abs_le.mpr ⟨by linarith, by linarith⟩⟩ (by omega)
  · have ht : n + 1 = 10 ^ 16 := by omega
    have hl : x < ((10 ^ 16 : ℕ) : ℚ) * 10 ^ e := by
      rw [← ht]
      push_cast
      exact hlt
    have hnx : ((10 ^ 16 : ℕ) : ℚ) * 10 ^ e + 10 ^ (e + 1) = (10 ^ 15 + 1 : ℕ) * 10 ^ (e + 1) := by
      rw [top_eq]
      ring
    rw [ht, place_top, hnx, place_unit (by norm_num) (by norm_num), ← hnx]
    refine iff_of_false (fun hg => ?_) (by omega)
    have := (abs_le.mp hg.2).2
    linarith

end Sixteen

theorem smallest_le_shown (mode : RoundingMode) (negative : Bool) (hx : smallest ≤ x) :
    smallest ≤ shown mode negative (cut 18 x) := by
  have hp := smallest_pos.trans_le hx
  obtain ⟨n, e, h⟩ := exists_sixteen hp
  have hs := h.smallest_le hx
  have ht := ten_zpow_pos (K := ℚ) e
  rw [shown_cut mode negative hp, h.digits, h.place]
  split_ifs
  · push_cast
    linarith
  · simpa using hs

theorem smallest_le_nextUnit (hv : smallest ≤ v) : smallest ≤ nextUnit v := by
  rw [nextUnit, if_neg (not_lt.mpr hv)]
  have := place_pos (K := ℚ) (d := 16) (x := v)
  linarith

/-- **The direction of a ratio**, as `mul_ratio` of the amounts computes it. -/
theorem good_ratio_iff (mode : RoundingMode) (negative aw : Bool) (hx : smallest ≤ x) :
    Good aw x (ratio mode negative aw x) ↔ Kept mode negative aw x := by
  have hp := smallest_pos.trans_le hx
  obtain ⟨n, e, h⟩ := exists_sixteen hp
  have hw := shown_cut mode negative hp
  rw [h.digits, h.place] at hw
  have hs := h.smallest_le hx
  rw [ratio, hw, Kept, h.digits]
  by_cases hr : Rises mode negative x
  · simp only [hr, if_true, not_true_eq_false, true_implies, true_or]
    cases aw with
    | false => simpa using h.good_up false
    | true =>
      by_cases hm : cut 18 x ≠ x
      · simpa [hm] using h.good_twice hx
      · simpa [hm] using h.good_up true
  · simp only [hr, if_false, add_zero, not_false_eq_true, false_implies, false_or]
    cases aw with
    | false => simpa using h.good_stay false
    | true =>
      by_cases hm : cut 18 x ≠ x
      · have hn : nextUnit ((n : ℚ) * 10 ^ e) = (n + 1 : ℕ) * 10 ^ e := by
          rw [nextUnit, if_neg (not_lt.mpr hs), place_unit h.ge h.lt]
          push_cast
          ring
        rw [if_pos ⟨hm, rfl⟩, hn, if_pos rfl, if_pos hm]
        exact iff_of_true ((h.good_up true).mpr rfl) trivial
      · simpa [hm] using h.good_stay true

theorem directed_makes_iff (hx : smallest ≤ x) (hr : Makes negative (ratio mode negative (up ^^ negative) x) r) :
    DirectedBy up (signed negative x) r ↔ Kept mode negative (up ^^ negative) x := by
  have hv := smallest_le_shown mode negative hx
  rw [directed_iff_good hr ?_, good_ratio_iff mode negative _ hx]
  rw [ratio]
  split_ifs
  · exact smallest_le_nextUnit hv
  · exact hv

/-! ### Below the largest amount -/

theorem largest_lt_limit : largest < limit := by
  rw [largest, limit]
  norm_num

/-- Sixteen digits are below the limit. -/
theorem lt_limit_iff (hg : 10 ^ 15 ≤ n) (hl : n ≤ 10 ^ 16) : (n : ℚ) * 10 ^ e < limit ↔ e < 80 ∨ (e = 80 ∧ n < 10 ^ 16) := by
  have hn : (10 : ℚ) ^ 15 ≤ n := by exact_mod_cast hg
  have hn' : (n : ℚ) ≤ 10 ^ 16 := by exact_mod_cast hl
  have ht := ten_zpow_pos (K := ℚ) e
  rcases lt_trichotomy e 80 with he | rfl | he
  · refine iff_of_true ?_ (.inl he)
    calc (n : ℚ) * 10 ^ e ≤ 10 ^ 16 * 10 ^ (79 : ℤ) :=
          mul_le_mul hn' (zpow_mono (by omega)) ht.le (by norm_num)
      _ < limit := by rw [limit]; norm_num
  · rw [limit, mul_lt_mul_iff_of_pos_right ht]
    constructor
    · intro h
      exact .inr ⟨rfl, by exact_mod_cast h⟩
    · rintro (h | ⟨-, h⟩)
      · exact absurd h (lt_irrefl _)
      · exact_mod_cast h
  · refine iff_of_false (not_lt.mpr ?_) (by omega)
    calc limit = 10 ^ 15 * 10 ^ (80 + 1 : ℤ) := by rw [limit, ten_zpow_succ]; ring
      _ ≤ n * 10 ^ e := mul_le_mul hn (zpow_mono (by omega)) (ten_zpow_pos _).le (by linarith)

/-- Sixteen digits below the limit are an amount. -/
theorem le_largest (hg : 10 ^ 15 ≤ n) (hl : n ≤ 10 ^ 16) (h : (n : ℚ) * 10 ^ e < limit) : (n : ℚ) * 10 ^ e ≤ largest := by
  have hn' : (n : ℚ) ≤ 10 ^ 16 := by exact_mod_cast hl
  obtain he | ⟨rfl, hn⟩ := (lt_limit_iff hg hl).mp h
  · calc (n : ℚ) * 10 ^ e ≤ 10 ^ 16 * 10 ^ (79 : ℤ) :=
          mul_le_mul hn' (zpow_mono (by omega)) (ten_zpow_pos _).le (by norm_num)
      _ ≤ largest := by rw [largest]; norm_num
  · rw [largest]
    refine mul_le_mul_of_nonneg_right ?_ (ten_zpow_pos _).le
    have : (n : ℚ) + 1 ≤ 10 ^ 16 := by exact_mod_cast hn
    linarith

theorem Makes.le_largest (h : Makes negative v r) (hv : smallest ≤ v) : v ≤ largest := by
  obtain ⟨-, hp, hg, ht, -, -, hl⟩ := h.parts hv
  rw [hp] at hl ⊢
  exact Protocol.le_largest hg ht.le hl

/-- The number has an amount on the side asked for. -/
def InRange (away : Bool) (x : ℚ) : Prop := if away = true then x ≤ largest else x < limit

theorem not_directed_new (hx : smallest ≤ x) : ¬ DirectedBy up (signed negative x) .new := by
  intro h
  have hf : |(0 : ℚ) - signed negative x| = x := by
    have hp := smallest_pos.trans_le hx
    rw [zero_sub, abs_neg, signed]
    split_ifs
    · rw [abs_neg, abs_of_pos hp]
    · exact abs_of_pos hp
  have hl := h.2
  rw [show IOUAmount.new.value = 0 by norm_num [IOUAmount.value, IOUAmount.new], hf] at hl
  have : smallest ≤ 10 ^ (-100 : ℤ) := hx.trans hl
  rw [smallest] at this
  norm_num at this

theorem two_mul_smallest_lt : 2 * smallest < limit := by
  rw [smallest, limit]
  norm_num

namespace Sixteen

variable (h : Sixteen x n e)

include h

/-- The next multiple of the unit is not past the limit. -/
theorem succ_le_limit (hl : (n : ℚ) * 10 ^ e < limit) : ((n : ℚ) + 1) * 10 ^ e ≤ limit := by
  have hn : (n : ℚ) + 1 ≤ 10 ^ 16 := by exact_mod_cast h.lt
  have he : e ≤ 80 := by
    have := (lt_limit_iff h.ge h.lt.le).mp hl
    omega
  exact mul_le_mul hn (zpow_mono he) (ten_zpow_pos _).le (by norm_num)

/-- What is rounded past the limit is above the largest amount. -/
theorem largest_lt (hr : Rises mode negative x) (hp : 0 < x) (hl : limit ≤ ((n + 1 : ℕ) : ℚ) * 10 ^ e) : largest < x := by
  have hg := h.ge
  have ht := h.lt
  have ho := mt (lt_limit_iff (e := e) (by omega : 10 ^ 15 ≤ n + 1) (by omega)).mpr (not_lt.mpr hl)
  by_cases he : e = 80
  · have hn : (n : ℚ) = 10 ^ 16 - 1 := by
      rw [eq_sub_iff_add_eq]
      exact_mod_cast (by omega : n + 1 = 10 ^ 16)
    have hc := hr.lt hp
    rwa [h.cut_eq, hn, he] at hc
  · have hf := mt (lt_limit_iff (e := e) hg ht.le).mp (by omega)
    exact largest_lt_limit.trans_le ((not_lt.mp hf).trans h.le_self)

/-- Nothing that is rounded past the limit is kept in range. -/
theorem not_kept_of_limit (mode : RoundingMode) (negative aw : Bool) (hp : 0 < x)
    (hl : limit ≤ ((n + if Rises mode negative x then 1 else 0 : ℕ) : ℚ) * 10 ^ e) :
    ¬ (Kept mode negative aw x ∧ InRange aw x) := by
  rintro ⟨hk, hi⟩
  by_cases hr : Rises mode negative x
  · rw [if_pos hr] at hl
    cases aw with
    | false => exact absurd hr (by simpa [Kept] using hk)
    | true => exact absurd (h.largest_lt hr hp hl) (not_lt.mpr (by simpa [InRange] using hi))
  · rw [if_neg hr, add_zero] at hl
    have hf := hl.trans h.le_self
    cases aw with
    | false => exact absurd hf (not_le.mpr (by simpa [InRange] using hi))
    | true => exact absurd (hf.trans (by simpa [InRange] using hi)) (not_le.mpr largest_lt_limit)

/-- Without a step, what is kept is in range. -/
theorem inRange_of_kept (mode : RoundingMode) (negative aw : Bool) (hs : ¬ (cut 18 x ≠ x ∧ aw))
    (hp : Kept mode negative aw x)
    (hl : ((n + if Rises mode negative x then 1 else 0 : ℕ) : ℚ) * 10 ^ e < limit) : InRange aw x := by
  have hg := h.ge
  have ht := h.lt
  cases aw with
  | false =>
    have hr : ¬ Rises mode negative x := by simpa [Kept] using hp
    rw [if_neg hr, add_zero] at hl
    have : x < limit := h.self_lt.trans_le (h.succ_le_limit hl)
    simpa [InRange] using this
  | true =>
    have ha : cut 18 x = x := by simpa using hs
    have hk : Rises mode negative x ∨ cut 16 x = x := by simpa [Kept, ha] using hp
    have he : x ≤ largest := by
      by_cases hr : Rises mode negative x
      · rw [if_pos hr] at hl
        have hu : x < ((n + 1 : ℕ) : ℚ) * 10 ^ e := by
          push_cast
          exact h.self_lt
        exact hu.le.trans (Protocol.le_largest (by omega) (by omega) hl)
      · rw [if_neg hr, add_zero] at hl
        rw [← hk.resolve_left hr, h.cut_eq]
        exact Protocol.le_largest hg ht.le hl
    simpa [InRange] using he

theorem shown_le_two_mul (mode : RoundingMode) (negative : Bool) :
    ((n + if Rises mode negative x then 1 else 0 : ℕ) : ℚ) * 10 ^ e ≤ 2 * x := by
  have hg := h.ge
  have hd : ((n + if Rises mode negative x then 1 else 0 : ℕ) : ℚ) ≤ 2 * n := by
    exact_mod_cast (by split_ifs <;> omega : n + (if Rises mode negative x then 1 else 0) ≤ 2 * n)
  calc ((n + if Rises mode negative x then 1 else 0 : ℕ) : ℚ) * 10 ^ e ≤ 2 * n * 10 ^ e :=
        mul_le_mul_of_nonneg_right hd (ten_zpow_pos _).le
    _ = 2 * (n * 10 ^ e) := by ring
    _ ≤ 2 * x := by linarith [h.le_self]

/-- A step past the limit is not taken. -/
theorem good_at_limit (mode : RoundingMode) (negative : Bool) (hp : 0 < x) (hx : smallest ≤ x) (hm : cut 18 x ≠ x)
    (hl : ((n + if Rises mode negative x then 1 else 0 : ℕ) : ℚ) * 10 ^ e < limit)
    (hnx : limit ≤ nextUnit (((n + if Rises mode negative x then 1 else 0 : ℕ) : ℚ) * 10 ^ e)) :
    Good true x (((n + if Rises mode negative x then 1 else 0 : ℕ) : ℚ) * 10 ^ e) ↔
      Kept mode negative true x ∧ InRange true x := by
  have hg := h.ge
  have hlt := h.lt
  have hs := h.smallest_le hx
  have hc : cut 16 x ≠ x := by
    intro hq
    refine hm ?_
    have hn : cut 18 (cut 16 x) = cut 16 x := by
      rw [h.cut_eq]
      exact cut_natCast_mul (by norm_num) (by omega) (by omega)
    rwa [hq] at hn
  by_cases hr : Rises mode negative x
  · rw [if_pos hr] at hl hnx ⊢
    have hu : x < ((n + 1 : ℕ) : ℚ) * 10 ^ e := by
      push_cast
      exact h.self_lt
    have ho : ¬ ((n + 1 : ℕ) : ℚ) * 10 ^ e < smallest := by
      linarith
    have hn : n = 10 ^ 16 - 2 := by
      rw [nextUnit, if_neg ho] at hnx
      rcases lt_or_ge (n + 1) (10 ^ 16) with h1 | h1
      · rw [place_unit (by omega) h1] at hnx
        have hnx' : limit ≤ ((n + 2 : ℕ) : ℚ) * 10 ^ e := by
          push_cast at hnx ⊢
          linarith
        have h2 := (lt_limit_iff (by omega) h1.le).mp hl
        have h3 := mt (lt_limit_iff (e := e) (by omega : 10 ^ 15 ≤ n + 2) (by omega)).mpr (not_lt.mpr hnx')
        omega
      · have ht : n + 1 = 10 ^ 16 := by omega
        rw [ht, place_top] at hnx
        rw [ht] at hl
        have h2 := (lt_limit_iff (by norm_num) le_rfl).mp hl
        have hnx' : limit ≤ ((10 ^ 15 + 1 : ℕ) : ℚ) * 10 ^ (e + 1) := by
          rw [top_eq] at hnx
          push_cast at hnx ⊢
          linarith
        have h3 := mt (lt_limit_iff (e := e + 1) (by norm_num : 10 ^ 15 ≤ 10 ^ 15 + 1) (by norm_num)).mpr (not_lt.mpr hnx')
        omega
    refine iff_of_true ((h.good_up true).mpr rfl) ⟨?_, ?_⟩
    · rw [Kept, if_pos rfl, if_pos hm, h.digits]
      exact fun _ => hn
    · rw [InRange, if_pos rfl]
      exact hu.le.trans (Protocol.le_largest (by omega) (by omega) hl)
  · rw [if_neg hr, add_zero] at hl hnx ⊢
    refine iff_of_false (fun hd => hc ((h.good_stay true).mp hd rfl)) fun hb => ?_
    rw [nextUnit, if_neg (not_lt.mpr hs), place_unit hg hlt] at hnx
    have hnx' : limit ≤ ((n + 1 : ℕ) : ℚ) * 10 ^ e := by
      push_cast
      linarith
    have h2 := (lt_limit_iff hg hlt.le).mp hl
    have h3 := mt (lt_limit_iff (e := e) (by omega : 10 ^ 15 ≤ n + 1) (by omega)).mpr (not_lt.mpr hnx')
    have hn : (n : ℚ) = 10 ^ 16 - 1 := by
      rw [eq_sub_iff_add_eq]
      exact_mod_cast (by omega : n + 1 = 10 ^ 16)
    have hlg : cut 16 x = largest := by rw [h.cut_eq, hn, show e = 80 by omega, largest]
    have he : x ≤ largest := by simpa [InRange] using hb.2
    exact hc (le_antisymm (cut_le hp) (hlg ▸ he))

end Sixteen

end Xrpld.Protocol
