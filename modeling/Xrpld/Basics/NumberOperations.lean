import Xrpld.Basics.NumberRounding

/-!
# The four operations round correctly

## What is proved

Each operation of `xrpl/basics/math/number.rs` brings its operands to a mantissa and a fraction that
stand for the exact result, and normalization or `do_round_up` does the rest: `rounded_of_run`.
-/

namespace Xrpld.Number

open Rounding Nat NumberParts

variable {mode : RoundingMode} {neg wide : Bool} {g : ArithmeticGuard} {x y z : NumberParts} {f a q r : ℚ} {e : ℤ}
  {m n fuel : ℕ} {n1 n2 : Bool} {a b : ℚ}

/-! ### Operands -/

variable {sc : MantissaScale}

theorem eq_zero_of_normalized (h : x.isNormalized sc) (hm : x.mantissa = 0) : x = .zero := by
  obtain ⟨neg, mantissa, exponent⟩ := x
  subst hm
  simp only [NumberParts.isNormalized, if_true, Bool.and_eq_true, Bool.not_eq_true', decide_eq_true_iff] at h
  rw [NumberParts.zero, h.1, h.2]

/-- A normalized number other than zero. -/
structure Normal (x : NumberParts) : Prop where
  mantissa : MantissaOk x.mantissa
  ge : minExponent ≤ x.exponent
  le : x.exponent ≤ maxExponent

theorem normal_of_ne_zero (h : x.isNormalized .large330) (hx : x ≠ .zero) : Normal x := by
  have hm : x.mantissa ≠ 0 := fun h0 => hx (eq_zero_of_normalized h h0)
  simp only [isNormalized, hm, if_false, Bool.and_eq_true, Bool.or_eq_true, decide_eq_true_iff] at h
  obtain ⟨⟨⟨⟨hi, ha⟩, he⟩, hg⟩, hl⟩ := h
  exact ⟨⟨hi, lt_of_le_of_lt ha (by decide), he⟩, hg, hl⟩

theorem value_zero : NumberParts.zero.value = 0 := by simp [NumberParts.value, NumberParts.zero]

/-- The exact result rounded, unless the answer is zero. -/
def Answers (mode : RoundingMode) (q : ℚ) (z : NumberParts) : Prop := z.mantissa ≠ 0 → RoundedTo grid mode q z.value

theorem Rounds.answers (h : Rounds mode neg a z) (hq : q = signed neg a) : Answers mode q z := by
  rw [Answers, hq]
  exact h

theorem RoundedTo.refl {S : Set ℚ} (hq : q ∈ S) : RoundedTo S mode q q := by
  cases mode with
  | toNearest => exact ⟨hq, fun s _ => by rw [sub_self, abs_zero]; exact abs_nonneg _⟩
  | towardsZero => exact ⟨hq, le_rfl, fun s _ _ => by rw [sub_self, abs_zero]; exact abs_nonneg _⟩
  | downward => exact ⟨⟨hq, le_rfl⟩, fun s hs => hs.2⟩
  | upward => exact ⟨⟨hq, le_rfl⟩, fun s hs => hs.2⟩

theorem Normal.mem_grid (h : Normal x) : x.value ∈ grid := .inr ⟨x.negative, x.mantissa, x.exponent, h.mantissa, value_eq⟩

/-- An operand that is returned as it is. -/
theorem answers_self (h : x.isNormalized .large330) (hq : q = x.value) : Answers mode q x := by
  intro h0
  rw [hq]
  exact RoundedTo.refl (normal_of_ne_zero h fun hz => h0 (by rw [hz]; rfl)).mem_grid

theorem signed_add : signed neg (a + b) = signed neg a + signed neg b := by
  cases neg <;> simp [signed, add_comm]

/-! ### Multiplication -/

theorem signed_mul : signed (n1 ^^ n2) (a * b) = signed n1 a * signed n2 b := by
  cases n1 <;> cases n2 <;> simp [signed]

/-- The digits of a product that a mantissa may not have are dropped. -/
theorem dropProduct_holds (h : Holds a f g x) (ha : Exact g f) (ho : maxRepUp ≤ 10 * x.mantissa) :
    wp (whileLoop .outOfFuel (fun s : ArithmeticGuard × NumberParts =>
      decide (mantissaRangeMax .large330 < s.2.mantissa) || decide (repLimit .large330 < s.2.mantissa)) dropDigit fuel (g, x))
      (fun s _ => s.2.negative = x.negative ∧ maxRepUp ≤ 10 * s.2.mantissa ∧ s.2.mantissa ≤ maxRepUp ∧
        ∃ f', Holds a f' s.1 s.2 ∧ Exact s.1 f') ⊤ ⊤ wide := by
  refine wp_imp (wp_whileLoop (fun _ s _ => s.2.negative = x.negative ∧ maxRepUp ≤ 10 * s.2.mantissa ∧
    ∃ f', Holds a f' s.1 s.2 ∧ Exact s.1 f') ⟨rfl, ho, f, h, ha⟩ (fun _ s _ hs hc => ?_) fun _ _ _ _ => trivial)
    (fun s _ hs => ?_)
  · obtain ⟨hn, hl, f', hf, -⟩ := hs
    have hp : maxRepUp < s.2.mantissa := by
      have hm : maxRepUp ≤ mantissaRangeMax .large330 := by decide
      have hlm : repLimit .large330 = maxRepUp := rfl
      rw [Bool.or_eq_true, decide_eq_true_iff, decide_eq_true_iff] at hc
      omega
    rw [dropDigit, wp_bind, checkedI32, wp_ite]
    refine ⟨fun _ => ⟨hn, ?_, _, hf.drop⟩, fun _ => trivial⟩
    have hu : maxRepUp = 9223372036854775810 := rfl
    simp only
    omega
  · obtain ⟨hc, -, hn, hl, f', hf, hx⟩ := hs
    rw [Bool.or_eq_false_iff, decide_eq_false_iff_not, decide_eq_false_iff_not] at hc
    exact ⟨hn, hl, not_lt.mp hc.2, f', hf, hx⟩

theorem tryMul_answers (hx : x.isNormalized .large330) (hy : y.isNormalized .large330) :
    wp (tryMul fuel .large330 mode x y) (fun z _ => Answers mode (x.value * y.value) z) ⊤ ⊤ wide := by
  rw [tryMul, wp_ite]
  refine ⟨fun hx0 => ?_, fun hx0 => ?_⟩
  · exact fun h0 => absurd (by rw [hx0]; rfl) h0
  rw [wp_ite]
  refine ⟨fun _ h0 => absurd rfl h0, fun hy0 => ?_⟩
  have hX := normal_of_ne_zero hx hx0
  have hY := normal_of_ne_zero hy hy0
  rw [wp_bind, checkedU128, wp_ite]
  refine ⟨fun _ => ?_, fun _ => trivial⟩
  rw [wp_pure, wp_bind, checkedI32, wp_ite]
  refine ⟨fun _ => ?_, fun _ => trivial⟩
  rw [wp_pure, wp_bind]
  have hr : Holds ((x.mantissa * 10 ^ x.exponent) * (y.mantissa * 10 ^ y.exponent)) 0 { negative := x.negative ^^ y.negative }
      ⟨x.negative ^^ y.negative, x.mantissa * y.mantissa, x.exponent + y.exponent⟩ := by
    refine ⟨sums_new.toSums, ?_, rfl⟩
    rw [zpow_add₀ (by norm_num : (10 : ℚ) ≠ 0)]
    push_cast
    ring
  have ho : maxRepUp ≤ 10 * (x.mantissa * y.mantissa) := by
    have hm : 10 ^ 18 * 10 ^ 18 ≤ x.mantissa * y.mantissa := Nat.mul_le_mul hX.mantissa.ge hY.mantissa.ge
    exact le_trans (by decide) (Nat.le_mul_of_pos_left _ (by norm_num : 0 < 10) |>.trans (Nat.mul_le_mul_left 10 hm))
  refine wp_imp (dropProduct_holds hr sums_new ho) (fun s _ hs => ?_)
  obtain ⟨hn, hl, he, f', hf, ha⟩ := hs
  rw [wp_bind]
  refine wp_imp (doRoundUp_rounds ha hf.sign hl he hf.eq) (fun z _ hz => ?_)
  refine wp_imp (finish_rounds hz) (fun w _ hw => hw.answers ?_)
  rw [hn, signed_mul, ← value_eq, ← value_eq]

/-! ### Division -/

/-- The quotient of two numbers, from a quotient of their mantissas with a remainder. -/
theorem div_eq_of_mul_add {b r : ℕ} (k : ℕ) {c d : ℤ} (hb : 0 < b) (hi : m * 10 ^ k = b * n + r) :
    ((m : ℚ) * 10 ^ c) / (b * 10 ^ d) = ((n : ℚ) + r / b) * 10 ^ (c - d - k) := by
  have hd : (m : ℚ) * 10 ^ k = b * n + r := by exact_mod_cast hi
  rw [zpow_sub₀ (by norm_num : (10 : ℚ) ≠ 0), zpow_sub₀ (by norm_num : (10 : ℚ) ≠ 0), zpow_natCast]
  field_simp
  exact hd

/-- A remainder is a fraction of the divisor. -/
theorem fraction_lt_one {b r : ℕ} (h : r < b) : 0 ≤ (r : ℚ) / b ∧ (r : ℚ) / b < 1 := by
  have hb : (0 : ℚ) < b := by exact_mod_cast (zero_le r).trans_lt h
  exact ⟨by positivity, (div_lt_one hb).mpr (by exact_mod_cast h)⟩

theorem fraction_eq_zero_iff {b r : ℕ} (h : r < b) : (r : ℚ) / b = 0 ↔ r = 0 := by
  have hb : (b : ℚ) ≠ 0 := by exact_mod_cast ((zero_le r).trans_lt h).ne'
  rw [div_eq_zero_iff, or_iff_left hb, cast_eq_zero]

/-- **The quotient of the mantissas** and the fraction that its remainder is. -/
theorem quotient_holds (hx : Normal x) (hy : Normal y) :
    wp (quotient .large330 x y) (fun s _ => ∃ f : ℚ, 0 ≤ f ∧ f < 1 ∧ (s.2.2 = false ↔ f = 0) ∧ Negligible s.1 f ∧
      (x.mantissa * 10 ^ x.exponent) / (y.mantissa * 10 ^ y.exponent) = ((s.1 : ℚ) + f) * 10 ^ s.2.1) ⊤ ⊤ wide := by
  have hy0 : 0 < y.mantissa := lt_of_lt_of_le (by norm_num) hy.mantissa.ge
  have hq : (0 : ℚ) < y.mantissa := by exact_mod_cast hy0
  rw [quotient, wp_bind, checkedU128, wp_ite]
  refine ⟨fun _ => ?_, fun _ => trivial⟩
  rw [wp_pure, wp_bind, divU128, wp_ite]
  refine ⟨fun _ => trivial, fun _ => ?_⟩
  rw [wp_pure, wp_bind, checkedI32, wp_ite]
  refine ⟨fun _ => ?_, fun _ => trivial⟩
  rw [wp_pure, wp_bind, checkedI32, wp_ite]
  refine ⟨fun _ => ?_, fun _ => trivial⟩
  rw [wp_pure]
  generalize hz : x.mantissa * 100000000000000000 / y.mantissa = zm
  generalize hr : x.mantissa * 100000000000000000 % y.mantissa = rem
  have hi : x.mantissa * 100000000000000000 = y.mantissa * zm + rem := by
    rw [← hz, ← hr]
    exact (div_add_mod _ _).symm
  have he : rem < y.mantissa := hr ▸ mod_lt _ hy0
  have hm : 10 ^ 16 ≤ zm := by
    rw [← hz, le_div_iff_mul_le hy0]
    have h1 := hx.mantissa.ge
    have h2 := hy.mantissa.lt
    omega
  rw [wp_ite]
  refine ⟨fun h0 => ?_, fun h0 => ?_⟩
  · have hr0 : rem = 0 := h0.resolve_left (by decide)
    refine ⟨0, le_rfl, one_pos, by simp, .inl rfl, ?_⟩
    have heq := div_eq_of_mul_add 17 (c := x.exponent) (d := y.exponent) hy0 hi
    rw [hr0, cast_zero, zero_div] at heq
    exact heq
  rw [wp_bind, u128, wp_ite]
  refine ⟨fun _ => ?_, fun _ => trivial⟩
  rw [wp_pure]
  generalize hc : rem * 100000 / y.mantissa = correction
  generalize hr' : rem * 100000 % y.mantissa = rem'
  have hd : rem * 100000 = y.mantissa * correction + rem' := by
    rw [← hc, ← hr']
    exact (div_add_mod _ _).symm
  have hre : rem' < y.mantissa := hr' ▸ mod_lt _ hy0
  rw [wp_ite]
  refine ⟨fun hc0 => ?_, fun hc0 => ?_⟩
  · -- the remainder is too small for another five digits
    rw [hc0, mul_zero, zero_add] at hd
    refine ⟨(rem : ℚ) / y.mantissa, (fraction_lt_one he).1, (fraction_lt_one he).2, ?_, .inr (.inr ⟨0, by omega, hm, ?_⟩),
      div_eq_of_mul_add 17 hy0 hi⟩
    · rw [fraction_eq_zero_iff he, Bool.and_eq_false_iff, decide_eq_false_iff_not, not_not, or_iff_right (by decide)]
      omega
    · rw [pow_zero, div_mul_eq_mul_div, div_lt_one hq]
      have : rem * 100000 < y.mantissa := hd ▸ hre
      exact_mod_cast this
  · rw [wp_bind, checkedU128, wp_ite]
    refine ⟨fun _ => ?_, fun _ => trivial⟩
    rw [wp_pure, wp_bind, checkedI32, wp_ite]
    refine ⟨fun _ => ?_, fun _ => trivial⟩
    rw [wp_pure, wp_bind, checkedU128, wp_ite]
    refine ⟨fun _ => ?_, fun _ => trivial⟩
    have hdi : x.mantissa * 10 ^ 22 = y.mantissa * (zm * 100000 + correction) + rem' := by
      calc x.mantissa * 10 ^ 22 = x.mantissa * 100000000000000000 * 100000 := by ring
        _ = y.mantissa * zm * 100000 + rem * 100000 := by rw [hi, add_mul]
        _ = y.mantissa * (zm * 100000 + correction) + rem' := by rw [hd]; ring
    refine ⟨(rem' : ℚ) / y.mantissa, (fraction_lt_one hre).1, (fraction_lt_one hre).2, ?_, .inr (.inl ?_), ?_⟩
    · rw [fraction_eq_zero_iff hre, Bool.and_eq_false_iff, decide_eq_false_iff_not, not_not, or_iff_right (by decide)]
    · simp only
      omega
    · have heq := div_eq_of_mul_add 22 (c := x.exponent) (d := y.exponent) hy0 hdi
      rw [heq, show x.exponent - y.exponent - (22 : ℕ) = x.exponent - y.exponent - 17 - 5 by push_cast; ring]

theorem signed_div : signed (n1 ^^ n2) (a / b) = signed n1 a / signed n2 b := by
  cases n1 <;> cases n2 <;> simp [signed, neg_div, div_neg]

theorem tryDiv_answers (hx : x.isNormalized .large330) (hy : y.isNormalized .large330) :
    wp (tryDiv fuel .large330 mode x y) (fun z _ => Answers mode (x.value / y.value) z) ⊤ ⊤ wide := by
  rw [tryDiv, wp_ite]
  refine ⟨fun _ => trivial, fun hy0 => ?_⟩
  rw [wp_ite]
  refine ⟨fun hx0 h0 => absurd (by rw [hx0]; rfl) h0, fun hx0 => ?_⟩
  rw [wp_bind]
  refine wp_imp (quotient_holds (normal_of_ne_zero hx hx0) (normal_of_ne_zero hy hy0)) (fun s _ hs => ?_)
  obtain ⟨f, hf, hf1, hd, hm, he⟩ := hs
  refine wp_imp (normalize_rounds hf hf1 hd hm he) (fun z _ hz => hz.answers ?_)
  rw [signed_div, ← value_eq, ← value_eq]

/-! ### Alignment -/

/-- The last digit of the guard can be taken back. -/
def Popable (g : ArithmeticGuard) (f : ℚ) : Prop :=
  ∃ f', g.pop.1.toNat ≤ 9 ∧ f = (g.pop.1.toNat + f') / 10 ∧ Sums g.pop.2 f'

/-- **Two numbers on their way to one exponent** are the two they were, with the fraction `f` dropped. -/
structure Shifted (a b : Alignment) (f : ℚ) : Prop where
  sums : Sums b.guard f
  shrink : (a.shrinkM : ℚ) * 10 ^ a.shrinkE = (b.shrinkM + f) * 10 ^ b.shrinkE
  expand : (a.expandM : ℚ) * 10 ^ a.expandE = b.expandM * 10 ^ b.expandE
  le : b.shrinkE ≤ b.expandE
  ge : minExponent ≤ b.shrinkE
  lt : b.shrinkM < 10 ^ 19

theorem Shifted.step_shrink {a b : Alignment} (h : Shifted a b f) (hl : b.shrinkE < b.expandE) :
    wp b.shrink (fun b' _ => Shifted a b' (((b.shrinkM % 10 : ℕ) + f) / 10) ∧ b'.expandM = b.expandM ∧
      b'.expandE = b.expandE ∧ b'.shrinkM = b.shrinkM / 10 ∧ Popable b'.guard (((b.shrinkM % 10 : ℕ) + f) / 10))
      ⊤ ⊤ wide := by
  have hd : (lastDigit b.shrinkM).toNat ≤ 9 := by
    rw [toNat_lastDigit]
    omega
  have hp := h.sums.push hd
  obtain ⟨hg, hr⟩ := h.sums.pop_push hd
  rw [toNat_lastDigit] at hp
  rw [Alignment.shrink, wp_bind, checkedI32, wp_ite]
  refine ⟨fun _ => ⟨⟨hp.toSums, ?_, h.expand, ?_, ?_, ?_⟩, rfl, rfl, rfl, f, ?_, ?_, hr⟩, fun _ => trivial⟩
  · have hm : (b.shrinkM : ℚ) = 10 * (b.shrinkM / 10 : ℕ) + (b.shrinkM % 10 : ℕ) := by
      exact_mod_cast (div_add_mod b.shrinkM 10).symm
    rw [h.shrink, ten_zpow_succ]
    nth_rewrite 1 [hm]
    ring
  · exact hl
  · have := h.ge
    simp only
    omega
  · have := h.lt
    simp only
    omega
  · rw [hg]
    exact hd
  · rw [hg, toNat_lastDigit]

theorem Shifted.step_expand {a b : Alignment} (h : Shifted a b f) (hl : b.shrinkE < b.expandE) :
    wp b.expand (fun b' _ => Shifted a b' f) ⊤ ⊤ wide := by
  rw [Alignment.expand, wp_bind, checkedU128, wp_ite]
  refine ⟨fun _ => ?_, fun _ => trivial⟩
  rw [wp_pure, wp_bind, checkedI32, wp_ite]
  refine ⟨fun _ => ⟨h.sums, h.shrink, ?_, ?_, h.ge, h.lt⟩, fun _ => trivial⟩
  · have hs : (10 : ℚ) ^ b.expandE = 10 ^ (b.expandE - 1) * 10 := by rw [← ten_zpow_succ, sub_add_cancel]
    rw [h.expand, hs]
    push_cast
    ring
  · simp only
    omega

/-- Trailing zeros go first, and then the other number gets digits: nothing is lost. -/
theorem adjustExact_holds {a : Alignment} (h : Shifted a a 0) :
    wp (a.adjustExact fuel .large330) (fun b _ => Shifted a b 0 ∧ (b.shrinkE < b.expandE → 10 ^ 21 ≤ b.expandM))
      ⊤ ⊤ wide := by
  rw [Alignment.adjustExact, if_pos (by decide), wp_bind]
  refine wp_imp (wp_whileLoop (fun _ b _ => Shifted a b 0) h (fun _ b _ hb hc => ?_) fun _ _ _ _ => trivial)
    (fun b _ hb => ?_)
  · rw [Bool.and_eq_true, decide_eq_true_iff, decide_eq_true_iff] at hc
    refine wp_imp (hb.step_shrink hc.1) (fun b' _ hb' => ?_)
    rw [hc.2, cast_zero, add_zero, zero_div] at hb'
    exact hb'.1
  · obtain ⟨-, -, hb⟩ := hb
    refine wp_imp (wp_whileLoop (fun _ b _ => Shifted a b 0) hb (fun _ b _ hb hc => ?_) fun _ _ _ _ => trivial)
      (fun b' _ hb' => ?_)
    · rw [Bool.and_eq_true, Bool.and_eq_true, decide_eq_true_iff] at hc
      exact hb.step_expand hc.1.1
    · obtain ⟨hc, -, hb'⟩ := hb'
      refine ⟨hb', fun hl => ?_⟩
      have hm := hb'.ge
      have hu : upperLimit .large330 = 10 ^ 21 := rfl
      rw [hu, decide_eq_true hl, Bool.true_and, decide_eq_true (by omega), Bool.true_and,
        decide_eq_false_iff_not, not_lt] at hc
      exact hc

/-- **Alignment loses digits only of a number that is far smaller.** -/
theorem adjust_holds {a : Alignment} (h : Shifted a a 0) :
    wp (a.adjust fuel .large330) (fun b _ => b.shrinkE = b.expandE ∧ ∃ f, Shifted a b f ∧
      (f ≠ 0 → 10 ^ 21 ≤ b.expandM ∧ b.shrinkM < 10 ^ 18 ∧ Popable b.guard f)) ⊤ ⊤ wide := by
  rw [Alignment.adjust, wp_bind]
  refine wp_imp (adjustExact_holds h) (fun b _ hb => ?_)
  refine wp_imp (wp_whileLoop (fun _ b _ => (b.shrinkE < b.expandE → 10 ^ 21 ≤ b.expandM) ∧ ∃ f, Shifted a b f ∧
      (f ≠ 0 → 10 ^ 21 ≤ b.expandM ∧ b.shrinkM < 10 ^ 18 ∧ Popable b.guard f))
    ⟨hb.2, 0, hb.1, fun h0 => absurd rfl h0⟩ (fun _ b _ hb hc => ?_) fun _ _ _ _ => trivial)
    (fun b _ hb => ?_)
  · obtain ⟨ha, f, hf, -⟩ := hb
    have hl := of_decide_eq_true hc
    refine wp_imp (hf.step_shrink hl) (fun b' _ hb' => ?_)
    obtain ⟨hf', hm, he, hs, hp⟩ := hb'
    have hw := hf.lt
    exact ⟨fun _ => hm ▸ ha hl, _, hf', fun _ => ⟨hm ▸ ha hl, by omega, hp⟩⟩
  · obtain ⟨hc, -, -, f, hf, ha⟩ := hb
    exact ⟨le_antisymm hf.le (not_lt.mp (of_decide_eq_false hc)), f, hf, ha⟩

/-! ### Addition -/

/-- **The exact sum while it is worked on**: both numbers have one exponent, and `small` lost the fraction `f`. -/
structure Aligned (q : ℚ) (g : ArithmeticGuard) (small big : NumberParts) (f : ℚ) : Prop where
  sums : Sums g f
  exponent : small.exponent = big.exponent
  eq : q = signed small.negative ((small.mantissa + f) * 10 ^ big.exponent) +
    signed big.negative (big.mantissa * 10 ^ big.exponent)
  far : f ≠ 0 → 10 ^ 21 ≤ big.mantissa ∧ small.mantissa < 10 ^ 18 ∧ Popable g f

/-- Either number may be the one that lost digits. -/
def EitherAligned (q : ℚ) (g : ArithmeticGuard) (x y : NumberParts) (f : ℚ) : Prop :=
  Aligned q g x y f ∨ Aligned q g y x f

theorem shifted_self (hx : Normal x) (hl : x.exponent < y.exponent) :
    Shifted ⟨{ negative := neg }, y.mantissa, y.exponent, x.mantissa, x.exponent⟩
      ⟨{ negative := neg }, y.mantissa, y.exponent, x.mantissa, x.exponent⟩ 0 :=
  ⟨sums_new.toSums, by rw [add_zero], rfl, hl.le, hx.ge, hx.mantissa.lt⟩

/-- What an alignment of two numbers says of their sum. -/
theorem aligned_of_shifted {b : Alignment} (h : Shifted ⟨g, y.mantissa, y.exponent, x.mantissa, x.exponent⟩ b f)
    (he : b.shrinkE = b.expandE) (hf : f ≠ 0 → 10 ^ 21 ≤ b.expandM ∧ b.shrinkM < 10 ^ 18 ∧ Popable b.guard f) :
    Aligned (x.value + y.value) b.guard { x with mantissa := b.shrinkM, exponent := b.shrinkE }
      { y with mantissa := b.expandM, exponent := b.expandE } f := by
  refine ⟨h.sums, he, ?_, hf⟩
  have hs := h.shrink
  have hx := h.expand
  rw [value_eq, value_eq, hs, hx, he]

theorem align_holds (hx : Normal x) (hy : Normal y) :
    wp (align fuel .large330 x y) (fun s _ => ∃ f, EitherAligned (x.value + y.value) s.1 s.2.1 s.2.2 f) ⊤ ⊤ wide := by
  rw [align, wp_ite]
  refine ⟨fun hl => ?_, fun hl => ?_⟩
  · rw [wp_bind]
    refine wp_imp (adjust_holds (shifted_self hx hl)) (fun b _ hb => ?_)
    obtain ⟨he, f, hf, ha⟩ := hb
    exact ⟨f, .inl (aligned_of_shifted hf he ha)⟩
  rw [wp_ite]
  refine ⟨fun hg => ?_, fun hg => ?_⟩
  · rw [wp_bind]
    refine wp_imp (adjust_holds (shifted_self hy hg)) (fun b _ hb => ?_)
    obtain ⟨he, f, hf, ha⟩ := hb
    exact ⟨f, .inr (add_comm x.value y.value ▸ aligned_of_shifted hf he ha)⟩
  · have he : x.exponent = y.exponent := le_antisymm (not_lt.mp hg) (not_lt.mp hl)
    refine ⟨0, .inl ⟨sums_new.toSums, he, ?_, fun h0 => absurd rfl h0⟩⟩
    rw [value_eq, value_eq, add_zero, he]

/-- **The sum of the mantissas**: what is left of it to normalize. -/
def Combined (q : ℚ) (s : ArithmeticGuard × NumberParts) : Prop :=
  s.2.mantissa ≠ 0 → ∃ f, 0 ≤ f ∧ f < 1 ∧ (s.1.empty = true ↔ f = 0) ∧ Negligible s.2.mantissa f ∧
    q = signed s.2.negative ((s.2.mantissa + f) * 10 ^ s.2.exponent)

theorem Aligned.negligible (h : Aligned q g x y f) (hm : y.mantissa ≤ m) : Negligible m f := by
  by_cases hf : f = 0
  · exact .inl hf
  · have := (h.far hf).1
    exact .inr (.inl (by omega))

theorem addMantissas_combined (h : EitherAligned q g x y f) (hs : x.negative = y.negative) :
    wp (addMantissas mode fuel .large330 g x y) (fun s _ => Combined q s) ⊤ ⊤ wide := by
  rw [addMantissas, wp_bind, checkedU128, wp_ite]
  refine ⟨fun _ => ?_, fun _ => trivial⟩
  intro _
  obtain h | h := h
  · refine ⟨f, h.sums.nonneg, h.sums.lt_one, h.sums.empty_iff, h.negligible (le_add_left _ _), ?_⟩
    rw [h.eq, hs, h.exponent, ← signed_add]
    push_cast
    ring_nf
  · refine ⟨f, h.sums.nonneg, h.sums.lt_one, h.sums.empty_iff, h.negligible (le_add_right _ _), ?_⟩
    rw [h.eq, hs, ← signed_add]
    push_cast
    ring_nf

/-! ### Subtraction -/

/-- **A difference while it is worked on**: the fraction `f` is still to be taken from it. -/
structure Owes (q f : ℚ) (g : ArithmeticGuard) (x : NumberParts) : Prop where
  sums : Sums g f
  eq : q = signed x.negative ((x.mantissa - f) * 10 ^ x.exponent)

theorem signed_not {a : ℚ} : signed (!neg) a = -signed neg a := by cases neg <;> simp [signed]

theorem signed_neg {a : ℚ} : signed neg (-a) = -signed neg a := by cases neg <;> simp [signed]

/-- The magnitude of a difference of two numbers with different signs. -/
theorem signed_sub (h : n1 ≠ n2) : signed n1 a + signed n2 b = signed n1 (a - b) := by
  have hn : n2 = !n1 := by revert h; cases n1 <;> cases n2 <;> simp
  rw [hn, signed_not, sub_eq_add_neg, signed_add, signed_neg]

theorem difference_owes (h : EitherAligned q g x y f) (hs : x.negative ≠ y.negative) :
    Owes q f g (difference x y) ∧ (f ≠ 0 → 10 ^ 21 + 9 ≤ 10 * (difference x y).mantissa ∧ Popable g f) := by
  obtain h | h := h <;> rw [difference] <;> split_ifs with hl
  · have hf : f = 0 := by
      by_contra hf
      have := h.far hf
      omega
    refine ⟨⟨h.sums, ?_⟩, fun h0 => absurd hf h0⟩
    rw [h.eq, hf, signed_sub hs, ← h.exponent]
    push_cast [hl.le]
    ring_nf
  · refine ⟨⟨h.sums, ?_⟩, fun hf => ⟨?_, (h.far hf).2.2⟩⟩
    · rw [h.eq, add_comm, signed_sub hs.symm]
      push_cast [not_lt.mp hl]
      ring_nf
    · have := h.far hf
      simp only
      omega
  · refine ⟨⟨h.sums, ?_⟩, fun hf => ⟨?_, (h.far hf).2.2⟩⟩
    · rw [h.eq, add_comm, signed_sub hs]
      push_cast [hl.le]
      ring_nf
    · have := h.far hf
      simp only
      omega
  · have hf : f = 0 := by
      by_contra hf
      have := h.far hf
      omega
    refine ⟨⟨h.sums, ?_⟩, fun h0 => absurd hf h0⟩
    rw [h.eq, hf, signed_sub hs.symm, ← h.exponent]
    push_cast [not_lt.mp hl]
    ring_nf

/-- The difference takes a digit back. -/
theorem takeDigit_owes (h : Owes q f g x) (hp : Popable g f) (hm : 0 < x.mantissa) :
    wp (takeDigit (checkedU128 .overflow) (g, x)) (fun s _ => ∃ f', Owes q f' s.1 s.2 ∧
      10 * x.mantissa ≤ s.2.mantissa + 9) ⊤ ⊤ wide := by
  obtain ⟨f', hd, hf, hs⟩ := hp
  rw [takeDigit, wp_bind, checkedU128, wp_ite]
  refine ⟨fun _ => ?_, fun _ => trivial⟩
  rw [wp_pure]
  have hl : g.pop.1.toNat ≤ x.mantissa * 10 := by omega
  rw [wp_bind, saturatingSub, if_pos hl, wp_pure, wp_bind, checkedI32, wp_ite]
  refine ⟨fun _ => ⟨f', ⟨hs, ?_⟩, ?_⟩, fun _ => trivial⟩
  · have hu : (10 : ℚ) ^ x.exponent = 10 ^ (x.exponent - 1) * 10 := by rw [← ten_zpow_succ, sub_add_cancel]
    rw [h.eq, hu, hf]
    push_cast [hl]
    ring_nf
  · simp only
    omega

/-- The difference takes digits back until it has enough of them. -/
theorem takeDigits_owes (h : Owes q f g x) (ha : f ≠ 0 → 10 ^ 21 + 9 ≤ 10 * x.mantissa ∧ Popable g f) :
    wp (takeDigits fuel .large330 (g, x)) (fun s _ => ∃ f', Owes q f' s.1 s.2 ∧ (f' ≠ 0 → 10 ^ 21 ≤ s.2.mantissa))
      ⊤ ⊤ wide := by
  have hu : upperLimit .large330 = 10 ^ 21 := rfl
  -- one digit is enough
  refine wp_imp (wp_whileLoop (fun _ s _ => ∃ f', Owes q f' s.1 s.2 ∧
    (f' ≠ 0 → 10 ^ 21 ≤ s.2.mantissa ∨ (10 ^ 21 + 9 ≤ 10 * s.2.mantissa ∧ Popable s.1 f'))) ⟨f, h, fun hf => .inr (ha hf)⟩
    (fun _ s _ hs hc => ?_) fun _ _ _ _ => trivial) (fun s _ hs => ?_)
  · obtain ⟨f', hf', hfa⟩ := hs
    rw [Bool.and_eq_true, decide_eq_true_iff, Bool.not_eq_true', hu] at hc
    have hn : f' ≠ 0 := fun h0 => by rw [hf'.sums.empty_iff.mpr h0] at hc; exact absurd hc.2 (by decide)
    obtain ⟨hw, hp⟩ := (hfa hn).resolve_left (not_le.mpr hc.1)
    refine wp_imp (takeDigit_owes hf' hp (by omega)) (fun s' _ hs' => ?_)
    obtain ⟨f'', hf'', hm⟩ := hs'
    exact ⟨f'', hf'', fun _ => .inl (by omega)⟩
  · obtain ⟨hc, -, f', hf', hfa⟩ := hs
    refine ⟨f', hf', fun hn => ?_⟩
    have he : s.1.empty = false := Bool.eq_false_iff.mpr fun h0 => hn (hf'.sums.empty_iff.mp h0)
    rw [he, Bool.not_false, Bool.and_true, decide_eq_false_iff_not, not_lt] at hc
    exact hc

/-- **Rounding down leaves the rest to normalization**: one less, with what is missing as the fraction. -/
theorem doRoundDown_combined (h : Owes q f g x) (ha : f ≠ 0 → 10 ^ 21 ≤ x.mantissa) :
    wp (doRoundDown mode .large330 g x) (fun y _ => Combined q (g, y)) ⊤ ⊤ wide := by
  rw [doRoundDown]
  rw [if_pos (by decide), wp_ite]
  refine ⟨fun hg => ?_, fun hg => ?_⟩
  · have he : g.empty = false := by rwa [Bool.not_eq_true'] at hg
    have hn : f ≠ 0 := fun h0 => by rw [h.sums.empty_iff.mpr h0] at he; exact absurd he (by decide)
    have hm := ha hn
    rw [wp_bind, subU128, wp_ite]
    refine ⟨fun _ => ?_, fun _ => trivial⟩
    have hi : mantissaRangeMin .large330 = 10 ^ 18 := rfl
    rw [wp_pure, bringIntoRange, if_neg (by simp only; omega), wp_pure, zeroIfTooSmall]
    split_ifs
    · exact fun h0 => absurd rfl h0
    · have hp := h.sums.nonneg.lt_of_ne' hn
      have hl := h.sums.lt_one
      refine fun _ => ⟨1 - f, by linarith, by linarith, ?_, .inr (.inl (by simp only; omega)), ?_⟩
      · rw [he]
        exact iff_of_false (by decide) (by linarith)
      · rw [h.eq]
        push_cast [show 1 ≤ x.mantissa by omega]
        ring_nf
  · have he : g.empty := by simpa using hg
    have hf := h.sums.empty_iff.mp he
    refine wp_imp bringIntoRange_value (fun y _ hy h0 => ⟨0, le_rfl, one_pos, iff_of_true he rfl, .inl rfl, ?_⟩)
    rw [add_zero, ← value_eq, hy h0, h.eq, hf, sub_zero, ← value_eq]

theorem combineMantissas_combined (h : EitherAligned q g x y f) :
    wp (combineMantissas mode fuel .large330 g x y) (fun s _ => Combined q s) ⊤ ⊤ wide := by
  rw [combineMantissas, wp_ite]
  refine ⟨fun hg => addMantissas_combined h hg, fun hg => ?_⟩
  obtain ⟨ho, ha⟩ := difference_owes h hg
  rw [subMantissas, wp_bind]
  refine wp_imp (takeDigits_owes ho ha) (fun s _ hs => ?_)
  obtain ⟨f', hf', hf⟩ := hs
  rw [wp_bind]
  exact wp_imp (doRoundDown_combined hf' hf) (fun _ _ h => h)

theorem tryAdd_answers (hx : x.isNormalized .large330) (hy : y.isNormalized .large330) :
    wp (tryAdd fuel .large330 mode x y) (fun z _ => Answers mode (x.value + y.value) z) ⊤ ⊤ wide := by
  rw [tryAdd, wp_ite]
  refine ⟨fun hy0 => answers_self hx (by rw [hy0, value_zero, add_zero]), fun hy0 => ?_⟩
  rw [wp_ite]
  refine ⟨fun hx0 => answers_self hy (by rw [hx0, value_zero, zero_add]), fun hx0 => ?_⟩
  rw [wp_ite]
  refine ⟨fun _ h0 => absurd rfl h0, fun _ => ?_⟩
  rw [wp_bind]
  refine wp_imp (align_holds (normal_of_ne_zero hx hx0) (normal_of_ne_zero hy hy0)) (fun s _ hs => ?_)
  obtain ⟨f, hf⟩ := hs
  simp only
  rw [wp_bind]
  refine wp_imp (combineMantissas_combined hf) (fun s _ hs => ?_)
  obtain ⟨g, z⟩ := s
  by_cases hz : z.mantissa = 0
  · cases fuel with
    | zero => trivial
    | succ fuel =>
      rw [normalizeArithmeticPartsWithDropped, if_pos hz]
      exact fun h0 => absurd rfl h0
  · obtain ⟨f', hf', hf1, he, hm, hq⟩ := hs hz
    have hd : (cuspRounding330Enabled .large330 && !g.empty) = false ↔ f' = 0 := by
      rw [← he]
      simp [cuspRounding330Enabled]
    exact wp_imp (normalize_rounds hf' hf1 hd hm rfl) (fun w _ hw => hw.answers hq)

/-! ### Answers are normalized -/

section

variable {dropped : Bool}

theorem isNormalized_zero : zero.isNormalized sc := rfl

theorem isNormalized_neg (h : x.isNormalized sc) : x.neg.isNormalized sc := by
  rw [neg]
  split_ifs with h0
  · rfl
  · simp only [isNormalized, h0, if_false] at h ⊢
    exact h

theorem value_neg : x.neg.value = -x.value := by
  rw [neg]
  split_ifs with h0
  · rw [value_zero, value, h0, cast_zero, mul_zero, zero_mul, neg_zero]
  · rw [value_eq, value_eq]
    exact signed_not

/-- Whatever comes before the last part, its answers are the answers. -/
theorem wp_bind_of_last {α β : Type} {p : Work α} {k : α → Work β} {Q : β → Prop}
    (hk : ∀ a wide, wp (k a) (fun z _ => Q z) ⊤ ⊤ wide) : wp (p >>= k) (fun z _ => Q z) ⊤ ⊤ wide := by
  rw [wp_bind]
  exact wp_imp (wp_true p) (fun a s _ => hk a s)

/-- A predicate that the last step gives its answers. -/
theorem normalize_of_finish {Q : NumberParts → Prop} (h0 : Q .zero)
    (h : ∀ x wide, wp (finishArithmeticResult mode sc fuel x) (fun z _ => Q z) ⊤ ⊤ wide) :
    wp (normalizeArithmeticPartsWithDropped mode sc dropped (fuel + 1) x) (fun z _ => Q z) ⊤ ⊤ wide := by
  rw [normalizeArithmeticPartsWithDropped, wp_ite]
  refine ⟨fun _ => h0, fun _ => wp_bind_of_last fun x1 _ => wp_bind_of_last fun s _ => ?_⟩
  rw [wp_ite]
  exact ⟨fun _ => h0, fun _ => wp_bind_of_last fun s _ => wp_bind_of_last fun y _ => h y _⟩

theorem finish_isNormalized : wp (finishArithmeticResult mode sc fuel x) (fun z _ => z.isNormalized sc) ⊤ ⊤ wide := by
  induction fuel using Nat.strongRecOn generalizing x wide with
  | ind fuel ih =>
    cases fuel with
    | zero => trivial
    | succ fuel =>
      rw [finishArithmeticResult, wp_ite]
      refine ⟨fun _ => isNormalized_zero, fun _ => ?_⟩
      rw [wp_ite]
      refine ⟨fun _ => trivial, fun _ => ?_⟩
      rw [wp_ite]
      refine ⟨fun _ => trivial, fun _ => ?_⟩
      rw [wp_ite]
      refine ⟨fun h => h, fun _ => ?_⟩
      cases fuel with
      | zero => trivial
      | succ fuel => exact normalize_of_finish isNormalized_zero fun y _ => ih fuel (by omega)

theorem normalize_isNormalized : wp (normalizeArithmeticPartsWithDropped mode sc dropped fuel x)
    (fun z _ => z.isNormalized sc) ⊤ ⊤ wide := by
  cases fuel with
  | zero => trivial
  | succ fuel => exact normalize_of_finish isNormalized_zero fun y _ => finish_isNormalized

end

/-! ### The operations -/

/-- An operation. -/
inductive Op where
  | add | sub | mul | div
  deriving DecidableEq

/-- The code of an operation. -/
def Op.run (op : Op) (fuel : ℕ) (scale : MantissaScale) (mode : RoundingMode) (x y : NumberParts) : Work NumberParts :=
  match op with
  | .add => tryAdd fuel scale mode x y
  | .sub => trySub fuel scale mode x y
  | .mul => tryMul fuel scale mode x y
  | .div => tryDiv fuel scale mode x y

/-- What an operation is for. -/
def Op.exact (op : Op) (p q : ℚ) : ℚ :=
  match op with
  | .add => p + q
  | .sub => p - q
  | .mul => p * q
  | .div => p / q

theorem Op.answers (op : Op) (hx : x.isNormalized .large330) (hy : y.isNormalized .large330) :
    wp (op.run fuel .large330 mode x y) (fun z _ => Answers mode (op.exact x.value y.value) z) ⊤ ⊤ wide := by
  cases op with
  | add => exact tryAdd_answers hx hy
  | sub =>
    rw [Op.run, trySub, Op.exact, sub_eq_add_neg, ← value_neg]
    exact tryAdd_answers hx (isNormalized_neg hy)
  | mul => exact tryMul_answers hx hy
  | div => exact tryDiv_answers hx hy

section

theorem tryAdd_isNormalized (hx : x.isNormalized sc) (hy : y.isNormalized sc) :
    wp (tryAdd fuel sc mode x y) (fun z _ => z.isNormalized sc) ⊤ ⊤ wide := by
  rw [tryAdd, wp_ite]
  refine ⟨fun _ => hx, fun _ => ?_⟩
  rw [wp_ite]
  refine ⟨fun _ => hy, fun _ => ?_⟩
  rw [wp_ite]
  exact ⟨fun _ => isNormalized_zero, fun _ => wp_bind_of_last fun _ _ => wp_bind_of_last fun _ _ => normalize_isNormalized⟩

theorem Op.isNormalized (op : Op) (hx : x.isNormalized sc) (hy : y.isNormalized sc) :
    wp (op.run fuel sc mode x y) (fun z _ => z.isNormalized sc) ⊤ ⊤ wide := by
  cases op with
  | add => exact tryAdd_isNormalized hx hy
  | sub => exact tryAdd_isNormalized hx (isNormalized_neg hy)
  | mul =>
    rw [Op.run, tryMul, wp_ite]
    refine ⟨fun _ => hx, fun _ => ?_⟩
    rw [wp_ite]
    refine ⟨fun _ => isNormalized_zero, fun _ => ?_⟩
    exact wp_bind_of_last fun _ _ => wp_bind_of_last fun _ _ => wp_bind_of_last fun _ _ => wp_bind_of_last fun _ _ =>
      finish_isNormalized
  | div =>
    rw [Op.run, tryDiv, wp_ite]
    refine ⟨fun _ => trivial, fun _ => ?_⟩
    rw [wp_ite]
    exact ⟨fun _ => hx, fun _ => wp_bind_of_last fun _ _ => normalize_isNormalized⟩

end

/-- The values of the normalized numbers. -/
def normalizedValues (scale : MantissaScale) : Set ℚ := { v | ∃ x : NumberParts, x.isNormalized scale = true ∧ x.value = v }

theorem normalizedValues_subset : normalizedValues .large330 ⊆ grid := by
  rintro v ⟨x, hx, rfl⟩
  by_cases h0 : x = .zero
  · exact .inl (by rw [h0, value_zero])
  · exact (normal_of_ne_zero hx h0).mem_grid

/-- **The four operations round correctly**: an answer that is not zero is the exact result rounded into the
normalized values by the mode, and it is the exact result if that is one of them. -/
theorem rounded_of_run (op : Op) (fuel : ℕ) (mode : RoundingMode) (x y z : NumberParts) (wide : Bool)
    (hx : x.isNormalized .large330 = true) (hy : y.isNormalized .large330 = true)
    (hrun : op.run fuel .large330 mode x y false = .ok (.ok z, wide)) (h0 : z.value ≠ 0) :
    RoundedTo (normalizedValues .large330) mode (op.exact x.value y.value) z.value ∧
      (op.exact x.value y.value ∈ normalizedValues .large330 → z.value = op.exact x.value y.value) := by
  have ha : Answers mode (op.exact x.value y.value) z := post_of_run (op.answers hx hy) hrun
  have hn : z.isNormalized .large330 := post_of_run (op.isNormalized hx hy) hrun
  have hm : z.mantissa ≠ 0 := by
    intro h
    rw [eq_zero_of_normalized hn h, value_zero] at h0
    exact h0 rfl
  have hr := (ha hm).mono normalizedValues_subset ⟨z, hn, rfl⟩
  exact ⟨hr, fun he => hr.eq_self he⟩

/-- A third, rounded up. -/
theorem rounded_of_run_third : RoundedTo (normalizedValues .large330) .upward (Op.exact .div
        (NumberParts.value ⟨false, 1000000000000000000, -18⟩) (NumberParts.value ⟨false, 3000000000000000000, -18⟩))
      (NumberParts.value ⟨false, 3333333333333333334, -19⟩) :=
  (rounded_of_run .div 8 .upward ⟨false, 1000000000000000000, -18⟩ ⟨false, 3000000000000000000, -18⟩
    ⟨false, 3333333333333333334, -19⟩ false (by decide) (by decide) (by decide +kernel) (by norm_num [NumberParts.value])).1

end Xrpld.Number
