import Xrpld.Basics.NumberOperations

/-!
# The four operations return

## What is proved

With normalized operands, in every scale and every mode, each operation returns: its loops and its
recursions end, no machine integer is left, and an answer is normalized (`returns_of_isNormalized`).
-/

namespace Xrpld.Number

open Nat NumberParts ArithmeticGuard

variable {mode : RoundingMode} {sc : MantissaScale} {negative dropped : Bool} {g : ArithmeticGuard} {x y z : NumberParts}
  {e : ℤ} {m n fuel : ℕ} {α β : Type}

/-! ### Computations that return -/

variable {a b : Alignment} {wide : Bool}

/-- **A computation returns**, with an answer such that `Q` or with an error, and no `u128` step of it leaves its type. -/
def Closes (p : Work α) (Q : α → Prop) : Prop :=
  wp p (fun a wide => wide = false ∧ Q a) (fun _ wide => wide = false) (fun _ => False) false

section

variable {p q : Work α} {Q R : α → Prop} {S : β → Prop} {a : α}

theorem closes_pure (h : Q a) : Closes (pure a) Q := ⟨rfl, h⟩

theorem closes_fail {err : NumberArithmeticError} : Closes (Prog.fail err) Q := rfl

theorem Closes.mono (h : Closes p R) (hQ : ∀ a, R a → Q a) : Closes p Q :=
  wp_imp h (fun a _ ha => ⟨ha.1, hQ a ha.2⟩)

theorem Closes.bind {f : α → Work β} (h : Closes p R) (hf : ∀ a, R a → Closes (f a) S) : Closes (p >>= f) S := by
  rw [Closes, wp_bind]
  refine wp_imp h (fun a wide ha => ?_)
  obtain ⟨rfl, ha⟩ := ha
  exact hf a ha

theorem closes_ite {c : Prop} [Decidable c] (hp : c → Closes p Q) (hq : ¬ c → Closes q Q) : Closes (if c then p else q) Q := by
  split_ifs with h
  · exact hp h
  · exact hq h

/-- What holds of the answers of a computation that returns. -/
theorem Closes.and (h : Closes p Q) (hR : wp p (fun a _ => R a) ⊤ ⊤ false) : Closes p fun a => Q a ∧ R a :=
  wp_mono (wp_and h hR) (fun _ _ ha => ⟨ha.1.1, ha.1.2, ha.2⟩) (fun _ _ h => h.1) fun _ h => h.1

theorem Closes.run (h : Closes p Q) : ∃ r, p false = .ok (r, false) ∧ ∀ a, r = .ok a → Q a := by
  simp only [Closes, wp] at h
  generalize p false = r at h ⊢
  obtain f | ⟨err | a, wide⟩ := r
  · exact h.elim
  · exact ⟨.error err, by rw [show wide = false from h], fun a ha => by cases ha⟩
  · obtain ⟨rfl, ha⟩ := h
    refine ⟨.ok a, rfl, fun a' ha' => ?_⟩
    cases ha'
    exact ha

/-- A loop returns if its invariant tells of the turn in which it must have ended. -/
theorem closes_whileLoop {c : α → Bool} {f : α → Work α} (I : ℕ → α → Prop) (h : I 0 a)
    (hp : ∀ j a, I j a → c a → Closes (f a) (I (j + 1))) (hs : ∀ a, I fuel a → c a = false) :
    Closes (whileLoop .outOfFuel c f fuel a) fun a' => c a' = false ∧ ∃ j, I j a' := by
  refine wp_imp (wp_whileLoop (fun j a wide => wide = false ∧ I j a) ⟨rfl, h⟩ (fun j a wide ha hc => ?_)
    (fun a _ ha hc => ?_)) (fun a wide ha => ?_)
  · obtain ⟨rfl, ha⟩ := ha
    exact hp j a ha hc
  · rw [hs a ha.2] at hc
    exact absurd hc (by decide)
  · obtain ⟨hc, j, hw, ha⟩ := ha
    exact ⟨hw, hc, j, ha⟩

end

section

variable {b k : ℕ}

theorem closes_checkedU128 (h : n < 2 ^ 128) : Closes (checkedU128 .overflow n) (· = n) := by
  rw [checkedU128, if_pos h]
  exact closes_pure rfl

theorem closes_u128 (h : n < 2 ^ 128) : Closes (u128 n) (· = n) := by
  rw [u128, if_pos h]
  exact closes_pure rfl

theorem closes_subU128 (h : k ≤ b) : Closes (subU128 b k) (· = b - k) := by
  rw [subU128, if_pos h]
  exact closes_pure rfl

theorem closes_saturatingSub (h : k ≤ b) : Closes (saturatingSub b k) (· = b - k) := by
  rw [saturatingSub, if_pos h]
  exact closes_pure rfl

theorem closes_divU128 (h : 0 < k) : Closes (divU128 b k) (· = b / k) := by
  rw [divU128, if_neg h.ne']
  exact closes_pure rfl

theorem closes_checkedI32 : Closes (checkedI32 .overflow e) (· = e) :=
  closes_ite (fun _ => closes_pure rfl) fun _ => closes_fail

theorem closes_i32 (h : |e| < 2 ^ 31) : Closes (i32 e) (· = e) := by
  rw [abs_lt] at h
  rw [i32, if_pos ⟨h.1.le, h.2⟩]
  exact closes_pure rfl

end

/-! ### Scales -/

theorem mantissaRangeMax_add_one (sc : MantissaScale) : mantissaRangeMax sc + 1 = 10 * mantissaRangeMin sc := by cases sc <;> rfl

theorem mantissaRangeMin_ge (sc : MantissaScale) : 10 ^ 15 ≤ mantissaRangeMin sc := by cases sc <;> decide

theorem mantissaRangeMin_le (sc : MantissaScale) : mantissaRangeMin sc ≤ 10 ^ 18 := by cases sc <;> decide

theorem isNormalized_intro (hi : mantissaRangeMin sc ≤ x.mantissa) (hm : x.mantissa ≤ mantissaRangeMax sc)
    (he : x.mantissa ≤ maxRep ∨ x.mantissa % 10 = 0) (hg : minExponent ≤ x.exponent) (hl : x.exponent ≤ maxExponent) :
    x.isNormalized sc := by
  have := mantissaRangeMin_ge sc
  rw [isNormalized, if_neg (by omega)]
  simp [hi, hm, he, hg, hl]

/-! ### Rounding -/

/-- The mantissas that `closeRound` brings into the range. -/
structure Closable (scale : MantissaScale) (m : ℕ) : Prop where
  ge : mantissaRangeMin scale ≤ 10 * m
  le : m ≤ mantissaRangeMax scale
  ends : m ≤ maxRep ∨ m = maxRepUp

theorem zeroIfTooSmall_isNormalized (hm : mantissaRangeMin sc ≤ x.mantissa) (ha : x.mantissa ≤ mantissaRangeMax sc)
    (he : x.mantissa ≤ maxRep ∨ x.mantissa % 10 = 0) :
    (zeroIfTooSmall sc x).exponent ≤ maxExponent → (zeroIfTooSmall sc x).isNormalized sc := by
  rw [zeroIfTooSmall]
  split_ifs with h
  · exact fun _ => isNormalized_zero
  · rw [not_or, not_lt] at h
    exact isNormalized_intro hm ha he h.1

theorem closeRound_closes (hm : Closable sc x.mantissa) (he : |x.exponent| ≤ 10 ^ 7) :
    Closes (closeRound sc x) fun z => z.isNormalized sc := by
  have ha := mantissaRangeMax_add_one sc
  have hi := mantissaRangeMin_le sc
  have hu : maxRepUp = 9223372036854775810 := rfl
  have hg := hm.ge
  have hle := hm.le
  have hd := hm.ends
  refine Closes.bind (R := fun y => y.exponent ≤ maxExponent → y.isNormalized sc) ?_ fun y hy =>
    closes_ite (fun _ => closes_fail) fun hle => closes_pure (hy (not_lt.mp hle))
  refine closes_ite (fun hl => ?_) fun hl => closes_pure (zeroIfTooSmall_isNormalized ?_ hle ?_)
  · refine (closes_u128 (by omega)).bind fun _ h1 => (closes_i32 ?_).bind fun _ h2 => closes_pure ?_
    · rw [abs_le] at he
      rw [abs_lt]
      omega
    · subst h1 h2
      exact zeroIfTooSmall_isNormalized (by simp only; omega) (by simp only; omega) (.inr (mul_mod_left _ _))
  · by_contra hc
    exact hl ⟨not_le.mp hc, .inr (by omega)⟩
  · omega

theorem safeToIncrement_iff : safeToIncrement sc m ↔ m < mantissaRangeMax sc ∧ m < maxRep := by
  rw [safeToIncrement, Bool.and_eq_true, decide_eq_true_iff, decide_eq_true_iff]

/-- The mantissa after the part for mantissas past the last small one. -/
theorem cuspPush_bounds (hg : maxRep ≤ m) (hl : m < maxRepUp) :
    maxRep ≤ (cuspPush mode g m).2 ∧ (cuspPush mode g m).2 < maxRepUp := by
  have hu : maxRepUp = 9223372036854775810 := rfl
  rw [cuspPush]
  split_ifs <;> omega

/-- Rounding of a mantissa that has room for one more. -/
theorem doRoundUp_closes_below (hg : mantissaRangeMin sc ≤ 10 * x.mantissa) (hf : safeToIncrement sc x.mantissa)
    (he : |x.exponent| ≤ 10 ^ 7) :
    Closes (doRoundUp mode sc (fuel + 1) g x) fun z => z.isNormalized sc := by
  obtain ⟨hm, hp⟩ := safeToIncrement_iff.mp hf
  have ht : pastRep sc x.mantissa = false := by
    rw [pastRep, decide_eq_false (not_lt.mpr hp.le), Bool.and_false, Bool.false_and]
  rw [doRoundUp, if_neg fun h => absurd hp (not_lt.mpr h.2.1)]
  have hs : Closable sc x.mantissa := ⟨hg, hm.le, .inl hp.le⟩
  have hn : Closable sc (x.mantissa + 1) := ⟨by omega, hm, .inl hp⟩
  refine closes_ite (fun _ => closes_ite (fun _ => ?_) fun _ => ?_) fun _ => ?_
  · rw [if_pos hf]
    exact closeRound_closes hn he
  · have hr : maxRep = 9223372036854775807 := rfl
    refine (closes_checkedU128 (by omega)).bind fun _ h => ?_
    subst h
    exact closes_ite (fun hc => absurd hc (by omega)) fun _ => closeRound_closes hn he
  · rw [if_neg (by simp [ht])]
    exact closeRound_closes hs he

theorem repLimit_eq (h : cuspRounding330Enabled sc = false) : repLimit sc = maxRep := by
  rw [repLimit, h]
  rfl

theorem maxRepUp_le_max (h : cuspRounding320Enabled sc) : maxRepUp ≤ mantissaRangeMax sc := by
  cases sc <;> first | decide | cases h

theorem cusp320_of_cusp330 (h : cuspRounding330Enabled sc) : cuspRounding320Enabled sc := by
  cases sc <;> first | rfl | cases h

theorem pastRep_iff : pastRep sc m ↔ cuspRounding330Enabled sc ∧ maxRep < m ∧ m < maxRepUp := by
  rw [pastRep, Bool.and_eq_true, Bool.and_eq_true, decide_eq_true_iff, decide_eq_true_iff, and_assoc]

/-- A mantissa that `do_round_up` may be given. -/
structure Roundable (scale : MantissaScale) (m : ℕ) : Prop where
  ge : mantissaRangeMin scale ≤ 10 * m
  le : m ≤ mantissaRangeMax scale
  limit : m ≤ repLimit scale

/-- The mantissa that is rounded is one that may be. -/
theorem roundable_cuspPush (hc : cuspRounding330Enabled sc ∧ maxRep ≤ m ∧ m < maxRepUp) :
    Roundable sc (cuspPush mode g m).2 := by
  obtain ⟨hg, ht⟩ : maxRep ≤ (cuspPush mode g m).2 ∧ (cuspPush mode g m).2 < maxRepUp :=
    cuspPush_bounds hc.2.1 hc.2.2
  have hm := maxRepUp_le_max (cusp320_of_cusp330 hc.1)
  have hi := mantissaRangeMin_le sc
  have hr : maxRep = 9223372036854775807 := rfl
  have hl : repLimit sc = maxRepUp := by rw [repLimit, if_pos hc.1]
  exact ⟨by omega, by omega, by omega⟩

/-- Past the last small mantissa there is only the first multiple of ten. -/
theorem Roundable.closable (h : Roundable sc m) (hp : pastRep sc m = false) : Closable sc m := by
  refine ⟨h.ge, h.le, ?_⟩
  have hl := h.limit
  cases h330 : cuspRounding330Enabled sc with
  | false => exact .inl (repLimit_eq h330 ▸ hl)
  | true =>
    rw [repLimit, if_pos h330] at hl
    rw [Bool.eq_false_iff, ne_eq, pastRep_iff] at hp
    have : ¬ (maxRep < m ∧ m < maxRepUp) := fun h => hp ⟨h330, h⟩
    omega

/-- The carry of the scales that round before they shorten. -/
theorem Roundable.succ_div_ten (h : Roundable sc m) (ho : mantissaRangeMax sc < m + 1 ∨ maxRep < m + 1) :
    Closable sc ((m + 1) / 10) := by
  have hm := mantissaRangeMax_add_one sc
  have hi := mantissaRangeMin_le sc
  have hr : maxRep = 9223372036854775807 := rfl
  have hl := h.le
  exact ⟨by omega, by omega, .inl (by omega)⟩

/-- **`do_round_up` ends with a normalized number.** -/
theorem doRoundUp_closes (hm : Roundable sc x.mantissa) (he : |x.exponent| < 10 ^ 7) :
    Closes (doRoundUp mode sc (fuel + 2) g x) fun z => z.isNormalized sc := by
  have hu : maxRepUp = 9223372036854775810 := rfl
  have hr : maxRep = 9223372036854775807 := rfl
  have hi := mantissaRangeMin_le sc
  rw [doRoundUp]
  generalize hp : (if cuspRounding330Enabled sc ∧ maxRep ≤ x.mantissa ∧ x.mantissa < maxRepUp
    then cuspPush mode g x.mantissa else (g, x.mantissa)) = pair
  have hn : Roundable sc pair.2 := by
    rw [← hp]
    split_ifs with hc
    · exact roundable_cuspPush hc
    · exact hm
  refine closes_ite (fun _ => closes_ite (fun h320 => closes_ite (fun hf => ?_) fun hf => ?_) fun h320 => ?_)
    fun _ => closes_ite (fun ht => ?_) fun ht => closeRound_closes (hn.closable (Bool.eq_false_iff.mpr ht)) he.le
  · obtain ⟨ha, hlt⟩ := safeToIncrement_iff.mp hf
    exact closeRound_closes ⟨le_add_right_of_le hn.ge, ha, .inl hlt⟩ he.le
  · have ha := maxRepUp_le_max h320
    refine closes_ite (fun ht => closeRound_closes ⟨by simp only; omega, ha, .inr rfl⟩ he.le) fun ht => ?_
    refine closes_checkedI32.bind fun _ h => ?_
    refine closes_ite (fun _ => closes_fail) fun hs => ?_
    rw [safeToIncrement_iff] at hf
    refine doRoundUp_closes_below ?_ (by simpa using hs) ?_
    · have := hn.ge
      simp only
      omega
    · rw [abs_lt] at he
      rw [abs_le]
      simp only
      omega
  · have h330 : cuspRounding330Enabled sc = false := Bool.eq_false_iff.mpr fun h => h320 (cusp320_of_cusp330 h)
    have hl := repLimit_eq h330 ▸ hn.limit
    refine (closes_checkedU128 (by omega)).bind fun _ h => ?_
    subst h
    refine closes_ite (fun ho => ?_) fun ho => ?_
    · refine closes_checkedI32.bind fun _ h => ?_
      refine closeRound_closes (hn.succ_div_ten ho) ?_
      rw [abs_lt] at he
      rw [abs_le]
      simp only
      omega
    · rw [not_or, not_lt, not_lt] at ho
      exact closeRound_closes ⟨le_add_right_of_le hn.ge, ho.1, .inl ho.2⟩ he.le
  · have ha := maxRepUp_le_max (cusp320_of_cusp330 (pastRep_iff.mp ht).1)
    exact closeRound_closes ⟨by simp only; omega, by simp only; omega, .inl le_rfl⟩ he.le

/-! ### Normalization -/

theorem mantissa_le_of_isNormalized (h : x.isNormalized sc) : x.mantissa ≤ mantissaRangeMax sc := by
  rw [isNormalized] at h
  split_ifs at h with h0
  · omega
  · simp only [Bool.and_eq_true, decide_eq_true_iff] at h
    exact h.1.1.1.2

/-- A normalized number is given back. -/
theorem finish_closes (h : x.isNormalized sc) :
    Closes (finishArithmeticResult mode sc (fuel + 1) x) fun z => z.isNormalized sc := by
  refine closes_ite (fun _ => closes_pure isNormalized_zero) fun h0 => closes_ite (fun _ => closes_fail) fun _ =>
    closes_ite (fun _ => closes_fail) fun _ => ?_
  have hm : x.mantissa ≠ 0 := fun hm => h0 (.inl hm)
  have hs : (⟨x.negative && decide (x.mantissa ≠ 0), x.mantissa, x.exponent⟩ : NumberParts) = x := by
    rw [decide_eq_true hm, Bool.and_true]
  simp only [hs]
  rw [if_pos h]
  exact closes_pure h

/-- The mantissa has its digits after no more turns than it has digits. -/
theorem growMantissa_closes (hp : 0 < x.mantissa) (ht : x.mantissa < 10 ^ 38) (he : |x.exponent| < 10 ^ 6) (hf : 19 ≤ fuel) :
    Closes (growMantissa fuel sc x) fun y => y.mantissa < 10 ^ 38 ∧ |y.exponent| < 10 ^ 6 := by
  have hm := mantissaRangeMin_le sc
  have hl : minExponent = -32768 := rfl
  refine (closes_whileLoop (fun j y => 10 ^ j ≤ y.mantissa ∧ y.mantissa < 10 ^ 38 ∧ |y.exponent| < 10 ^ 6) ⟨hp, ht, he⟩
    (fun j y hy hc => ?_) fun y hy => ?_).mono fun y hy => ⟨hy.2.choose_spec.2.1, hy.2.choose_spec.2.2⟩
  · rw [Bool.and_eq_true, decide_eq_true_iff, decide_eq_true_iff] at hc
    obtain ⟨hg, -, hx⟩ := hy
    rw [abs_lt] at hx
    refine (closes_checkedU128 (by omega)).bind fun _ h1 => (closes_i32 (by rw [abs_lt]; omega)).bind fun _ h2 =>
      closes_pure ?_
    subst h1 h2
    exact ⟨by rw [pow_succ]; exact mul_le_mul_right 10 hg, by simp only; omega, by rw [abs_lt]; simp only; omega⟩
  · have ho : 10 ^ 19 ≤ 10 ^ fuel := Nat.pow_le_pow_right (by norm_num) hf
    rw [Bool.and_eq_false_iff, decide_eq_false_iff_not]
    exact .inl (by omega)

theorem dropDigitBelowMax_closes (he : |x.exponent| < 10 ^ 6) : Closes (dropDigitBelowMax (g, x)) fun s =>
    s.2.mantissa = x.mantissa / 10 ∧ |s.2.exponent| < 10 ^ 6 := by
  have hh : maxExponent = 32768 := rfl
  rw [abs_lt] at he
  refine closes_ite (fun _ => closes_fail) fun hc => (closes_i32 (by rw [abs_lt]; simp only at hc ⊢; omega)).bind fun _ h =>
    closes_pure ?_
  subst h
  exact ⟨rfl, by rw [abs_lt]; simp only at hc ⊢; omega⟩

/-- A mantissa that is divided by ten in each turn. -/
theorem div_ten_mul_pow {j : ℕ} (h : m * 10 ^ j < 10 ^ 38) : m / 10 * 10 ^ (j + 1) < 10 ^ 38 := by
  refine lt_of_le_of_lt ?_ h
  calc m / 10 * 10 ^ (j + 1) = m / 10 * 10 * 10 ^ j := by ring
    _ ≤ m * 10 ^ j := mul_le_mul_right _ (div_mul_le_self m 10)

theorem eq_zero_of_mul_pow (h : m * 10 ^ fuel < 10 ^ 38) (hf : 38 ≤ fuel) : m = 0 := by
  by_contra h0
  have hp : 10 ^ 38 ≤ 10 ^ fuel := Nat.pow_le_pow_right (by norm_num) hf
  have := mul_le_mul (one_le_iff_ne_zero.mpr h0) hp
  omega

theorem dropDigits_closes (hl : x.mantissa < 10 ^ 38) (he : |x.exponent| < 10 ^ 6) (hf : 38 ≤ fuel) :
    Closes (whileLoop .outOfFuel (fun s : ArithmeticGuard × NumberParts => decide (mantissaRangeMax sc < s.2.mantissa))
      dropDigitBelowMax fuel (g, x)) fun s => s.2.mantissa ≤ mantissaRangeMax sc ∧ |s.2.exponent| < 10 ^ 6 := by
  refine (closes_whileLoop (fun j s => s.2.mantissa * 10 ^ j < 10 ^ 38 ∧ |s.2.exponent| < 10 ^ 6) ⟨by simpa using hl, he⟩
    (fun j s hs hc => ?_) fun s hs => ?_).mono fun s hs => ⟨not_lt.mp (of_decide_eq_false hs.1), hs.2.choose_spec.2⟩
  · refine (dropDigitBelowMax_closes hs.2).mono fun s' hs' => ⟨?_, hs'.2⟩
    rw [hs'.1]
    exact div_ten_mul_pow hs.1
  · rw [eq_zero_of_mul_pow hs.1 hf]
    exact decide_eq_false (not_lt_zero _)

theorem dropPastLimit_closes (hi : mantissaRangeMin sc ≤ x.mantissa) (ha : x.mantissa ≤ mantissaRangeMax sc)
    (he : |x.exponent| < 10 ^ 6) :
    Closes (dropPastLimit sc (g, x)) fun s => Roundable sc s.2.mantissa ∧ |s.2.exponent| < 10 ^ 6 := by
  have hm := mantissaRangeMin_le sc
  have hma := mantissaRangeMax_add_one sc
  have hl : maxRep ≤ repLimit sc := by cases sc <;> decide
  have hr : maxRep = 9223372036854775807 := rfl
  refine closes_ite (fun hp => ?_) fun hp => closes_pure ⟨⟨by simp only; omega, ha, not_lt.mp hp⟩, he⟩
  refine (dropDigitBelowMax_closes he).mono fun s hs => ⟨?_, hs.2⟩
  simp only at hp
  exact ⟨by omega, by omega, by omega⟩

/-- **Normalization ends with a normalized number.** -/
theorem normalize_closes (hl : x.mantissa < 10 ^ 38) (he : x.mantissa ≠ 0 → |x.exponent| < 10 ^ 6) (hf : 41 ≤ fuel) :
    Closes (normalizeArithmeticPartsWithDropped mode sc dropped fuel x) fun z => z.isNormalized sc := by
  obtain ⟨fuel, rfl⟩ : ∃ k, fuel = k + 3 := ⟨fuel - 3, by omega⟩
  refine closes_ite (fun _ => closes_pure isNormalized_zero) fun h0 => ?_
  refine (growMantissa_closes (pos_of_ne_zero h0) hl (he h0) (by omega)).bind fun x1 hx => ?_
  refine (dropDigits_closes hx.1 hx.2 (by omega)).bind fun s hs => ?_
  refine closes_ite (fun _ => closes_pure isNormalized_zero) fun hi => ?_
  rw [not_or, not_lt, not_lt] at hi
  refine (dropPastLimit_closes hi.2 hs.1 hs.2).bind fun s hs => ?_
  exact (doRoundUp_closes hs.1 (hs.2.trans (by norm_num))).bind fun y hy => finish_closes hy

/-! ### Operands -/

/-- A normalized number other than zero, in a scale. -/
structure Operand (scale : MantissaScale) (x : NumberParts) : Prop where
  ge : mantissaRangeMin scale ≤ x.mantissa
  le : x.mantissa ≤ mantissaRangeMax scale
  exponent_ge : minExponent ≤ x.exponent
  exponent_le : x.exponent ≤ maxExponent

theorem operand_of_ne_zero (h : x.isNormalized sc) (hx : x ≠ .zero) : Operand sc x := by
  have hm : x.mantissa ≠ 0 := fun h0 => hx (eq_zero_of_normalized h h0)
  simp only [isNormalized, hm, if_false, Bool.and_eq_true, decide_eq_true_iff] at h
  exact ⟨h.1.1.1.1, h.1.1.1.2, h.1.2, h.2⟩

theorem Operand.lt (h : Operand sc x) : x.mantissa < 10 ^ 19 := by
  have hm := mantissaRangeMin_le sc
  have ha := mantissaRangeMax_add_one sc
  have := h.le
  omega

theorem Operand.pos (h : Operand sc x) : 0 < x.mantissa :=
  lt_of_lt_of_le (by norm_num) ((mantissaRangeMin_ge sc).trans h.ge)

theorem Operand.abs_exponent_le (h : Operand sc x) : |x.exponent| ≤ 32768 := abs_le.mpr ⟨h.exponent_ge, h.exponent_le⟩

/-! ### Multiplication and division -/

theorem dropDigit_closes : Closes (dropDigit (g, x)) fun s =>
    s.2.mantissa = x.mantissa / 10 ∧ s.2.exponent = x.exponent + 1 := by
  refine closes_checkedI32.bind fun _ h => closes_pure ⟨rfl, h⟩

theorem dropProduct_closes (hge : mantissaRangeMin sc ≤ 10 * x.mantissa) (ht : x.mantissa < 10 ^ 38)
    (he : |x.exponent| ≤ 65536) (hf : 38 ≤ fuel) :
    Closes (whileLoop .outOfFuel (fun s : ArithmeticGuard × NumberParts =>
      decide (mantissaRangeMax sc < s.2.mantissa) || decide (repLimit sc < s.2.mantissa)) dropDigit fuel (g, x))
      fun s => Roundable sc s.2.mantissa ∧ |s.2.exponent| < 10 ^ 7 := by
  have hi := mantissaRangeMin_le sc
  have hm := mantissaRangeMax_add_one sc
  have hl : maxRep ≤ repLimit sc := by cases sc <;> decide
  have hr : maxRep = 9223372036854775807 := rfl
  refine (closes_whileLoop (fun j s => mantissaRangeMin sc ≤ 10 * s.2.mantissa ∧ s.2.mantissa * 10 ^ j < 10 ^ 38 ∧
    s.2.exponent = x.exponent + j ∧ j ≤ 38) ⟨hge, by simpa using ht, by simp, by omega⟩ (fun j s hs hc => ?_)
    fun s hs => ?_).mono fun s hs => ?_
  · obtain ⟨-, hb, hx, -⟩ := hs
    have hp : mantissaRangeMax sc < s.2.mantissa ∨ repLimit sc < s.2.mantissa := by simpa using hc
    refine dropDigit_closes.mono fun s' hs' => ⟨by omega, ?_, ?_, ?_⟩
    · rw [hs'.1]
      exact div_ten_mul_pow hb
    · rw [hs'.2, hx]
      push_cast
      ring
    · by_contra hj
      have := eq_zero_of_mul_pow hb (by omega)
      omega
  · rw [eq_zero_of_mul_pow hs.2.1 hf]
    rfl
  · obtain ⟨hc, j, hg, -, hx, hj⟩ := hs
    rw [Bool.or_eq_false_iff, decide_eq_false_iff_not, decide_eq_false_iff_not, not_lt, not_lt] at hc
    rw [abs_le] at he
    exact ⟨⟨hg, hc.1, hc.2⟩, by rw [abs_lt]; omega⟩

theorem tryMul_closes (hx : x.isNormalized sc) (hy : y.isNormalized sc) (hf : 38 ≤ fuel) :
    Closes (tryMul fuel sc mode x y) fun z => z.isNormalized sc := by
  obtain ⟨k, rfl⟩ : ∃ k, fuel = k + 2 := ⟨fuel - 2, by omega⟩
  refine closes_ite (fun _ => closes_pure hx) fun hx0 => closes_ite (fun _ => closes_pure isNormalized_zero) fun hy0 => ?_
  have hX := operand_of_ne_zero hx hx0
  have hY := operand_of_ne_zero hy hy0
  have hl : x.mantissa * y.mantissa < 10 ^ 38 :=
    lt_of_lt_of_eq (Nat.mul_lt_mul_of_lt_of_lt hX.lt hY.lt) (by norm_num)
  have hg : mantissaRangeMin sc ≤ x.mantissa * y.mantissa := hX.ge.trans (Nat.le_mul_of_pos_right _ hY.pos)
  refine (closes_checkedU128 (hl.trans (by norm_num))).bind fun _ h1 => closes_checkedI32.bind fun _ h2 => ?_
  subst h1 h2
  have hex := hX.abs_exponent_le
  have he := hY.abs_exponent_le
  refine (dropProduct_closes (by simp only; omega) hl ?_ hf).bind fun s hs => ?_
  · exact (abs_add_le _ _).trans (by omega)
  · exact (doRoundUp_closes hs.1 hs.2).bind fun z hz => finish_closes hz

theorem quotient_closes (hx : Operand sc x) (hy : Operand sc y) :
    Closes (quotient sc x y) fun s => s.1 < 10 ^ 38 ∧ |s.2.1| < 10 ^ 6 := by
  have hl := hx.lt
  have ht := hy.lt
  have hex := abs_le.mp hx.abs_exponent_le
  have he := abs_le.mp hy.abs_exponent_le
  have hm : 10 ^ 15 ≤ y.mantissa := (mantissaRangeMin_ge sc).trans hy.ge
  have hz : x.mantissa * 100000000000000000 / y.mantissa < 10 ^ 21 := Nat.div_lt_of_lt_mul (by omega)
  have hr : x.mantissa * 100000000000000000 % y.mantissa < y.mantissa := mod_lt _ hy.pos
  have hc : x.mantissa * 100000000000000000 % y.mantissa * 100000 / y.mantissa < 10 ^ 24 :=
    lt_of_le_of_lt (div_le_self _ _) (by omega)
  refine (closes_checkedU128 (by omega)).bind fun _ h1 => (closes_divU128 hy.pos).bind fun _ h2 =>
    closes_checkedI32.bind fun _ h3 => closes_checkedI32.bind fun _ h4 => ?_
  subst h1 h2 h3 h4
  refine closes_ite (fun _ => closes_pure ⟨hz.trans (by norm_num), by rw [abs_lt]; simp only; omega⟩) fun _ => ?_
  refine (closes_u128 (by omega)).bind fun _ h5 => ?_
  subst h5
  refine closes_ite (fun _ => closes_pure ⟨hz.trans (by norm_num), by rw [abs_lt]; simp only; omega⟩) fun _ => ?_
  refine (closes_checkedU128 (by omega)).bind fun _ h6 => closes_checkedI32.bind fun _ h7 => ?_
  refine (closes_checkedU128 (by omega)).bind fun _ h8 => ?_
  exact closes_pure ⟨by simp only; omega, by rw [abs_lt]; simp only; omega⟩

theorem tryDiv_closes (hx : x.isNormalized sc) (hy : y.isNormalized sc) (hf : 41 ≤ fuel) :
    Closes (tryDiv fuel sc mode x y) fun z => z.isNormalized sc := by
  refine closes_ite (fun _ => closes_fail) fun hy0 => closes_ite (fun _ => closes_pure hx) fun hx0 => ?_
  refine (quotient_closes (operand_of_ne_zero hx hx0) (operand_of_ne_zero hy hy0)).bind fun s hs => ?_
  exact normalize_closes hs.1 (fun _ => hs.2) hf

/-! ### Alignment -/

/-- **Bounds that alignment keeps** of the numbers that it was given. -/
structure Bounded (a b : Alignment) : Prop where
  expand_ge : a.expandM ≤ b.expandM
  expand_lt : b.expandM < 10 ^ 22
  shrink_le : b.shrinkM ≤ a.shrinkM
  ge : minExponent ≤ b.shrinkE
  le : b.shrinkE ≤ b.expandE
  top : b.expandE ≤ maxExponent

theorem Bounded.step_shrink (h : Bounded a b) (hl : b.shrinkE < b.expandE) :
    Closes b.shrink fun b' => Bounded a b' ∧ b'.expandE = b.expandE ∧ b'.shrinkE = b.shrinkE + 1 := by
  refine closes_checkedI32.bind fun _ he => closes_pure ?_
  subst he
  have := h.ge
  exact ⟨⟨h.expand_ge, h.expand_lt, (div_le_self _ _).trans h.shrink_le, by simp only; omega, hl, h.top⟩, rfl, rfl⟩

theorem Bounded.step_expand (h : Bounded a b) (hl : b.shrinkE < b.expandE) (hu : b.expandM < upperLimit sc) :
    Closes b.expand fun b' => Bounded a b' ∧ b'.expandE = b.expandE - 1 ∧ b'.shrinkE = b.shrinkE := by
  have hi := mantissaRangeMin_le sc
  rw [upperLimit] at hu
  refine (closes_checkedU128 (by omega)).bind fun _ hm => closes_checkedI32.bind fun _ he => closes_pure ?_
  subst hm he
  have hg := h.expand_ge
  have ht := h.top
  exact ⟨⟨by simp only; omega, by simp only; omega, h.shrink_le, h.ge, by simp only; omega, by simp only; omega⟩, rfl, rfl⟩

/-- A loop of alignment: in each turn the exponents come closer. -/
theorem align_loop_closes {c : Alignment → Bool} {step : Alignment → Work Alignment} (h : Bounded a b)
    (hf : 65537 ≤ fuel) (hc : ∀ b, c b → b.shrinkE < b.expandE) (hs : ∀ b, Bounded a b → c b →
      Closes (step b) fun b' => Bounded a b' ∧ b'.expandE - b'.shrinkE = b.expandE - b.shrinkE - 1) :
    Closes (whileLoop .outOfFuel c step fuel b) fun b' => c b' = false ∧ Bounded a b' := by
  have hl : minExponent = -32768 := rfl
  have hh : maxExponent = 32768 := rfl
  refine (closes_whileLoop (fun j b' => Bounded a b' ∧ b'.expandE - b'.shrinkE + j ≤ 65536) ⟨h, ?_⟩ (fun j b' hb hcb => ?_)
    fun b' hb => ?_).mono fun b' hb => ⟨hb.1, hb.2.choose_spec.1⟩
  · have := h.ge
    have := h.top
    omega
  · refine (hs b' hb.1 hcb).mono fun b'' hb'' => ⟨hb''.1, ?_⟩
    omega
  · rw [Bool.eq_false_iff]
    intro hcb
    have := hc b' hcb
    omega

theorem adjust_closes (h : Bounded a a) (hf : 65537 ≤ fuel) :
    Closes (a.adjust fuel sc) fun b => Bounded a b ∧ b.shrinkE = b.expandE := by
  have hs (b : Alignment) (hb : Bounded a b) (hl : b.shrinkE < b.expandE) :
      Closes b.shrink fun b' => Bounded a b' ∧ b'.expandE - b'.shrinkE = b.expandE - b.shrinkE - 1 :=
    (hb.step_shrink hl).mono fun b' hb' => ⟨hb'.1, by omega⟩
  refine Closes.bind (R := Bounded a) ?_ fun b hb => ?_
  · refine closes_ite (fun _ => ?_) fun _ => closes_pure h
    refine (align_loop_closes h hf (fun b hc => ?_) fun b hb hc => ?_).bind fun b hb =>
      (align_loop_closes hb.2 hf (fun b hc => ?_) fun b hb hc => ?_).mono fun b hb => hb.2
    · rw [Bool.and_eq_true, decide_eq_true_iff] at hc
      exact hc.1
    · rw [Bool.and_eq_true, decide_eq_true_iff] at hc
      exact hs b hb hc.1
    · rw [Bool.and_eq_true, Bool.and_eq_true, decide_eq_true_iff] at hc
      exact hc.1.1
    · rw [Bool.and_eq_true, Bool.and_eq_true, decide_eq_true_iff, decide_eq_true_iff] at hc
      exact (hb.step_expand hc.1.1 (of_decide_eq_true hc.2)).mono fun b' hb' => ⟨hb'.1, by omega⟩
  · refine (align_loop_closes hb hf (fun b hc => of_decide_eq_true hc) fun b hb hc =>
      hs b hb (of_decide_eq_true hc)).mono fun b hb => ⟨hb.2, ?_⟩
    exact le_antisymm hb.2.le (not_lt.mp (of_decide_eq_false hb.1))

/-- **The digits that are dropped when nothing is expanded**: all of them are in the guard, or the number
that lost them is far smaller. -/
def Trimmed (a b : Alignment) : Prop :=
  b.expandM = a.expandM ∧
    ((b.shrinkM = a.shrinkM / 10 ∧ b.guard.digits.toNat % 2 ^ 60 = 0 ∧ b.guard.digits.toNat / 2 ^ 60 ≤ 9) ∨
      b.shrinkM ≤ a.shrinkM / 100)

theorem adjust_trimmed (h330 : cuspRounding330Enabled sc = false) (hd : a.guard.digits = 0)
    (hl : a.shrinkE < a.expandE) :
    wp (a.adjust fuel sc) (fun b _ => Trimmed a b) ⊤ ⊤ wide := by
  rw [Alignment.adjust, Alignment.adjustExact, h330, wp_bind]
  simp only [Bool.false_eq_true, if_false]
  rw [wp_pure]
  refine wp_imp (wp_whileLoop (fun j b _ => (j = 0 ∧ b = a) ∨ Trimmed a b) (.inl ⟨rfl, rfl⟩)
    (fun j b _ hb _ => ?_) fun _ _ _ _ => trivial) (fun b _ hb => ?_)
  · rw [Alignment.shrink, wp_bind, checkedI32, wp_ite]
    refine ⟨fun _ => .inr ?_, fun _ => trivial⟩
    obtain ⟨-, rfl⟩ | ⟨hm, hb⟩ := hb
    · refine ⟨rfl, .inl ⟨rfl, ?_⟩⟩
      rw [digits_push, hd, toNat_lastDigit, show (0 : UInt64).toNat = 0 from rfl]
      omega
    · refine ⟨hm, .inr ?_⟩
      simp only
      omega
  · obtain ⟨hc, j, ⟨-, rfl⟩ | hb⟩ := hb
    · exact absurd hl (of_decide_eq_false hc)
    · exact hb

/-! ### Addition -/

/-- What is taken back from the guard ends: the difference has nearly its digits, or the guard has few. -/
def Takes (scale : MantissaScale) (g : ArithmeticGuard) (m : ℕ) : Prop :=
  if cuspRounding330Enabled scale = true then g.empty = true ∨ (10 ^ 21 + 9 ≤ 10 * m ∧ g.pop.1.toNat ≤ 9)
  else 0 < m ∧ ((g.digits.toNat % 2 ^ 60 = 0 ∧ g.digits.toNat / 2 ^ 60 ≤ 9) ∨ 9 * mantissaRangeMin scale ≤ 10 * m)

/-- Two numbers with one exponent. -/
structure SameExponent (scale : MantissaScale) (x y : NumberParts) : Prop where
  exponent : x.exponent = y.exponent
  abs_exponent : |x.exponent| ≤ 32768
  left : x.mantissa < 10 ^ 22
  right : y.mantissa < 10 ^ 22
  sum : cuspRounding330Enabled scale = false → x.mantissa ≤ mantissaRangeMax scale ∧ y.mantissa ≤ mantissaRangeMax scale ∧
    mantissaRangeMin scale ≤ x.mantissa + y.mantissa

/-- **Two numbers with one exponent**, ready to be added or subtracted. -/
structure Ready (scale : MantissaScale) (g : ArithmeticGuard) (x y : NumberParts) : Prop extends SameExponent scale x y where
  takes : x.negative ≠ y.negative → Takes scale g (difference x y).mantissa

theorem SameExponent.symm (h : SameExponent sc x y) : SameExponent sc y x :=
  ⟨h.exponent.symm, h.exponent ▸ h.abs_exponent, h.right, h.left, fun h330 =>
    ⟨(h.sum h330).2.1, (h.sum h330).1, add_comm x.mantissa y.mantissa ▸ (h.sum h330).2.2⟩⟩

theorem bounded_self (hx : Operand sc x) (hy : Operand sc y) (hl : x.exponent < y.exponent) :
    Bounded ⟨g, y.mantissa, y.exponent, x.mantissa, x.exponent⟩ ⟨g, y.mantissa, y.exponent, x.mantissa, x.exponent⟩ :=
  ⟨le_rfl, hy.lt.trans (by norm_num), le_rfl, hx.exponent_ge, hl.le, hy.exponent_le⟩

theorem difference_mantissa : (difference x y).mantissa = x.mantissa - y.mantissa + (y.mantissa - x.mantissa) := by
  rw [difference]
  split_ifs <;> (simp only; omega)

theorem difference_comm : (difference x y).mantissa = (difference y x).mantissa := by
  rw [difference_mantissa, difference_mantissa, add_comm]

theorem eq_large330 (h : cuspRounding330Enabled sc) : sc = .large330 := by
  cases sc <;> first | rfl | cases h

theorem normal_of_operand (h : x.isNormalized .large330) (hx : Operand .large330 x) : Normal x :=
  normal_of_ne_zero h fun h0 => absurd hx.pos (by rw [h0]; decide)

/-- What the exact sum says of the digits in the guard. -/
theorem align_takes (h330 : cuspRounding330Enabled sc) (hx : x.isNormalized sc)
    (hy : y.isNormalized sc) (hX : Operand sc x) (hY : Operand sc y) :
    wp (align fuel sc x y) (fun s _ => s.2.1.negative ≠ s.2.2.negative →
      Takes sc s.1 (difference s.2.1 s.2.2).mantissa) ⊤ ⊤ wide := by
  obtain rfl := eq_large330 h330
  refine wp_imp (align_holds (normal_of_operand hx hX) (normal_of_operand hy hY)) (fun s _ hs hg => ?_)
  obtain ⟨f, hf⟩ := hs
  obtain ⟨ho, ha⟩ := difference_owes hf hg
  by_cases h0 : f = 0
  · exact .inl (ho.sums.empty_iff.mpr h0)
  · obtain ⟨hw, f', hd, -⟩ := ha h0
    exact .inr ⟨hw, hd⟩

/-- A number that lost digits, and the larger one. -/
theorem takes_of_trimmed (h330 : cuspRounding330Enabled sc = false) (hx : Operand sc x) (hy : Operand sc y)
    (h : Trimmed ⟨g, y.mantissa, e, x.mantissa, e'⟩ b) :
    b.shrinkM ≤ mantissaRangeMax sc ∧ b.expandM = y.mantissa ∧ b.shrinkM < b.expandM ∧
      Takes sc b.guard (b.expandM - b.shrinkM) := by
  obtain ⟨hm, h⟩ := h
  simp only at hm h
  have ha := mantissaRangeMax_add_one sc
  have hl := hx.le
  have hg := hy.ge
  rw [Takes, if_neg (by rw [h330]; decide)]
  obtain ⟨hs, hd⟩ | hs := h
  · exact ⟨by omega, hm, by omega, by omega, .inl hd⟩
  · exact ⟨by omega, hm, by omega, by omega, .inr (by omega)⟩

/-- One exponent from the start. -/
theorem takes_of_eq {negative : Bool} (hX : Operand sc x) (he : x.exponent = y.exponent) (hn : x ≠ y.neg)
    (hs : x.negative ≠ y.negative) : Takes sc { negative } (difference x y).mantissa := by
  rw [Takes]
  split_ifs with h330
  · exact .inl rfl
  · refine ⟨?_, .inl ⟨rfl, (by decide : 0 / 2 ^ 60 ≤ 9)⟩⟩
    rw [difference_mantissa]
    by_contra h0
    have hm : x.mantissa = y.mantissa := by omega
    apply hn
    rw [neg, if_neg (hm ▸ hX.pos.ne')]
    obtain ⟨n1, m1, e1⟩ := x
    simp only at hm he hs
    rw [hm, he, Bool.not_eq.mpr hs.symm]

/-- The number with the smaller exponent is aligned with the other one. -/
theorem adjust_sameExponent (hX : Operand sc x) (hY : Operand sc y) (hlt : x.exponent < y.exponent)
    (hf : 65537 ≤ fuel) :
    Closes (Alignment.adjust fuel sc ⟨{ negative }, y.mantissa, y.exponent, x.mantissa, x.exponent⟩) fun b =>
      SameExponent sc { x with mantissa := b.shrinkM, exponent := b.shrinkE }
        { y with mantissa := b.expandM, exponent := b.expandE } ∧
      (cuspRounding330Enabled sc = false → Takes sc b.guard (difference { x with mantissa := b.shrinkM, exponent := b.shrinkE }
        { y with mantissa := b.expandM, exponent := b.expandE }).mantissa) := by
  have ho : ∀ b, Bounded ⟨{ negative }, y.mantissa, y.exponent, x.mantissa, x.exponent⟩ b → b.shrinkE = b.expandE →
      b.shrinkE = b.expandE ∧ |b.shrinkE| ≤ 32768 ∧ b.shrinkM < 10 ^ 22 ∧ b.expandM < 10 ^ 22 := fun b hb he =>
    ⟨he, abs_le.mpr ⟨hb.ge, he ▸ hb.top⟩, (lt_of_le_of_lt hb.shrink_le hX.lt).trans (by norm_num), hb.expand_lt⟩
  have hc : Closes (Alignment.adjust fuel sc ⟨{ negative }, y.mantissa, y.exponent, x.mantissa, x.exponent⟩) _ :=
    adjust_closes (bounded_self hX hY hlt) hf
  cases h330 : cuspRounding330Enabled sc with
  | true =>
    refine hc.mono fun b hb => ?_
    obtain ⟨he, ha, hl, hr⟩ := ho b hb.1 hb.2
    exact ⟨⟨he, ha, hl, hr, fun h => absurd h330 (by rw [h]; decide)⟩, fun h => by cases h⟩
  | false =>
    refine (hc.and (adjust_trimmed h330 rfl hlt)).mono fun b hb => ?_
    obtain ⟨he, ha, hl, hr⟩ := ho b hb.1.1 hb.1.2
    obtain ⟨hle, hm, hlt, ht⟩ := takes_of_trimmed h330 hX hY hb.2
    have hi := hY.ge
    have hx := hY.le
    refine ⟨⟨he, ha, hl, hr, fun _ => ⟨hle, by simp only; omega, by simp only; omega⟩⟩, fun _ => ?_⟩
    rw [difference_mantissa]
    rwa [Nat.sub_eq_zero_of_le hlt.le, Nat.zero_add]

/-- **Alignment ends** with two numbers that are ready. -/
theorem align_closes (hx : x.isNormalized sc) (hy : y.isNormalized sc) (hX : Operand sc x)
    (hY : Operand sc y) (hn : x ≠ y.neg) (hf : 65537 ≤ fuel) :
    Closes (align fuel sc x y) fun s => Ready sc s.1 s.2.1 s.2.2 := by
  have hc : Closes (align fuel sc x y) fun s => SameExponent sc s.2.1 s.2.2 ∧
      (cuspRounding330Enabled sc = false → s.2.1.negative ≠ s.2.2.negative →
        Takes sc s.1 (difference s.2.1 s.2.2).mantissa) := by
    refine closes_ite (fun hl => ?_) fun hl => closes_ite (fun hg => ?_) fun hg => ?_
    · exact (adjust_sameExponent hX hY hl hf).bind fun b hb => closes_pure ⟨hb.1, fun h330 _ => hb.2 h330⟩
    · refine (adjust_sameExponent hY hX hg hf).bind fun b hb => closes_pure ⟨hb.1.symm, fun h330 _ => ?_⟩
      rw [difference_comm]
      exact hb.2 h330
    · have he : x.exponent = y.exponent := le_antisymm (not_lt.mp hg) (not_lt.mp hl)
      refine closes_pure ⟨⟨he, hX.abs_exponent_le, hX.lt.trans (by norm_num), hY.lt.trans (by norm_num), fun _ =>
        ⟨hX.le, hY.le, le_add_right_of_le hX.ge⟩⟩, fun _ hsg => takes_of_eq hX he hn hsg⟩
  cases h330 : cuspRounding330Enabled sc with
  | true => exact (hc.and (align_takes h330 hx hy hX hY)).mono fun s hs => ⟨hs.1.1, hs.2⟩
  | false => exact hc.mono fun s hs => ⟨hs.1, hs.2 h330⟩

/-- The number that is left to normalize. -/
def Bearable (x : NumberParts) : Prop := x.mantissa < 10 ^ 38 ∧ (x.mantissa ≠ 0 → |x.exponent| < 10 ^ 6)

theorem bearable_of_isNormalized (h : x.isNormalized sc) : Bearable x := by
  have hi := mantissaRangeMin_le sc
  have hm := mantissaRangeMax_add_one sc
  have hl := mantissa_le_of_isNormalized h
  refine ⟨by omega, fun h0 => ?_⟩
  exact lt_of_le_of_lt (operand_of_ne_zero h fun hz => h0 (by rw [hz]; rfl)).abs_exponent_le (by norm_num)

theorem dropIfWide_closes (hu : mantissaRangeMin sc ≤ x.mantissa) (hle : x.mantissa ≤ 2 * mantissaRangeMax sc)
    (he : |x.exponent| ≤ 32768) :
    Closes (dropIfWide sc (g, x)) fun s => Roundable sc s.2.mantissa ∧ |s.2.exponent| < 10 ^ 7 := by
  have hi := mantissaRangeMin_le sc
  have hm := mantissaRangeMax_add_one sc
  have hl : maxRep ≤ repLimit sc := by cases sc <;> decide
  have hr : maxRep = 9223372036854775807 := rfl
  rw [abs_le] at he
  refine closes_ite (fun hw => dropDigit_closes.mono fun s hs => ?_) fun hw => closes_pure ?_
  · simp only at hw
    rw [hs.1, hs.2, abs_lt]
    exact ⟨⟨by omega, by omega, by omega⟩, by omega⟩
  · simp only at hw
    rw [abs_lt]
    exact ⟨⟨by simp only; omega, by simp only; omega, by simp only; omega⟩, by simp only; omega⟩

theorem addMantissas_closes (h : Ready sc g x y) (hf : 2 ≤ fuel) :
    Closes (addMantissas mode fuel sc g x y) fun s => Bearable s.2 := by
  obtain ⟨k, rfl⟩ : ∃ k, fuel = k + 2 := ⟨fuel - 2, by omega⟩
  have hl := h.left
  have hr := h.right
  refine (closes_checkedU128 (by omega)).bind fun _ hm => ?_
  subst hm
  refine closes_ite (fun _ => closes_pure ⟨by simp only; omega, fun _ => ?_⟩) fun h330 => ?_
  · exact lt_of_le_of_lt h.abs_exponent (by norm_num)
  · obtain ⟨hx, hy, hg⟩ := h.sum (Bool.eq_false_iff.mpr h330)
    have hw : x.mantissa + y.mantissa ≤ 2 * mantissaRangeMax sc := by omega
    refine (dropIfWide_closes (x := { x with mantissa := x.mantissa + y.mantissa }) hg hw h.abs_exponent).bind fun s hs => ?_
    exact (doRoundUp_closes hs.1 hs.2).bind fun z hz => closes_pure (bearable_of_isNormalized hz)

/-- The digit that is taken back. -/
theorem takeDigit_closes {wide : ℕ → Work ℕ} (hw : Closes (wide (x.mantissa * 10)) (· = x.mantissa * 10))
    (hd : g.digits.toNat / 2 ^ 60 ≤ x.mantissa * 10) : Closes (takeDigit wide (g, x)) fun s => s.1 = g.pop.2 ∧
      s.2.mantissa = x.mantissa * 10 - g.digits.toNat / 2 ^ 60 ∧ s.2.exponent = x.exponent - 1 := by
  refine hw.bind fun _ h1 => ?_
  subst h1
  simp only
  rw [digit_pop]
  refine (closes_saturatingSub hd).bind fun _ h2 => closes_checkedI32.bind fun _ h3 => closes_pure ?_
  subst h2 h3
  exact ⟨rfl, rfl, rfl⟩

theorem takeDigits_closes_330 (h330 : cuspRounding330Enabled sc) (h : Takes sc g x.mantissa)
    (ht : x.mantissa < 10 ^ 22) (he : |x.exponent| ≤ 32768) (hf : 1 ≤ fuel) :
    Closes (takeDigits fuel sc (g, x)) fun s => (s.1.empty ∨ 10 ^ 21 ≤ s.2.mantissa) ∧ s.2.mantissa < 10 ^ 22 ∧
      |s.2.exponent| ≤ 32769 := by
  have hu : upperLimit sc = 10 ^ 21 := by rw [eq_large330 h330]; rfl
  rw [Takes, if_pos h330] at h
  rw [takeDigits, if_pos h330, hu]
  rw [abs_le] at he
  refine (closes_whileLoop (fun j s => s.2.mantissa < 10 ^ 22 ∧ ((j = 0 ∧ s = (g, x)) ∨
    (10 ^ 21 ≤ s.2.mantissa ∧ s.2.exponent = x.exponent - 1))) ⟨ht, .inl ⟨rfl, rfl⟩⟩ (fun j s hs hc => ?_)
    fun s hs => ?_).mono fun s hs => ?_
  · rw [Bool.and_eq_true, decide_eq_true_iff, Bool.not_eq_true'] at hc
    obtain ⟨-, ⟨-, rfl⟩ | hs⟩ := hs
    · simp only at hc
      obtain h | ⟨hw, hd⟩ := h
      · rw [h] at hc
        exact absurd hc.2 (by decide)
      · rw [digit_pop] at hd
        refine (takeDigit_closes (closes_checkedU128 (by omega)) (by omega)).mono fun s hs => ?_
        exact ⟨by omega, .inr ⟨by omega, hs.2.2⟩⟩
    · exact absurd hc.1 (not_lt.mpr hs.1)
  · obtain ⟨-, ⟨h0, -⟩ | hs⟩ := hs
    · omega
    · rw [decide_eq_false (not_lt.mpr hs.1), Bool.false_and]
  · obtain ⟨hc, j, hl, hs⟩ := hs
    rw [Bool.and_eq_false_iff, decide_eq_false_iff_not, not_lt, Bool.not_eq_false'] at hc
    refine ⟨hc.symm, hl, ?_⟩
    rw [abs_le]
    obtain ⟨-, rfl⟩ | hs := hs
    · simp only
      omega
    · omega

theorem takeDigits_closes_legacy (h330 : cuspRounding330Enabled sc = false) (h : Takes sc g x.mantissa)
    (hlt : x.mantissa < 10 ^ 22) (he : |x.exponent| ≤ 32768) (hfu : 20 ≤ fuel) :
    Closes (takeDigits fuel sc (g, x)) fun s => 0 < s.2.mantissa ∧ s.2.mantissa < 10 ^ 22 ∧
      |s.2.exponent| ≤ 32800 := by
  have hi := mantissaRangeMin_le sc
  have hm := mantissaRangeMin_ge sc
  rw [Takes, if_neg (by rw [h330]; decide)] at h
  rw [takeDigits, if_neg (by rw [h330]; decide)]
  rw [abs_le] at he
  -- after the first turn the guard has no digit left, or the mantissa has all of its own
  refine (closes_whileLoop (fun j s => s.2.mantissa < 10 ^ 22 ∧ s.2.exponent = x.exponent - j ∧ j ≤ 20 ∧
    ((j = 0 ∧ s = (g, x)) ∨ (0 < j ∧ s.1.digits.toNat = 0 ∧ 10 ^ (j - 1) ≤ s.2.mantissa) ∨
      mantissaRangeMin sc ≤ s.2.mantissa)) ⟨hlt, by simp, by omega, .inl ⟨rfl, rfl⟩⟩ (fun j s hs hc => ?_)
    fun s hs => ?_).mono fun s hs => ?_
  · rw [Bool.and_eq_true, decide_eq_true_iff] at hc
    obtain ⟨-, hx, -, hs⟩ := hs
    have hu : s.2.mantissa * 10 < 2 ^ 128 := by omega
    obtain ⟨rfl, rfl⟩ | ⟨hj, hg, hp⟩ | hf := hs
    · have hd1 : g.digits.toNat < 2 ^ 64 := g.digits.toNat_lt
      simp only at hc hu hx ⊢
      refine (takeDigit_closes (closes_u128 hu) (by omega)).mono fun s' hs' => ?_
      refine ⟨by omega, by rw [hs'.2.2]; push_cast; omega, by omega, .inr ?_⟩
      obtain ⟨hpo, ⟨ho, hd⟩ | hn⟩ := h
      · refine .inl ⟨one_pos, ?_, by omega⟩
        rw [hs'.1, digits_pop]
        omega
      · exact .inr (by omega)
    · have hj' : j - 1 < 18 := by
        by_contra hj'
        have : 10 ^ 18 ≤ 10 ^ (j - 1) := Nat.pow_le_pow_right (by norm_num) (not_lt.mp hj')
        omega
      refine (takeDigit_closes (closes_u128 hu) (by omega)).mono fun s' hs' => ?_
      refine ⟨by omega, by rw [hs'.2.2, hx]; push_cast; ring, by omega, .inr (.inl ⟨succ_pos j, ?_, ?_⟩)⟩
      · rw [hs'.1, digits_pop, hg, zero_mul, zero_mod]
      · have ht : 10 ^ (j + 1 - 1) = 10 ^ (j - 1) * 10 := by rw [← pow_succ]; congr 1; omega
        omega
    · omega
  · obtain ⟨-, -, hj, ⟨h0, -⟩ | ⟨-, -, hp⟩ | hf⟩ := hs
    · omega
    · have : 10 ^ 19 ≤ 10 ^ (fuel - 1) := Nat.pow_le_pow_right (by norm_num) (by omega)
      rw [decide_eq_false (by omega), Bool.false_and]
    · rw [decide_eq_false (by omega), Bool.false_and]
  · obtain ⟨-, j, hl, hx, hj, hs⟩ := hs
    refine ⟨?_, hl, by rw [abs_le]; omega⟩
    obtain ⟨-, rfl⟩ | ⟨-, -, hp⟩ | hf := hs
    · exact h.1
    · exact lt_of_lt_of_le (Nat.pow_pos (by norm_num)) hp
    · omega

theorem bringIntoRange_closes (hl : x.mantissa < 10 ^ 36) (he : |x.exponent| < 10 ^ 5) :
    Closes (bringIntoRange sc x) Bearable := by
  rw [abs_lt] at he
  have hn (y : NumberParts) (hl : y.mantissa < 10 ^ 38) (he : |y.exponent| < 10 ^ 6) : Bearable (zeroIfTooSmall sc y) := by
    rw [zeroIfTooSmall]
    split_ifs
    · exact ⟨by decide, fun h0 => absurd rfl h0⟩
    · exact ⟨hl, fun _ => he⟩
  refine closes_ite (fun _ => ?_) fun _ => closes_pure (hn x (by omega) (by rw [abs_lt]; omega))
  refine (closes_u128 (by omega)).bind fun _ h1 => (closes_i32 (by rw [abs_lt]; omega)).bind fun _ h2 => closes_pure ?_
  exact hn _ (by simp only; omega) (by rw [abs_lt]; simp only; omega)

theorem doRoundDown_closes (ho : (cuspRounding330Enabled sc ∧ g.empty) ∨ 0 < x.mantissa)
    (hl : x.mantissa < 10 ^ 22) (he : |x.exponent| ≤ 32800) : Closes (doRoundDown mode sc g x) Bearable := by
  have he' : |x.exponent| < 10 ^ 5 := lt_of_le_of_lt he (by norm_num)
  rw [abs_le] at he
  refine closes_ite (fun h330 => closes_ite (fun hg => ?_) fun _ => ?_) fun h330 => closes_ite (fun _ => ?_) fun _ => ?_
  · have hp : 0 < x.mantissa := ho.resolve_left fun h => by rw [h.2] at hg; exact absurd hg (by decide)
    refine (closes_subU128 hp).bind fun _ h1 => ?_
    exact bringIntoRange_closes (by simp only; omega) he'
  · exact bringIntoRange_closes (hl.trans (by norm_num)) he'
  · have hp : 0 < x.mantissa := ho.resolve_left fun h => h330 h.1
    refine (closes_subU128 hp).bind fun _ h1 => ?_
    refine closes_ite (fun _ => ?_) fun _ => bringIntoRange_closes (by simp only; omega) he'
    refine (closes_u128 (by omega)).bind fun _ h2 => (closes_i32 (by rw [abs_lt]; omega)).bind fun _ h3 => ?_
    exact bringIntoRange_closes (by simp only; omega) (by rw [abs_lt]; simp only; omega)
  · exact bringIntoRange_closes (hl.trans (by norm_num)) he'

theorem subMantissas_closes (h : Ready sc g x y) (hg : x.negative ≠ y.negative) (hf : 20 ≤ fuel) :
    Closes (subMantissas mode fuel sc g x y) fun s => Bearable s.2 := by
  have hl := h.left
  have hr := h.right
  have hlt : (difference x y).mantissa < 10 ^ 22 := by
    rw [difference_mantissa]
    omega
  have he : |(difference x y).exponent| ≤ 32768 := by
    rw [difference]
    split_ifs
    · exact h.abs_exponent
    · exact h.exponent ▸ h.abs_exponent
  have ht := h.takes hg
  refine Closes.bind (R := fun s => ((cuspRounding330Enabled sc ∧ s.1.empty) ∨ 0 < s.2.mantissa) ∧
    s.2.mantissa < 10 ^ 22 ∧ |s.2.exponent| ≤ 32800) ?_ fun s hs =>
    (doRoundDown_closes hs.1 hs.2.1 hs.2.2).bind fun z hz => closes_pure hz
  cases h330 : cuspRounding330Enabled sc with
  | true =>
    refine (takeDigits_closes_330 h330 ht hlt he (by omega)).mono fun s hs => ?_
    exact ⟨hs.1.imp (fun h => ⟨rfl, h⟩) fun h => by omega, hs.2.1, hs.2.2.trans (by norm_num)⟩
  | false =>
    exact (takeDigits_closes_legacy h330 ht hlt he hf).mono fun s hs => ⟨.inr hs.1, hs.2⟩

theorem tryAdd_closes (hx : x.isNormalized sc) (hy : y.isNormalized sc) (hf : 65537 ≤ fuel) :
    Closes (tryAdd fuel sc mode x y) fun z => z.isNormalized sc := by
  refine closes_ite (fun _ => closes_pure hx) fun hy0 => closes_ite (fun _ => closes_pure hy) fun hx0 =>
    closes_ite (fun _ => closes_pure isNormalized_zero) fun hn => ?_
  refine (align_closes hx hy (operand_of_ne_zero hx hx0) (operand_of_ne_zero hy hy0) hn hf).bind fun s hs => ?_
  refine Closes.bind (R := fun s => Bearable s.2) ?_ fun s hs => normalize_closes hs.1 hs.2 (by omega)
  exact closes_ite (fun _ => addMantissas_closes hs (by omega)) fun hg => subMantissas_closes hs hg (by omega)

/-! ### The operations -/

theorem Op.closes (op : Op) (hx : x.isNormalized sc) (hy : y.isNormalized sc) (hf : 65537 ≤ fuel) :
    Closes (op.run fuel sc mode x y) fun z => z.isNormalized sc := by
  cases op with
  | add => exact tryAdd_closes hx hy hf
  | sub => exact tryAdd_closes hx (isNormalized_neg hy) hf
  | mul => exact tryMul_closes hx hy (by omega)
  | div => exact tryDiv_closes hx hy (by omega)

/-- **Arithmetic is closed**: with operands that are normalized for its scale, each operation returns after a bounded
number of turns, no step leaves a machine type, and an answer is normalized for the scale. -/
theorem returns_of_isNormalized (op : Op) (scale : MantissaScale) (mode : RoundingMode) (x y : NumberParts) (fuel : ℕ)
    (hx : x.isNormalized scale = true) (hy : y.isNormalized scale = true) (hfuel : 65537 ≤ fuel) :
    ∃ r, op.run fuel scale mode x y false = .ok (r, false) ∧ ∀ z, r = .ok z → z.isNormalized scale = true :=
  (op.closes hx hy hfuel).run

/-- The smallest difference of two numbers of sixteen digits takes a digit back. -/
theorem returns_of_isNormalized_small :
    ∃ r, Op.run .sub 65537 .small .toNearest ⟨false, 1000000000000000, 1⟩ ⟨false, 9999999999999999, 0⟩ false =
      .ok (r, false) ∧ ∀ z, r = .ok z → z.isNormalized .small = true :=
  returns_of_isNormalized .sub .small .toNearest ⟨false, 1000000000000000, 1⟩ ⟨false, 9999999999999999, 0⟩ 65537
    (by decide) (by decide) le_rfl

end Xrpld.Number
