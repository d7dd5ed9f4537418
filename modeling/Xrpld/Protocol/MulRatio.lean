import Xrpld.Protocol.IouRounding

/-!
# What a ratio of an amount is

`mul_ratio` of `xrpl/protocol/amounts/iou_amount.rs` multiplies and divides exactly, keeps eighteen
digits of the quotient and whether there were more, lets `from_parts` round the eighteen digits to
sixteen, and then adds a unit if there were more digits and the direction asks for it.

## What is proved

* `mulRatio_makes` says this of the code: `eighteen digits`, then `shown`, then perhaps a unit.
* The quotient is computed by `grown` and `shrunk`, which have no machine integers.
-/

namespace Xrpld.Protocol

open Number Decimal Nat Bool IOUAmount

variable {ε : Type} {mode : RoundingMode} {sc : MantissaScale} {neg up wide : Bool} {f v x : ℚ} {e : ℤ}
  {M den n fuel : ℕ} {q : Quotient} {a r : IOUAmount} {ops : QuotientOps ε} {m : ℤ}

/-! ### Powers and logarithms -/

theorem pow10U128_eq (hn : n ≤ 38) : pow10U128 n = pure (10 ^ n) := by
  induction n with
  | zero => rfl
  | succ n ih =>
    have hp : 10 ^ (n + 1) ≤ 10 ^ 38 := Nat.pow_le_pow_right (by norm_num) hn
    rw [pow10U128, ih (by omega), pure_bind_eq, ← pow_succ, checkedU128, if_pos (by omega)]

theorem log10Loop_eq (fuel : ℕ) {l : ℤ} (hn : n ≠ 0) (hlt : n < 10 ^ (fuel + 1)) (hl : 0 ≤ l) (hl' : l + log 10 n < 2 ^ 31) :
    ∃ k, whileLoop (ε := NumberArithmeticError) (σ := Bool) Fault.outOfFuel (fun s : ℕ × ℤ => decide (10 ≤ s.1))
      (fun s => do
        let log ← i32 (s.2 + 1)
        return (s.1 / 10, log)) fuel (n, l) = pure (k, l + log 10 n) := by
  induction fuel generalizing n l with
  | zero =>
    have hs : ¬ 10 ≤ n := by omega
    refine ⟨n, ?_⟩
    rw [whileLoop, if_neg (by simpa using hs), log_of_lt (by omega), cast_zero, add_zero]
  | succ fuel ih =>
    by_cases ht : 10 ≤ n
    · have hd : n / 10 < 10 ^ (fuel + 1) := by
        omega
      have ho := log_of_one_lt_of_le (b := 10) (by norm_num) ht
      obtain ⟨k, hk⟩ := ih (n := n / 10) (l := l + 1) (by omega) hd (by omega) (by omega)
      refine ⟨k, ?_⟩
      rw [whileLoop, if_pos (by simpa using ht), i32, if_pos (by omega), pure_bind_eq, pure_bind_eq, hk, ho]
      push_cast
      rw [add_assoc, add_comm 1]
    · refine ⟨n, ?_⟩
      rw [whileLoop, if_neg (by simpa using ht), log_of_lt (by omega), cast_zero, add_zero]

theorem log10FloorU128_eq (hn : n ≠ 0) (ht : n < 10 ^ 38) (hf : 40 ≤ fuel) :
    log10FloorU128 fuel n = pure (log 10 n : ℤ) := by
  have hl : log 10 n < 38 := log_lt_of_lt_pow hn ht
  have hp : 10 ^ 38 ≤ 10 ^ (fuel + 1) := Nat.pow_le_pow_right (by norm_num) (by omega)
  obtain ⟨k, hk⟩ := log10Loop_eq fuel (l := 0) hn (by omega) le_rfl (by omega)
  rw [log10FloorU128, if_neg hn, hk, pure_bind_eq, zero_add]

/-- The whole logarithm from above. -/
theorem clog_eq (hn : n ≠ 0) : clog 10 n = if 10 ^ log 10 n = n then log 10 n else log 10 n + 1 := by
  have hl := pow_log_le_self 10 hn
  split_ifs with h
  · nth_rewrite 1 [← h]
    exact clog_pow 10 _ (by norm_num)
  · refine le_antisymm (clog_le_of_le_pow (lt_pow_succ_log_self (by norm_num) n).le) ?_
    exact (lt_clog_iff_pow_lt (by norm_num)).mpr (lt_of_le_of_ne hl h)

theorem log10CeilU128_eq (ht : n < 10 ^ 38) (hf : 40 ≤ fuel) : log10CeilU128 fuel n = pure (clog 10 n : ℤ) := by
  by_cases hn : n = 0
  · rw [log10CeilU128, if_pos hn, hn]
    rfl
  · have hl : log 10 n < 38 := log_lt_of_lt_pow hn ht
    rw [log10CeilU128, if_neg hn, log10FloorU128_eq hn ht hf, pure_bind_eq, Int.toNat_natCast,
      pow10U128_eq (by omega), clog_eq hn]
    show (if 10 ^ log 10 n = n then pure (log 10 n : ℤ) else i32 ((log 10 n : ℤ) + 1)) = _
    split_ifs with h
    · rfl
    · rw [i32, if_pos (by omega)]
      rfl

theorem log10_maxRep : log 10 maxRep = 18 := log_eq_of_pow_le_of_lt_pow (by decide) (by decide)

/-! ### The quotient -/

/-- What `grow` computes. -/
def grown (den : ℕ) (q : Quotient) : Quotient :=
  if q.remainder = 0 then q
  else
    let room := 18 - Nat.clog 10 q.low
    { low := q.low * 10 ^ room + q.remainder * 10 ^ room / den
      remainder := q.remainder * 10 ^ room % den
      exponent := q.exponent - room }

/-- What `shrink` computes. -/
def shrunk (q : Quotient) : ℕ × Bool × ℤ :=
  let extra := Nat.clog 10 q.low - 18
  (q.low / 10 ^ extra, decide (q.remainder ≠ 0) || decide (q.low % 10 ^ extra ≠ 0), q.exponent + extra)

/-- A quotient of an amount and its remainder. -/
structure Quotient.Small (den : ℕ) (q : Quotient) : Prop where
  low : q.low < 10 ^ 27
  remainder : q.remainder < den
  exponent : |q.exponent| ≤ 200

theorem mul_pow_room (h : n ≤ 10 ^ 18) : n * 10 ^ (18 - clog 10 n) ≤ 10 ^ 18 := by
  have hc : clog 10 n ≤ 18 := clog_le_of_le_pow h
  calc n * 10 ^ (18 - clog 10 n) ≤ 10 ^ clog 10 n * 10 ^ (18 - clog 10 n) :=
        mul_le_mul_right _ (le_pow_clog (by norm_num) n)
    _ = 10 ^ 18 := by rw [← pow_add, Nat.add_sub_cancel' hc]

/-- **The operations are exact** on the numbers that a ratio needs. -/
structure QuotientOps.Exact (ops : QuotientOps ε) : Prop where
  log10Ceil : ∀ n < 10 ^ 37, ops.log10Ceil n = pure (Nat.clog 10 n : ℤ)
  room : ops.room = pure 18
  power : ∀ n ≤ 36, ops.power n = pure (10 ^ n)
  wide : ∀ n < 2 ^ 128, ops.wide n = pure n
  exponent : ∀ z : ℤ, |z| ≤ 1000 → ops.exponent z = pure z

theorem i32_eq {z : ℤ} (hz : |z| ≤ 1000) : i32 (ε := ε) z = pure z := by
  have := abs_le.mp hz
  exact if_pos (by omega)

/-- The end of `grow`. -/
theorem addRemainder_eq (ho : ops.Exact) {low remainder : ℕ} (hd : 0 < den) (hl : low < 10 ^ 27)
    (hr : remainder ≤ 2 ^ 32 * 10 ^ 18) : (do
      let addRemainder ← divU128 remainder den
      let low ← ops.wide (low + addRemainder)
      let remainder ← subU128 remainder (addRemainder * den)
      return ({ low, remainder, exponent := e } : Quotient)) =
      pure { low := low + remainder / den, remainder := remainder % den, exponent := e } := by
  have hq : remainder / den ≤ remainder := div_le_self _ _
  have hm : remainder - remainder / den * den = remainder % den := by rw [mod_eq_sub, mul_comm den]
  rw [divU128, if_neg hd.ne', pure_bind_eq, ho.wide _ (by omega), pure_bind_eq, subU128,
    if_pos (div_mul_le_self _ _), pure_bind_eq, hm]

theorem grow_eq (ho : ops.Exact) (hq : q.Small den) (hd : den < 2 ^ 32) : ops.grow den q = pure (grown den q) := by
  have hl := hq.low
  have hr := hq.remainder
  have hx := abs_le.mp hq.exponent
  by_cases h0 : q.remainder = 0
  · rw [QuotientOps.grow, grown, if_pos h0, if_pos h0]
  have hc : clog 10 q.low ≤ 27 := clog_le_of_le_pow hl.le
  rw [QuotientOps.grow, grown, if_neg h0, if_neg h0, ho.room, pure_bind_eq, ho.log10Ceil _ (by omega), pure_bind_eq,
    i32_eq (abs_le.mpr ⟨by omega, by omega⟩), pure_bind_eq, QuotientOps.addDigits]
  by_cases hg : clog 10 q.low < 18
  · have hrm : (18 - (clog 10 q.low : ℤ)).toNat = 18 - clog 10 q.low := by omega
    have hle : q.low ≤ 10 ^ 18 :=
      (Nat.le_pow_clog (by norm_num) q.low).trans (Nat.pow_le_pow_right (by norm_num) hg.le)
    have hm := mul_pow_room hle
    have hw : 10 ^ (18 - Nat.clog 10 q.low) ≤ 10 ^ 18 := Nat.pow_le_pow_right (by norm_num) (by omega)
    have hp : q.remainder * 10 ^ (18 - Nat.clog 10 q.low) ≤ 2 ^ 32 * 10 ^ 18 := Nat.mul_le_mul (by omega) hw
    have he : q.exponent - (18 - (clog 10 q.low : ℤ)) = q.exponent - (18 - clog 10 q.low : ℕ) := by omega
    rw [if_pos (by omega), hrm, ho.power _ (by omega), pure_bind_eq, ho.exponent _ (abs_le.mpr ⟨by omega, by omega⟩),
      pure_bind_eq, ho.wide _ (by omega), pure_bind_eq, ho.wide _ (by omega), pure_bind_eq, pure_bind_eq,
      he]
    exact addRemainder_eq ho (by omega) (by simp only; omega) hp
  · have hrm : 18 - clog 10 q.low = 0 := by omega
    rw [if_neg (by omega), pure_bind_eq, hrm]
    simp only [pow_zero, mul_one, cast_zero, sub_zero]
    exact addRemainder_eq ho (by omega) hl (by omega)

theorem shrink_eq (ho : ops.Exact) (hl : q.low < 10 ^ 27) (hx : |q.exponent| ≤ 300) :
    ops.shrink q = pure (shrunk q) := by
  have hex := abs_le.mp hx
  have hc : clog 10 q.low ≤ 27 := clog_le_of_le_pow hl.le
  rw [QuotientOps.shrink, shrunk, ho.log10Ceil _ (by omega), pure_bind_eq, ho.room, pure_bind_eq,
    i32_eq (abs_le.mpr ⟨by omega, by omega⟩), pure_bind_eq]
  by_cases hg : 18 < clog 10 q.low
  · have hu : ((clog 10 q.low : ℤ) - 18).toNat = clog 10 q.low - 18 := by omega
    have hp : 10 ^ (clog 10 q.low - 18) ≠ 0 := (pow_pos (by norm_num) _).ne'
    have he : q.exponent + ((clog 10 q.low : ℤ) - 18) = q.exponent + (clog 10 q.low - 18 : ℕ) := by omega
    rw [if_pos (by omega), hu, ho.power _ (by omega), pure_bind_eq, ho.exponent _ (abs_le.mpr ⟨by omega, by omega⟩),
      pure_bind_eq, divU128, if_neg hp, pure_bind_eq, subU128, if_pos (div_mul_le_self _ _), pure_bind_eq,
      mul_comm (q.low / _), ← mod_eq_sub, he]
  · have hu : Nat.clog 10 q.low - 18 = 0 := by omega
    rw [if_neg (by omega), hu]
    simp only [pow_zero, Nat.div_one, Nat.mod_one, ne_eq, not_true_eq_false, decide_false, Bool.or_false, Nat.cast_zero, add_zero]

theorem checkedOps_exact (hf : 40 ≤ fuel) : (checkedOps fuel).Exact where
  log10Ceil n hn := log10CeilU128_eq (hn.trans (by norm_num)) hf
  room := by
    show log10FloorU128 fuel maxRep = _
    rw [log10FloorU128_eq (by decide) (by decide) hf, log10_maxRep]
    rfl
  power n hn := pow10U128_eq (hn.trans (by norm_num))
  wide n hn := if_pos hn
  exponent z hz := by
    have := abs_le.mp hz
    exact if_pos (by omega)

/-- The number that a quotient and its remainder stand for. -/
def Quotient.value (den : ℕ) (q : Quotient) : ℚ := (q.low + q.remainder / den) * 10 ^ q.exponent

/-- **More digits** do not change the number, and there are at least eighteen of them, or all. -/
theorem grown_spec (hq : q.Small den) (he : 0 < den) (hs : 0 < q.low) :
    (grown den q).value den = q.value den ∧ (grown den q).remainder < den ∧ (grown den q).low < 10 ^ 27 ∧ 0 < (grown den q).low ∧
      (10 ^ 17 ≤ (grown den q).low ∨ (grown den q).remainder = 0) ∧ |(grown den q).exponent| ≤ |q.exponent| + 18 := by
  rw [grown]
  split_ifs with h0
  · exact ⟨rfl, hq.remainder, hq.low, hs, .inr h0, by omega⟩
  have hl := hq.low
  have hr := hq.remainder
  simp only
  generalize hk : 18 - clog 10 q.low = k
  have hk1 : k ≤ 18 := by omega
  have hp : 0 < 10 ^ k := pow_pos (by norm_num) k
  have hu : q.remainder * 10 ^ k / den < 10 ^ k := by
    rw [div_lt_iff_lt_mul he, mul_comm]
    exact mul_lt_mul_of_pos_left hr hp
  -- the digits that the quotient had are enough, or they are followed by zeros
  have hm : 10 ^ 17 ≤ q.low * 10 ^ k ∧ q.low * 10 ^ k + 10 ^ k ≤ 10 ^ 27 := by
    by_cases hc : 18 ≤ clog 10 q.low
    · have hlt : 10 ^ 17 < q.low := (lt_clog_iff_pow_lt (by norm_num)).mp (by omega)
      obtain rfl : k = 0 := by omega
      omega
    · have hle : q.low ≤ 10 ^ 18 :=
        (Nat.le_pow_clog (by norm_num) q.low).trans (Nat.pow_le_pow_right (by norm_num) (by omega))
      have hrm := mul_pow_room hle
      rw [hk] at hrm
      have ht : 10 ^ k ≤ 10 ^ 18 := Nat.pow_le_pow_right (by norm_num) hk1
      refine ⟨?_, by omega⟩
      by_cases ho : q.low = 1
      · rw [ho, clog_one_right] at hk
        rw [ho, ← hk]
        norm_num
      · have hlt := pow_pred_clog_lt_self (b := 10) (by norm_num) (x := q.low) (by omega)
        have hcl : 0 < clog 10 q.low := clog_pos (by norm_num) (by omega)
        calc 10 ^ 17 = 10 ^ (clog 10 q.low).pred * 10 ^ k := by
              rw [← pow_add, pred_eq_sub_one]
              congr 1
              omega
          _ ≤ q.low * 10 ^ k := mul_le_mul_right _ hlt.le
  have hg : q.low * 10 ^ k ≤ q.low * 10 ^ k + q.remainder * 10 ^ k / den := le_add_right _ _
  refine ⟨?_, mod_lt _ he, by omega, by omega, .inl (by omega), ?_⟩
  · have hd : (den : ℚ) ≠ 0 := by exact_mod_cast he.ne'
    have hi : ((q.remainder * 10 ^ k / den : ℕ) : ℚ) * den + (q.remainder * 10 ^ k % den : ℕ) = q.remainder * 10 ^ k := by
      exact_mod_cast div_add_mod' (q.remainder * 10 ^ k) den
    have hsp : ((q.remainder * 10 ^ k / den : ℕ) : ℚ) + (q.remainder * 10 ^ k % den : ℕ) / den =
        q.remainder / den * 10 ^ k := by
      field_simp
      linarith
    have hz : (10 : ℚ) ^ q.exponent = 10 ^ (q.exponent - k) * 10 ^ k := by
      rw [← zpow_natCast, ← zpow_add₀ (by norm_num), sub_add_cancel]
    rw [Quotient.value, Quotient.value, hz]
    push_cast
    rw [add_assoc, hsp]
    ring
  · rw [abs_le]
    have := abs_le.mp (le_refl |q.exponent|)
    omega

/-- **Eighteen digits** are kept, and whether there were more. -/
theorem shrunk_spec (he : 0 < den) (hr : q.remainder < den) (hl : q.low < 10 ^ 27) (hs : 0 < q.low)
    (hdg : 10 ^ 17 ≤ q.low ∨ q.remainder = 0) :
    ∃ f, 0 ≤ f ∧ f < 1 ∧ q.value den = ((shrunk q).1 + f) * 10 ^ (shrunk q).2.2 ∧ ((shrunk q).2.1 ↔ f ≠ 0) ∧
      0 < (shrunk q).1 ∧ (shrunk q).1 ≤ 10 ^ 18 ∧ (10 ^ 17 ≤ (shrunk q).1 ∨ f = 0) ∧ |(shrunk q).2.2| ≤ |q.exponent| + 9 := by
  have hc : clog 10 q.low ≤ 27 := clog_le_of_le_pow hl.le
  rw [shrunk]
  simp only
  generalize hk : clog 10 q.low - 18 = k
  have ho : 0 < 10 ^ k := pow_pos (by norm_num) k
  have hp : (0 : ℚ) < 10 ^ k := by positivity
  have hd : (0 : ℚ) < den := by exact_mod_cast he
  have hf : (0 : ℚ) ≤ q.remainder / den ∧ (q.remainder : ℚ) / den < 1 := by
    refine ⟨by positivity, ?_⟩
    rw [div_lt_one hd]
    exact_mod_cast hr
  have hmo : ((q.low % 10 ^ k : ℕ) : ℚ) + 1 ≤ 10 ^ k := by exact_mod_cast mod_lt q.low ho
  have hm : (0 : ℚ) ≤ (q.low % 10 ^ k : ℕ) := cast_nonneg _
  have hg : 10 ^ 17 ≤ q.low / 10 ^ k ∨ k = 0 := by
    by_cases hk0 : k = 0
    · exact .inr hk0
    · have ht : 10 ^ (k + 17) < q.low := (lt_clog_iff_pow_lt (by norm_num)).mp (by omega)
      left
      rw [le_div_iff_mul_le ho, ← pow_add, add_comm 17]
      exact ht.le
  refine ⟨((q.low % 10 ^ k : ℕ) + q.remainder / den) / 10 ^ k, div_nonneg (add_nonneg hm hf.1) hp.le, ?_, ?_, ?_, ?_, ?_, ?_,
    ?_⟩
  · rw [div_lt_one hp]
    linarith [hf.2]
  · have hi : (q.low : ℚ) = (q.low / 10 ^ k : ℕ) * 10 ^ k + (q.low % 10 ^ k : ℕ) := by
      exact_mod_cast (div_add_mod' q.low (10 ^ k)).symm
    have hz : (10 : ℚ) ^ (q.exponent + k) = 10 ^ q.exponent * 10 ^ k := by
      rw [zpow_add₀ (by norm_num), zpow_natCast]
    rw [Quotient.value, hz, hi]
    field_simp
    ring
  · rw [or_eq_true, decide_eq_true_iff, decide_eq_true_iff, ne_eq, ne_eq, ne_eq, div_eq_zero_iff, or_iff_left hp.ne',
      add_eq_zero_iff_of_nonneg hm hf.1, div_eq_zero_iff, or_iff_left hd.ne', cast_eq_zero, cast_eq_zero]
    tauto
  · rcases hg with h | rfl
    · omega
    · simpa using hs
  · rw [div_le_iff_le_mul_add_pred ho]
    have hle : q.low ≤ 10 ^ clog 10 q.low := le_pow_clog (by norm_num) q.low
    have hn : 10 ^ Nat.clog 10 q.low ≤ 10 ^ (k + 18) := Nat.pow_le_pow_right (by norm_num) (by omega)
    rw [pow_add] at hn
    omega
  · rcases hg with h | rfl
    · exact .inl h
    · rw [pow_zero, Nat.div_one, Nat.mod_one]
      refine hdg.imp_right fun h => ?_
      rw [h]
      simp
  · rw [abs_le]
    have := abs_le.mp (le_refl |q.exponent|)
    omega

/-- **The quotient of an amount**: its first eighteen digits, and whether there are more. -/
structure Eighteen (x : ℚ) (low : ℕ) (hasRemainder : Bool) (exponent : ℤ) : Prop where
  cut_eq : cut 18 x = low * 10 ^ exponent
  more : hasRemainder = true ↔ cut 18 x ≠ x
  pos : 0 < low
  le : low ≤ 10 ^ 18
  exponent : |exponent| ≤ 300

theorem quotient_eighteen (hd : 0 < den) (hM : den ≤ M) (hM' : M < 10 ^ 27) (he : |e| ≤ 200) :
    (⟨M / den, M % den, e⟩ : Quotient).Small den ∧ (grown den ⟨M / den, M % den, e⟩).low < 10 ^ 27 ∧
      |(grown den ⟨M / den, M % den, e⟩).exponent| ≤ 300 ∧
      Eighteen (M / den * 10 ^ e) (shrunk (grown den ⟨M / den, M % den, e⟩)).1 (shrunk (grown den ⟨M / den, M % den, e⟩)).2.1
        (shrunk (grown den ⟨M / den, M % den, e⟩)).2.2 := by
  have hq : M / den ≤ M := div_le_self M den
  have hs : (⟨M / den, M % den, e⟩ : Quotient).Small den := ⟨by simp only; omega, mod_lt M hd, he⟩
  obtain ⟨hv, hr, hl, ho, hg, hexp⟩ := grown_spec hs hd (div_pos hM hd)
  obtain ⟨f, hf, hf1, heq, hm, hp, hle, hfl, hex⟩ := shrunk_spec hd hr hl ho hg
  simp only at hexp
  refine ⟨hs, hl, by omega, ?_⟩
  have hx : (M : ℚ) / den * 10 ^ e = ((shrunk (grown den ⟨M / den, M % den, e⟩)).1 + f) *
      10 ^ (shrunk (grown den ⟨M / den, M % den, e⟩)).2.2 := by
    rw [← heq, hv, Quotient.value]
    have hi : (M : ℚ) = (M / den : ℕ) * den + (M % den : ℕ) := by exact_mod_cast (div_add_mod' M den).symm
    nth_rewrite 1 [hi]
    field_simp
  have hc : cut 18 ((M : ℚ) / den * 10 ^ e) = (shrunk (grown den ⟨M / den, M % den, e⟩)).1 *
      10 ^ (shrunk (grown den ⟨M / den, M % den, e⟩)).2.2 := by
    refine cut_eq (by norm_num) hp hle ?_ ?_ (hfl.imp_right fun h => ?_)
    · rw [hx]
      exact mul_le_mul_of_nonneg_right (by linarith) (ten_zpow_pos _).le
    · rw [hx]
      exact mul_lt_mul_of_pos_right (by linarith) (ten_zpow_pos _)
    · rw [hx, h, add_zero]
  refine ⟨hc, ?_, hp, hle, by omega⟩
  rw [hm, hc, hx, ne_eq, ne_eq, mul_left_inj' (ten_zpow_pos _).ne', left_eq_add]

/-! ### The result -/

/-- The magnitude of the exact ratio. -/
def exactRatio (a : IOUAmount) (num den : ℕ) : ℚ := (a.mantissa.natAbs * num : ℕ) / den * 10 ^ a.exponent

/-- One unit more of a magnitude: the smallest amount after zero. -/
def nextUnit (v : ℚ) : ℚ := if v < smallest then smallest else v + place 16 v

/-- **The magnitude of the result**: eighteen digits, rounded to sixteen, and one unit more if there are more digits and
the direction is away from zero. -/
def ratio (mode : RoundingMode) (negative away : Bool) (x : ℚ) : ℚ :=
  if cut 18 x ≠ x ∧ away = true then nextUnit (shown mode negative (cut 18 x)) else shown mode negative (cut 18 x)

theorem smallest_pos : 0 < smallest := by
  rw [smallest]
  norm_num

/-- The parts of an amount that was made. -/
theorem Makes.parts (h : Makes neg v r) (hv : smallest ≤ v) :
    decide (r.mantissa < 0) = neg ∧ v = r.mantissa.natAbs * 10 ^ r.exponent ∧ 10 ^ 15 ≤ r.mantissa.natAbs ∧
      r.mantissa.natAbs < 10 ^ 16 ∧ -96 ≤ r.exponent ∧ r.exponent ≤ 80 ∧ v < limit := by
  obtain ⟨hlt, -⟩ | ⟨-, hl, hn, hm, hvl⟩ := h
  · exact absurd hv (not_le.mpr hlt)
  have hp : 0 < v := smallest_pos.trans_le hv
  have ht := ten_zpow_pos (K := ℚ) r.exponent
  obtain rfl | ⟨hg, hlt, he, he'⟩ := hn
  · exact absurd rfl hm
  have ha : v = r.mantissa.natAbs * 10 ^ r.exponent := by
    have h1 : |r.value| = v := by
      rw [hvl, signed]
      split_ifs
      · rw [abs_neg, abs_of_pos hp]
      · rw [abs_of_pos hp]
    rw [← h1, value, abs_mul, abs_of_pos ht, cast_natAbs, Int.cast_abs]
  refine ⟨?_, ha, hg, hlt, he, he', hl⟩
  rw [value, signed] at hvl
  cases neg with
  | false =>
    rw [decide_eq_false_iff_not, not_lt]
    simp only [false_eq_true, if_false] at hvl
    have : (0 : ℚ) ≤ r.mantissa := by
      by_contra hc
      have := mul_neg_of_neg_of_pos (not_le.mp hc) ht
      linarith
    exact_mod_cast this
  | true =>
    rw [decide_eq_true_iff]
    simp only [if_true] at hvl
    have : (r.mantissa : ℚ) < 0 := by
      by_contra hc
      have := mul_nonneg (not_lt.mp hc) ht.le
      linarith
    exact_mod_cast this

/-- The amount with some digits and a sign. -/
theorem fromParts_signed (sc : MantissaScale) (mode : RoundingMode) (wide : Bool) (hn : 0 < n)
    (hn' : n ≤ 10 ^ 18) (he : |e| ≤ 28000) (hf : 20 ≤ fuel) (hm : m = if neg then -(n : ℤ) else n) :
    wp (fromParts fuel sc mode m e) (fun r _ => Makes neg (shown mode neg (n * 10 ^ e)) r)
      (fun err _ => err = .overflow ∧ limit ≤ shown mode neg (n * 10 ^ e)) ⊥ wide := by
  have hp : m.natAbs = n ∧ decide (m < 0) = neg ∧ m ≠ 0 := by
    cases neg
    · simp only [false_eq_true, if_false] at hm
      exact ⟨by omega, decide_eq_false (by omega), by omega⟩
    · simp only [if_true] at hm
      exact ⟨by omega, decide_eq_true (by omega), by omega⟩
  have hk := fromParts_makes sc mode wide hp.2.2 (hp.1.trans_le hn') he hf
  rwa [hp.1, hp.2.1] at hk

/-- An amount with one unit more. -/
theorem fromParts_next (hf : 20 ≤ fuel) (h : Makes neg v r) (hv : smallest ≤ v)
    (hm : m = if neg then r.mantissa - 1 else r.mantissa + 1) :
    wp (fromParts fuel sc mode m r.exponent) (fun r' _ => Makes neg (nextUnit v) r')
      (fun err _ => err = .overflow ∧ limit ≤ nextUnit v) ⊥ wide := by
  obtain ⟨hn, hp, hg, ht, he, he', -⟩ := h.parts hv
  have hl : place 16 v = 10 ^ r.exponent := by
    rw [hp]
    exact place_eq (by norm_num) hg ht le_rfl (mul_lt_mul_of_pos_right (lt_add_one _) (ten_zpow_pos _))
  have hx : shown mode neg ((r.mantissa.natAbs + 1 : ℕ) * 10 ^ r.exponent) = nextUnit v := by
    rw [shown_of_digits (by omega) (by omega), nextUnit, if_neg (not_lt.mpr hv), hl, hp]
    push_cast
    ring
  rw [← hx]
  refine fromParts_signed sc mode wide (by omega) (by omega) (abs_le.mpr ⟨by omega, by omega⟩) hf ?_
  cases neg
  · have := of_decide_eq_false hn
    simp only [false_eq_true, if_false] at hm ⊢
    omega
  · have := of_decide_eq_true hn
    simp only [if_true] at hm ⊢
    omega

/-- The smallest amount. -/
theorem fromParts_smallest (hf : 20 ≤ fuel) (hm : m = if neg then -(minIouMantissa : ℤ) else minIouMantissa) :
    wp (fromParts fuel sc mode m minIouExponent) (fun r _ => Makes neg smallest r) ⊥ ⊥ wide := by
  have hs : shown mode neg ((10 ^ 15 : ℕ) * 10 ^ minIouExponent) = smallest := by
    rw [shown_of_digits (by norm_num) (by norm_num), smallest]
    rfl
  have hk := fromParts_signed sc mode wide (e := minIouExponent) (n := 10 ^ 15) (by norm_num) (by norm_num) (by decide)
    hf hm
  rw [hs] at hk
  refine wp_mono hk (fun _ _ h => h) (fun _ _ he => absurd he.2 (not_le.mpr ?_)) fun _ h => h
  rw [smallest, limit]
  norm_num

theorem makes_smallest : Makes false smallest .minPositiveAmount := by
  refine .inr ⟨le_rfl, ?_, .inr (by decide), by decide, ?_⟩
  · rw [smallest, limit]
    norm_num
  · norm_num [smallest, signed, value, minPositiveAmount, minIouMantissa, minIouExponent]

/-- **The end of `mul_ratio`**, away from zero. -/
theorem adjust_makes (hf : 20 ≤ fuel) (h : Makes neg v r) (ha : (up ^^ neg)) :
    wp (adjust fuel sc mode up neg r) (fun r' _ => Makes neg (nextUnit v) r')
      (fun err _ => err = .overflow ∧ limit ≤ nextUnit v) ⊥ wide := by
  by_cases hv : smallest ≤ v
  · obtain ⟨hn, hp, hg, hl, he, he', -⟩ := h.parts hv
    have hz : r.isZero = false := decide_eq_false (by omega)
    cases neg with
    | false =>
      obtain rfl : up := by simpa using ha
      simp only [adjust, Bool.not_false, Bool.and_true, if_true, hz, Bool.false_eq_true, if_false]
      rw [wp_bind, checkedI64, if_pos (by omega), wp_pure]
      exact fromParts_next hf h hv rfl
    | true =>
      obtain rfl : up = false := by simpa using ha
      simp only [adjust, Bool.not_true, Bool.and_false, Bool.not_false, Bool.and_true, Bool.false_eq_true, if_true, if_false,
        hz]
      rw [wp_bind, checkedI64, if_pos (by omega), wp_pure]
      exact fromParts_next hf h hv rfl
  · have hx : nextUnit v = smallest := if_pos (not_le.mp hv)
    obtain ⟨-, rfl⟩ | ⟨hg, -⟩ := h
    · rw [hx]
      cases neg with
      | false =>
        obtain rfl : up := by simpa using ha
        show Makes false smallest .minPositiveAmount
        exact makes_smallest
      | true =>
        obtain rfl : up = false := by simpa using ha
        show wp (IOUAmount.fromParts fuel sc mode (-minIouMantissa) minIouExponent) _ _ _ wide
        exact wp_noError (fromParts_smallest hf rfl) (fun _ _ h => h)
    · exact absurd hg hv

theorem limit_le_nextUnit (h : limit ≤ v) : limit ≤ nextUnit v := by
  have hl : smallest < limit := by
    rw [smallest, limit]
    norm_num
  have hp := place_pos (K := ℚ) (d := 16) (x := v)
  rw [nextUnit, if_neg (not_lt.mpr (hl.le.trans h))]
  linarith

/-- The end of `mul_ratio`. -/
theorem finish_makes {low : ℕ} {hasRemainder : Bool} (h : Eighteen x low hasRemainder e) (hf : 20 ≤ fuel)
    (hm : m = if neg then -(low : ℤ) else low) : wp (fromParts fuel sc mode m e >>= fun result =>
      if (!hasRemainder) then pure result else adjust fuel sc mode up neg result)
      (fun r _ => Makes neg (ratio mode neg (up ^^ neg) x) r)
      (fun err _ => err = .overflow ∧ limit ≤ ratio mode neg (up ^^ neg) x) ⊥ wide := by
  have hk := fromParts_signed sc mode wide h.pos h.le (h.exponent.trans (by norm_num)) hf hm
  rw [← h.cut_eq] at hk
  rw [wp_bind]
  refine wp_mono hk (fun r wide' hr => ?_) (fun err _ he => ⟨he.1, ?_⟩) fun _ h => h
  · by_cases hs : cut 18 x ≠ x ∧ (up ^^ neg)
    · rw [ratio, if_pos hs, h.more.mpr hs.1, if_neg (by decide)]
      exact adjust_makes hf hr hs.2
    · rw [ratio, if_neg hs, wp_ite]
      refine ⟨fun _ => hr, fun hre => ?_⟩
      have ha : (up ^^ neg) = false :=
        eq_false_iff.mpr fun h' => hs ⟨h.more.mp (by simpa using hre), h'⟩
      have ht : adjust fuel sc mode up neg r = pure r := by
        cases up <;> cases neg <;> first | rfl | exact absurd ha (by decide)
      rw [ht]
      exact hr
  · rw [ratio]
    split_ifs
    · exact limit_le_nextUnit he.2
    · exact he.2

/-- **What `mul_ratio` computes**, in numbers. -/
theorem mulRatioOf_makes {num : ℕ} (ha : a.Normal) (hm : a.mantissa ≠ 0) (hu : 0 < num) (hn : num < 2 ^ 32)
    (hde : 0 < den) (hd : den < 2 ^ 32) (hf : 40 ≤ fuel) :
    wp (mulRatioOf fuel sc mode a num den up neg)
      (fun r _ => Makes neg (ratio mode neg (up ^^ neg) (exactRatio a num den)) r)
      (fun err _ => err = .overflow ∧ limit ≤ ratio mode neg (up ^^ neg) (exactRatio a num den))
      ⊥ wide := by
  obtain rfl | ⟨hg, ht, he, he'⟩ := ha
  · exact absurd rfl hm
  have hMge : den ≤ a.mantissa.natAbs * num := by
    have := mul_le_mul hg hu
    omega
  have hMlt : a.mantissa.natAbs * num < 10 ^ 27 := by
    have := mul_le_mul ht.le hn.le
    omega
  rw [mulRatioOf, exactRatio]
  generalize a.mantissa.natAbs * num = M at hMge hMlt ⊢
  obtain ⟨hs, hl, hx, h18⟩ := quotient_eighteen (e := a.exponent) hde hMge hMlt (abs_le.mpr ⟨by omega, by omega⟩)
  have ho : M - M / den * den = M % den := by rw [mod_eq_sub, mul_comm den]
  have hle := h18.le
  rw [checkedU128, if_pos (by omega), pure_bind_eq, divU128, if_neg hde.ne', pure_bind_eq, subU128,
    if_pos (div_mul_le_self _ _), pure_bind_eq, ho, grow_eq (checkedOps_exact hf) hs hd, pure_bind_eq,
    shrink_eq (checkedOps_exact hf) hl hx, pure_bind_eq]
  generalize shrunk (grown den ⟨M / den, M % den, a.exponent⟩) = s at h18 hle
  obtain ⟨low, hasRemainder, exponent⟩ := s
  rw [wp_bind, checkedI64, if_pos (by omega), wp_pure, wp_bind]
  refine wp_signedMantissa (by omega) ?_
  exact finish_makes h18 (by omega) rfl

/-- The ratio of nothing is nothing. -/
theorem mulRatioOf_zero {num : ℕ} (ha : a.Normal) (hz : a.mantissa = 0 ∨ num = 0) (hn : 0 < den) (hd : den < 2 ^ 32)
    (hf : 40 ≤ fuel) : mulRatioOf fuel sc mode a num den up neg = pure .new := by
  have hM : a.mantissa.natAbs * num = 0 := by
    obtain h | h := hz <;> simp [h]
  have he : |a.exponent| ≤ 200 := by
    obtain rfl | ⟨-, -, he, he'⟩ := ha
    · decide
    · exact abs_le.mpr ⟨by omega, by omega⟩
  have hm : Quotient.Small den ⟨0, 0, a.exponent⟩ := ⟨by norm_num, hn, he⟩
  have hg : grown den ⟨0, 0, a.exponent⟩ = ⟨0, 0, a.exponent⟩ := if_pos rfl
  have hs : shrunk ⟨0, 0, a.exponent⟩ = (0, false, a.exponent) := by simp [shrunk]
  have hsg : signedMantissa neg 0 = pure 0 := by cases neg <;> rfl
  rw [mulRatioOf, hM, checkedU128, if_pos (by norm_num), pure_bind_eq, divU128, if_neg hn.ne', pure_bind_eq,
    Nat.zero_div, Nat.zero_mul, subU128, if_pos le_rfl, pure_bind_eq, grow_eq (checkedOps_exact hf) hm hd,
    pure_bind_eq, hg, shrink_eq (checkedOps_exact hf) (by norm_num) (he.trans (by norm_num)), pure_bind_eq,
    hs]
  simp only [cast_zero]
  rw [checkedI64, if_pos (by norm_num), pure_bind_eq, hsg, pure_bind_eq]
  rfl

theorem value_eq_signed (a : IOUAmount) : a.value = signed (decide (a.mantissa < 0)) (a.mantissa.natAbs * 10 ^ a.exponent) := by
  rw [value, signed]
  split_ifs with h
  · rw [cast_natAbs, abs_of_neg (of_decide_eq_true h), Int.cast_neg]
    ring
  · rw [cast_natAbs, abs_of_nonneg (not_lt.mp (of_decide_eq_false (not_eq_true _ ▸ h)))]

theorem exactRatio_eq (a : IOUAmount) (num den : ℕ) :
    a.value * num / den = signed (decide (a.mantissa < 0)) (exactRatio a num den) := by
  rw [value_eq_signed, exactRatio, signed, signed]
  push_cast
  split_ifs <;> ring

theorem exactRatio_nonneg (a : IOUAmount) (num den : ℕ) : 0 ≤ exactRatio a num den :=
  mul_nonneg (div_nonneg (cast_nonneg _) (cast_nonneg _)) (ten_zpow_pos _).le

theorem abs_exactRatio (a : IOUAmount) (num den : ℕ) : |a.value * num / den| = exactRatio a num den := by
  rw [exactRatio_eq, signed]
  split_ifs
  · rw [abs_neg, abs_of_nonneg (exactRatio_nonneg ..)]
  · rw [abs_of_nonneg (exactRatio_nonneg ..)]

end Xrpld.Protocol
