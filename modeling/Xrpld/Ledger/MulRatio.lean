import Xrpld.Protocol.RatioDirection

/-!
# The ratio of the payment engine

`mul_ratio` of `xrpld/ledger/domain/mul_ratio.rs`, the second implementation of the ratio of an issued
amount, and what both of them promise.

## The model

The function has no errors: where `from_parts` fails it takes zero, or the result without the last
unit. What is not checked here stays in its machine type (`mulRatioOf_settles`).

## What is proved

Both functions round eighteen digits of the exact ratio to sixteen in the rounding mode of the thread
before they look at the direction. The first one is directed exactly when that rounding does not go the
wrong way, and the second one moreover only below the largest amount (`mulRatio_directed_iff`).
-/

namespace Xrpld.Ledger

open Number Decimal Protocol Nat IOUAmount

variable {ε : Type} {mode : RoundingMode} {sc : MantissaScale} {neg aw up wide : Bool} {v w x : ℚ} {e : ℤ}
  {den n fuel : ℕ} {q : Quotient} {a r : IOUAmount}

/-! ### The code -/

def power10 : ℕ → Calc ε ℕ
  | 0 => return 1
  | n + 1 => do
    let result ← power10 n
    u128 (result * 10)

def log10Floor (fuel v : ℕ) : Calc ε ℤ := do
  if v = 0 then return -1
  else
    let (index, _) ← whileLoop .outOfFuel (fun s : ℤ × ℕ => decide (s.2 ≤ v) && decide (s.1 < 38)) (fun s => do
      let index ← i32 (s.1 + 1)
      let threshold ← u128 (s.2 * 10)
      return (index, threshold)) fuel (0, 10)
    return index

def log10Ceil (fuel v : ℕ) : Calc ε ℤ := do
  if v ≤ 1 then return 0
  else
    let floor ← log10Floor fuel v
    let power ← power10 floor.toNat
    if power = v then return floor else i32 (floor + 1)

def fl64 : ℤ := 18

/-- The operations of `mul_ratio`: they are not checked. -/
def uncheckedOps (fuel : ℕ) : QuotientOps ε where
  log10Ceil := log10Ceil fuel
  room := return fl64
  power := power10
  wide := u128
  exponent := i32

def unwrapOr {δ α : Type} (default : α) (p : Calc ε α) : Calc δ α := do
  match ← Prog.attempt p with
  | .ok a => return a
  | .error _ => return default

/-- The end of `mul_ratio`: a unit is added where the direction asks for it. -/
def adjust (fuel : ℕ) (scale : MantissaScale) (mode : RoundingMode) (roundUp neg : Bool) (result : IOUAmount) :
    Calc ε IOUAmount := do
  if roundUp && !neg then
    if result.isZero then unwrapOr .new (IOUAmount.fromParts fuel scale mode minIouMantissa minIouExponent)
    else do
      let mantissa ← i64 (result.mantissa + 1)
      unwrapOr result (IOUAmount.fromParts fuel scale mode mantissa result.exponent)
  else if !roundUp && neg then
    if result.isZero then unwrapOr .new (IOUAmount.fromParts fuel scale mode (-minIouMantissa) minIouExponent)
    else do
      let mantissa ← i64 (result.mantissa - 1)
      unwrapOr result (IOUAmount.fromParts fuel scale mode mantissa result.exponent)
  else return result

/-- `-x` for an `i64`, if the amount is negative. -/
def negateIf (neg : Bool) (x : ℤ) : Calc ε ℤ := if neg then i64 (-x) else return x

/-- `low as i64`. -/
def asI64 (low : ℕ) : ℤ := if low % 2 ^ 64 < 2 ^ 63 then (low % 2 ^ 64 : ℕ) else (low % 2 ^ 64 : ℕ) - 2 ^ 64

/-- `mul_ratio`, for an amount and a ratio that are not zero. -/
def mulRatioOf (fuel : ℕ) (scale : MantissaScale) (mode : RoundingMode) (amt : IOUAmount) (num den : ℕ)
    (roundUp neg : Bool) : Calc ε IOUAmount := do
  let absMantissa ← negateIf neg amt.mantissa
  let mul ← u128 (absMantissa.toNat * num)
  let low ← divU128 mul den
  let remainder ← subU128 mul (low * den)
  let q ← (uncheckedOps fuel).grow den { low, remainder, exponent := amt.exponent }
  let (low, hasRem, exponent) ← (uncheckedOps fuel).shrink q
  let mantissa ← negateIf neg (asI64 low)
  let result ← unwrapOr .new (IOUAmount.fromParts fuel scale mode mantissa exponent)
  if hasRem then adjust fuel scale mode roundUp neg result else return result

def mulRatio (fuel : ℕ) (scale : MantissaScale) (mode : RoundingMode) (amt : IOUAmount) (num den : UInt32)
    (roundUp : Bool) : Calc ε IOUAmount :=
  if den = 0 then return .new
  else if amt.isZero ∨ num = 0 then return .new
  else mulRatioOf fuel scale mode amt num.toNat den.toNat roundUp (decide (amt.mantissa < 0))

/-! ### The same quotient -/

theorem power10_eq (hn : n ≤ 38) : power10 (ε := ε) n = pure (10 ^ n) := by
  induction n with
  | zero => rfl
  | succ n ih =>
    have hp : 10 ^ (n + 1) ≤ 10 ^ 38 := Nat.pow_le_pow_right (by norm_num) hn
    rw [power10, ih (by omega), pure_bind_eq, ← pow_succ, u128, if_pos (by omega)]

theorem log10Floor_eq (hn : n ≠ 0) (ht : n < 10 ^ 37) (hf : 40 ≤ fuel) :
    log10Floor (ε := ε) fuel n = pure (log 10 n : ℤ) := by
  have hl : log 10 n < 37 := log_lt_of_lt_pow hn ht
  refine Prog.eq_pure_of_wp fun wide => ?_
  rw [log10Floor, if_neg hn, wp_bind]
  -- the loop has counted the powers of ten up to the number
  refine wp_imp (wp_whileLoop (fun j s w => s.1 = (j : ℤ) ∧ s.2 = 10 ^ (j + 1) ∧ j ≤ log 10 n ∧ w = wide) ?_
    (fun j s w hs hc => ?_) fun s w hs _ => ?_) (fun s w hs => ?_)
  · simp
  · obtain ⟨hs1, hs2, hj, rfl⟩ := hs
    rw [Bool.and_eq_true, decide_eq_true_iff, hs2] at hc
    have hj' : j + 1 ≤ log 10 n := le_log_of_pow_le (by norm_num) hc.1
    rw [wp_bind, i32_eq (abs_le.mpr ⟨by omega, by omega⟩), wp_pure, wp_bind, u128, if_pos (by omega), wp_pure, wp_pure]
    refine ⟨?_, ?_, hj', rfl⟩
    · rw [hs1, cast_succ]
    · rw [hs2, pow_succ 10 (j + 1)]
  · obtain ⟨-, -, hj, -⟩ := hs
    omega
  · obtain ⟨hc, j, hs1, hs2, hj, rfl⟩ := hs
    refine ⟨?_, rfl⟩
    have ha : log 10 n ≤ j := by
      by_contra ho
      have he : s.2 ≤ n := by
        rw [hs2]
        exact pow_le_of_le_log hn (by omega)
      rw [decide_eq_true he, decide_eq_true (by omega)] at hc
      exact absurd hc (by decide)
    omega

theorem log10Ceil_eq (ht : n < 10 ^ 37) (hf : 40 ≤ fuel) : log10Ceil (ε := ε) fuel n = pure (clog 10 n : ℤ) := by
  by_cases hn : n ≤ 1
  · rw [log10Ceil, if_pos hn, clog_of_right_le_one hn]
    rfl
  · have hn0 : n ≠ 0 := by omega
    have hl : log 10 n < 37 := log_lt_of_lt_pow hn0 ht
    rw [log10Ceil, if_neg hn, log10Floor_eq hn0 ht hf, pure_bind_eq, Int.toNat_natCast, power10_eq (by omega),
      pure_bind_eq, clog_eq hn0]
    split_ifs with h
    · rfl
    · rw [i32, if_pos (by omega)]
      rfl

theorem uncheckedOps_exact (hf : 40 ≤ fuel) : (uncheckedOps (ε := ε) fuel).Exact where
  log10Ceil n hn := log10Ceil_eq hn hf
  room := rfl
  power n hn := power10_eq (hn.trans (by norm_num))
  wide n hn := if_pos hn
  exponent z hz := i32_eq hz

/-! ### The result -/

theorem wp_unwrapOr {δ α : Type} {p : Calc ε α} {d : α} {Q : α → Bool → Prop} {E : δ → Bool → Prop} {F : Fault → Prop} :
    wp (unwrapOr d p) Q E F wide ↔ wp p Q (fun _ => Q d) F wide := by
  rw [unwrapOr, wp_bind, wp_attempt]
  rfl

/-- The result before the direction is looked at: zero if there is none. -/
def Rounded (negative : Bool) (v : ℚ) (r : IOUAmount) : Prop := Makes negative v r ∨ (limit ≤ v ∧ r = .new)

/-- The result of a step: the smallest amount after zero, one unit more, or the same amount if there is no larger one. -/
def Stepped (negative : Bool) (v : ℚ) (r r' : IOUAmount) : Prop :=
  (r = .new ∧ Makes negative smallest r') ∨ (r.mantissa ≠ 0 ∧ (Makes negative (nextUnit v) r' ∨ (limit ≤ nextUnit v ∧ r' = r)))

/-- **The result** of the payment engine's ratio. -/
def Settled (mode : RoundingMode) (negative away : Bool) (x : ℚ) (r' : IOUAmount) : Prop :=
  ∃ r, Rounded negative (shown mode negative (cut 18 x)) r ∧
    if cut 18 x ≠ x ∧ away = true then Stepped negative (shown mode negative (cut 18 x)) r r' else r' = r

/-- The step away from zero. -/
theorem adjust_steps (hf : 20 ≤ fuel) (h : Rounded neg v r) (ha : (up ^^ neg)) :
    wp (adjust (ε := ε) fuel sc mode up neg r) (fun r' _ => Stepped neg v r r') ⊥ ⊥ wide := by
  by_cases hz : r = .new
  · -- zero becomes the smallest amount
    subst hz
    have hs {m : ℤ} (hm : m = if neg then -(minIouMantissa : ℤ) else minIouMantissa) :
        wp (unwrapOr (δ := ε) .new (fromParts fuel sc mode m minIouExponent))
          (fun r' _ => Stepped neg v .new r') ⊥ ⊥ wide := by
      rw [wp_unwrapOr]
      exact wp_noError (fromParts_smallest hf hm) (fun r' _ hr' => .inl ⟨rfl, hr'⟩)
    cases neg with
    | false =>
      obtain rfl : up := by simpa using ha
      exact hs rfl
    | true =>
      obtain rfl : up = false := by simpa using ha
      exact hs rfl
  · obtain hk | ⟨-, hn⟩ := h
    · have hv : smallest ≤ v := by
        by_contra hv
        obtain ⟨-, hn⟩ | ⟨hge, -⟩ := hk
        · exact hz hn
        · exact hv hge
      obtain ⟨hg, hp, hge, hl, he, he', -⟩ := hk.parts hv
      have hisZero : r.isZero = false := decide_eq_false (by omega)
      have hx {m : ℤ} (hm : m = if neg then r.mantissa - 1 else r.mantissa + 1) (hm' : |m| ≤ 10 ^ 16) :
          wp (i64 (ε := ε) m >>= fun m => unwrapOr r (fromParts fuel sc mode m r.exponent))
            (fun r' _ => Stepped neg v r r') ⊥ ⊥ wide := by
        rw [wp_bind, i64, if_pos (by omega), wp_pure, wp_unwrapOr]
        exact wp_mono (fromParts_next hf hk hv hm) (fun r' _ hr' => .inr ⟨by omega, .inl hr'⟩)
          (fun _ _ hr => .inr ⟨by omega, .inr ⟨hr.2, rfl⟩⟩) fun _ h => h
      cases neg with
      | false =>
        obtain rfl : up := by simpa using ha
        simp only [adjust, Bool.not_false, Bool.and_true, if_true, hisZero, Bool.false_eq_true, if_false]
        exact hx rfl (abs_le.mpr ⟨by omega, by omega⟩)
      | true =>
        obtain rfl : up = false := by simpa using ha
        simp only [adjust, Bool.not_true, Bool.and_false, Bool.not_false, Bool.and_true, Bool.false_eq_true, if_true, if_false,
          hisZero]
        exact hx rfl (abs_le.mpr ⟨by omega, by omega⟩)
    · exact absurd hn hz

/-- The end of `mul_ratio`. -/
theorem finish_settles {low : ℕ} {hasRem : Bool} {m : ℤ} (h : Eighteen x low hasRem e) (hf : 20 ≤ fuel)
    (hm : m = if neg then -(low : ℤ) else low) :
    wp (unwrapOr (δ := ε) .new (fromParts fuel sc mode m e) >>= fun result =>
      if hasRem then adjust fuel sc mode up neg result else pure result)
      (fun r _ => Settled mode neg (up ^^ neg) x r) ⊥ ⊥ wide := by
  have hk := fromParts_signed sc mode wide h.pos h.le (h.exponent.trans (by norm_num)) hf hm
  rw [← h.cut_eq] at hk
  have he {r : IOUAmount} (hr : Rounded neg (shown mode neg (cut 18 x)) r) (wide : Bool) :
      wp (if hasRem then adjust (ε := ε) fuel sc mode up neg r else pure r)
        (fun r _ => Settled mode neg (up ^^ neg) x r) ⊥ ⊥ wide := by
    by_cases hs : cut 18 x ≠ x ∧ (up ^^ neg)
    · rw [if_pos (h.more.mpr hs.1)]
      refine wp_imp (adjust_steps hf hr hs.2) (fun r' _ hr' => ⟨r, hr, ?_⟩)
      rwa [if_pos hs]
    · have ht : (if hasRem then adjust (ε := ε) fuel sc mode up neg r else pure r) = pure r := by
        split_ifs with hre
        · have ha : (up ^^ neg) = false := Bool.eq_false_iff.mpr fun h' => hs ⟨h.more.mp hre, h'⟩
          cases up <;> cases neg <;> first | rfl | exact absurd ha (by decide)
        · rfl
      rw [ht, wp_pure]
      exact ⟨r, hr, by rw [if_neg hs]⟩
  rw [wp_bind, wp_unwrapOr]
  exact wp_mono hk (fun r _ hr => he (.inl hr) _) (fun _ _ her => he (.inr ⟨her.2, rfl⟩) _) fun _ h => h

theorem wp_negateIf {E : ε → Bool → Prop} {F : Fault → Prop} {z : ℤ} {Q : ℤ → Bool → Prop} (hz : |z| < 2 ^ 63)
    (h : Q (if neg then -z else z) wide) : wp (negateIf neg z) Q E F wide := by
  have := abs_lt.mp hz
  rw [negateIf, wp_ite]
  refine ⟨fun hn => ?_, fun hn => ?_⟩
  · rw [i64, if_pos (by omega)]
    rwa [if_pos hn] at h
  · rwa [if_neg hn] at h

/-- **What the payment engine's ratio is**, in numbers. -/
theorem mulRatioOf_settles {num : ℕ} (ha : a.Normal) (hm : a.mantissa ≠ 0) (hu : 0 < num) (hn : num < 2 ^ 32)
    (hde : 0 < den) (hd : den < 2 ^ 32) (hf : 40 ≤ fuel) (hg : neg = decide (a.mantissa < 0)) :
    wp (mulRatioOf (ε := ε) fuel sc mode a num den up neg)
      (fun r _ => Settled mode neg (up ^^ neg) (exactRatio a num den) r) ⊥ ⊥ wide := by
  obtain rfl | ⟨hge, ht, he, he'⟩ := ha
  · exact absurd rfl hm
  have hMge : den ≤ a.mantissa.natAbs * num := by
    have := mul_le_mul hge hu
    omega
  have hMlt : a.mantissa.natAbs * num < 10 ^ 27 := by
    have := mul_le_mul ht.le hn.le
    omega
  have hb : (if neg then -a.mantissa else a.mantissa).toNat = a.mantissa.natAbs := by
    rw [hg]
    split_ifs with h
    · have := of_decide_eq_true h
      omega
    · have := of_decide_eq_false (Bool.not_eq_true _ ▸ h)
      omega
  rw [mulRatioOf, exactRatio, wp_bind]
  refine wp_negateIf (abs_lt.mpr ⟨by omega, by omega⟩) ?_
  rw [hb]
  generalize a.mantissa.natAbs * num = M at hMge hMlt ⊢
  obtain ⟨hs, hl, hx, h18⟩ := quotient_eighteen (e := a.exponent) hde hMge hMlt (abs_le.mpr ⟨by omega, by omega⟩)
  have ho : M - M / den * den = M % den := by rw [mod_eq_sub, mul_comm den]
  have hle := h18.le
  rw [u128, if_pos (by omega), pure_bind_eq, divU128, if_neg hde.ne', pure_bind_eq, subU128,
    if_pos (div_mul_le_self _ _), pure_bind_eq, ho, grow_eq (uncheckedOps_exact hf) hs hd, pure_bind_eq,
    shrink_eq (uncheckedOps_exact hf) hl hx, pure_bind_eq]
  generalize shrunk (grown den ⟨M / den, M % den, a.exponent⟩) = s at h18 hle
  obtain ⟨low, hasRem, exponent⟩ := s
  have hc : asI64 low = low := by
    rw [asI64, mod_eq_of_lt (by omega), if_pos (by omega)]
  rw [wp_bind, hc]
  refine wp_negateIf (abs_lt.mpr ⟨by omega, by omega⟩) ?_
  exact finish_settles h18 (by omega) rfl

/-! ### Directions -/

/-- **The direction of a ratio**, as the payment engine computes it. -/
theorem directed_settled_iff (hx : smallest ≤ x) (hr : Settled mode neg (up ^^ neg) x r) :
    DirectedBy up (signed neg x) r ↔ Kept mode neg (up ^^ neg) x ∧ InRange (up ^^ neg) x := by
  have hp := smallest_pos.trans_le hx
  obtain ⟨n, e, h⟩ := exists_sixteen hp
  have hw := shown_cut mode neg hp
  rw [h.digits, h.place] at hw
  have hg := good_ratio_iff mode neg (up ^^ neg) hx
  obtain ⟨r0, hr0, hsp⟩ := hr
  have hno := h.not_kept_of_limit mode neg (up ^^ neg) hp
  have hrg := h.inRange_of_kept mode neg (up ^^ neg)
  have ha := h.good_at_limit mode neg hp hx
  rw [ratio] at hg
  rw [← hw] at hno hrg ha
  have hv := smallest_le_shown mode neg hx
  by_cases ho : cut 18 x ≠ x ∧ (up ^^ neg)
  · rw [if_pos ho] at hsp hg
    obtain ⟨rfl, hr⟩ | ⟨hm, hr⟩ := hsp
    · -- there was no amount, and the smallest one is far away
      obtain hk | ⟨hl, -⟩ := hr0
      · obtain ⟨ht, -⟩ | ⟨-, -, -, hm, -⟩ := hk
        · exact absurd hv (not_le.mpr ht)
        · exact absurd rfl hm
      · rw [directed_iff_good hr le_rfl]
        refine iff_of_false (fun hf => ?_) (hno hl)
        have hs := hf.1
        rw [if_pos ho.2] at hs
        have hn := h.shown_le_two_mul mode neg
        have hi := two_mul_smallest_lt
        linarith
    · have hk : Makes neg (shown mode neg (cut 18 x)) r0 := by
        obtain hk | ⟨-, rfl⟩ := hr0
        · exact hk
        · exact absurd rfl hm
      obtain ⟨-, -, -, -, -, -, hl⟩ := hk.parts hv
      obtain hr | ⟨hnx, rfl⟩ := hr
      · have hv' := smallest_le_nextUnit hv
        rw [directed_iff_good hr hv', hg, iff_self_and]
        intro hkp
        have hs := (hg.mpr hkp).1
        rw [if_pos ho.2] at hs
        rw [InRange, if_pos ho.2]
        exact hs.trans (Makes.le_largest hr hv')
      · rw [directed_iff_good hk hv]
        rw [ho.2]
        exact ha ho.1 hl hnx
  · rw [if_neg ho] at hsp hg
    subst hsp
    obtain hk | ⟨hl, rfl⟩ := hr0
    · obtain ⟨-, -, -, -, -, -, hl⟩ := hk.parts hv
      rw [directed_iff_good hk hv, hg, iff_self_and]
      exact fun hkp => hrg ho hkp hl
    · exact iff_of_false (not_directed_new hx) (hno hl)

/-- The ratio of nothing is directed. -/
theorem directed_new : DirectedBy up 0 .new := by
  have hv : new.value = 0 := by norm_num [value, new]
  rw [DirectedBy, hv]
  exact ⟨by split_ifs <;> rfl, by simpa using (Decimal.ten_zpow_pos (K := ℚ) _).le⟩

/-- **When the two ratio functions are directed.** For every amount, ratio and rounding mode, except for exact ratios below
the smallest amount: the ratio of the amounts never panics, fails only with an overflow, and is directed exactly when the
rounding in the mode of the thread does not go the wrong way; the ratio of the payment engine always returns, and is
directed exactly when moreover there is an amount on the side asked for. -/
theorem mulRatio_directed_iff (fuel : ℕ) (scale : MantissaScale) (mode : RoundingMode) (a : IOUAmount) (num den : UInt32)
    (roundUp wide : Bool) (hfuel : 40 ≤ fuel) (ha : a.Normal) (hden : den ≠ 0)
    (hexact : a.value * num.toNat / den.toNat = 0 ∨ smallest ≤ |a.value * num.toNat / den.toNat|) :
    (∃ res wide', Protocol.mulRatio fuel scale mode a num den roundUp wide = .ok (res, wide') ∧
      (∀ err, res = .error err → err = .overflow) ∧
      ∀ r, res = .ok r → (DirectedBy roundUp (a.value * num.toNat / den.toNat) r ↔ a.value * num.toNat / den.toNat = 0 ∨
        Kept mode (decide (a.mantissa < 0)) (roundUp ^^ decide (a.mantissa < 0)) |a.value * num.toNat / den.toNat|)) ∧
    ∃ r wide', mulRatio (ε := Empty) fuel scale mode a num den roundUp wide = .ok (.ok r, wide') ∧
      (DirectedBy roundUp (a.value * num.toNat / den.toNat) r ↔ a.value * num.toNat / den.toNat = 0 ∨
        Kept mode (decide (a.mantissa < 0)) (roundUp ^^ decide (a.mantissa < 0)) |a.value * num.toNat / den.toNat| ∧
        InRange (roundUp ^^ decide (a.mantissa < 0)) |a.value * num.toNat / den.toNat|) := by
  have hd : 0 < den.toNat := pos_of_ne_zero fun h => hden (UInt32.toNat_inj.mp h)
  have hde : den.toNat < 2 ^ 32 := den.toNat_lt
  rw [Protocol.mulRatio, if_neg hden, mulRatio, if_neg hden]
  by_cases hz : a.mantissa = 0 ∨ num = 0
  · have hv : a.value * num.toNat / den.toNat = 0 := by
      obtain h | h := hz
      · simp [value, h]
      · simp [h]
    have hu : a.mantissa = 0 ∨ num.toNat = 0 := hz.imp_right fun h => by rw [h]; rfl
    rw [mulRatioOf_zero ha hu hd hde hfuel, if_pos (hz.imp_left fun h => by simpa [isZero] using h), hv]
    refine ⟨⟨.ok .new, wide, rfl, (fun err h => by cases h), fun r h => ?_⟩, .new, wide, rfl, iff_of_true directed_new (.inl rfl)⟩
    obtain rfl := Except.ok.inj h
    exact iff_of_true directed_new (.inl rfl)
  · obtain ⟨hm, hu⟩ := not_or.mp hz
    have hn : 0 < num.toNat := pos_of_ne_zero fun h => hu (UInt32.toNat_inj.mp h)
    have hp : 0 < exactRatio a num.toNat den.toNat := by
      have hM : 0 < a.mantissa.natAbs * num.toNat := mul_pos (Int.natAbs_pos.mpr hm) hn
      exact mul_pos (div_pos (by exact_mod_cast hM) (by exact_mod_cast hd)) (Decimal.ten_zpow_pos _)
    have hne : a.value * num.toNat / den.toNat ≠ 0 := by
      rw [← abs_pos, abs_exactRatio]
      exact hp
    have hx := hexact.resolve_left hne
    rw [abs_exactRatio] at hx
    simp only [hne, false_or, abs_exactRatio]
    rw [exactRatio_eq, if_neg (not_or.mpr ⟨by simpa [isZero] using hm, hu⟩)]
    constructor
    · refine Prog.ends_of_wp (wp_mono (mulRatioOf_makes ha hm hn num.toNat_lt hd hde hfuel)
        (fun r _ hr => directed_makes_iff hx hr) (fun _ _ he => he.1) fun _ h => h)
    · exact returns_of_wp (wp_imp (mulRatioOf_settles ha hm hn num.toNat_lt hd hde hfuel rfl)
        (fun r _ hr => directed_settled_iff hx hr))

/-- One, two thirds of it, rounded towards minus infinity: both are directed. -/
theorem mulRatio_directed_two_thirds :
    (∃ res wide', Protocol.mulRatio 40 .large330 .downward ⟨10 ^ 15, -15⟩ 2 3 false false = .ok (res, wide') ∧
      ∀ r, res = .ok r → DirectedBy false (2 / 3) r) ∧
    ∃ r wide', mulRatio (ε := Empty) 40 .large330 .downward ⟨10 ^ 15, -15⟩ 2 3 false false = .ok (.ok r, wide') ∧
      DirectedBy false (2 / 3) r := by
  have hv : (⟨10 ^ 15, -15⟩ : IOUAmount).value * (2 : UInt32).toNat / (3 : UInt32).toNat = 2 / 3 := by
    rw [show (2 : UInt32).toNat = 2 from rfl, show (3 : UInt32).toNat = 3 from rfl]
    norm_num [value]
  have hk : Kept .downward false false (2 / 3) := by simp [Kept, Rises, RoundsUp, decision]
  have hi : InRange false (2 / 3) := by
    rw [InRange, limit]
    norm_num
  have h := mulRatio_directed_iff 40 .large330 .downward ⟨10 ^ 15, -15⟩ 2 3 false false le_rfl (.inr (by decide)) (by decide)
    (.inr (by rw [hv, smallest]; norm_num))
  rw [hv, abs_of_pos (by norm_num)] at h
  obtain ⟨⟨res, wide, he, -, hr⟩, r, wide', hu, hd⟩ := h
  exact ⟨⟨res, wide, he, fun r h => (hr r h).mpr (.inr hk)⟩, r, wide', hu, hd.mpr (.inr ⟨hk, hi⟩)⟩

/-- **The rounding to the nearest goes the wrong way**: two thirds of one, rounded down, are above two thirds, and rounded
up two units away. -/
theorem mulRatio_not_directed :
    (∃ r, Protocol.mulRatio 40 .large330 .toNearest ⟨10 ^ 15, -15⟩ 2 3 false false = .ok (.ok r, false) ∧
      2 / 3 < r.value) ∧
    (∃ r, Protocol.mulRatio 40 .large330 .toNearest ⟨10 ^ 15, -15⟩ 2 3 true false = .ok (.ok r, false) ∧
      10 ^ r.exponent < r.value - 2 / 3) ∧
    (∃ r, mulRatio (ε := Empty) 40 .large330 .toNearest ⟨10 ^ 15, -15⟩ 2 3 false false = .ok (.ok r, false) ∧
      2 / 3 < r.value) ∧
    ∃ r, mulRatio (ε := Empty) 40 .large330 .toNearest ⟨10 ^ 15, -15⟩ 2 3 true false = .ok (.ok r, false) ∧
      10 ^ r.exponent < r.value - 2 / 3 := by
  refine ⟨⟨⟨6666666666666667, -16⟩, by decide +kernel, ?_⟩, ⟨⟨6666666666666668, -16⟩, by decide +kernel, ?_⟩,
    ⟨⟨6666666666666667, -16⟩, by decide +kernel, ?_⟩, ⟨⟨6666666666666668, -16⟩, by decide +kernel, ?_⟩⟩
  all_goals norm_num [value]

end Xrpld.Ledger
