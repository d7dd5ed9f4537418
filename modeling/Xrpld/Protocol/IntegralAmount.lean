import Xrpld.Protocol.IouRounding

/-!
# Whole amounts

A native amount and an amount of a multi-purpose token are an `i64`. They are made of a number by
`try_to_i64` of `xrpl/basics/math/number.rs` (`XRPAmount::from_number`, `MPTAmount::from_number`), which
rounds in the rounding mode of the thread.

## The model

The mantissa that `external_parts` gives is at most `i64::MAX`, so that the sign can be taken off and
put back; the digits are dropped and added at the magnitude.

## What is proved

`try_to_i64` gives the whole number that the mode takes the number to, if it is an `i64` and the mantissa
can be written as one (`tryToI64_spec`). For a number of a large scale this is correct rounding to an
integer (`tryToI64_rounded`).
-/

namespace Xrpld.Protocol

open Number Nat NumberParts

/-! ### The code -/

/-- The mantissa of `external_parts`: one that is too long loses a zero. -/
def dropZeroPastRep (x : NumberParts) : Calc NumberNormalizeError NumberParts :=
  if maxRep < x.mantissa then
    if x.mantissa % 10 ≠ 0 then Prog.fail .requiresRounding
    else do
      let exponent ← checkedI32 .exponentOverflow (x.exponent + 1)
      return { x with mantissa := x.mantissa / 10, exponent }
  else return x

def externalParts (x : NumberParts) : Calc NumberNormalizeError (ℤ × ℤ) := do
  if x.mantissa = 0 then return (0, x.exponent)
  else
    let x ← dropZeroPastRep x
    let mantissa ← checkedI64 .requiresRounding x.mantissa
    return (if x.negative then -mantissa else mantissa, x.exponent)

/-- The first loop of `try_to_i64`: a digit goes to the guard. -/
def dropDrop (s : ArithmeticGuard × NumberParts) : Work (ArithmeticGuard × NumberParts) := do
  let offset ← i32 (s.2.exponent + 1)
  return (s.1.push (lastDigit s.2.mantissa), { s.2 with mantissa := s.2.mantissa / 10, exponent := offset })

/-- The second loop of `try_to_i64`. -/
def growDrops (x : NumberParts) : Work NumberParts :=
  if maxRep / 10 < x.mantissa then Prog.fail .overflow
  else do
    let offset ← i32 (x.exponent - 1)
    return { x with mantissa := x.mantissa * 10, exponent := offset }

def doRoundI64 (mode : RoundingMode) (g : ArithmeticGuard) (drops : ℕ) : Work ℤ :=
  if g.round mode = 1 ∨ (g.round mode = 0 ∧ drops % 2 = 1) then
    if drops = maxRep then Prog.fail .overflow
    else return if g.negative then -(drops + 1 : ℤ) else (drops + 1 : ℤ)
  else return if g.negative then -(drops : ℤ) else (drops : ℤ)

def tryToI64 (fuel : ℕ) (mode : RoundingMode) (x : NumberParts) : Work ℤ := do
  let (externalMantissa, offset) ← Prog.mapErr (fun _ => NumberArithmeticError.overflow) (externalParts x)
  if externalMantissa = 0 then return 0
  else
    let (g, y) ← whileLoop .outOfFuel (fun s : ArithmeticGuard × NumberParts => decide (s.2.exponent < 0)) dropDrop fuel
      ({ negative := x.negative }, ⟨x.negative, externalMantissa.natAbs, offset⟩)
    let y ← whileLoop .outOfFuel (fun y : NumberParts => decide (0 < y.exponent)) growDrops fuel y
    doRoundI64 mode g y.mantissa

/-! ### What it computes -/

variable {x : NumberParts} {mode : RoundingMode} {wide : Bool} {fuel bd : ℕ}

/-- A mantissa that `external_parts` can write as an `i64`. -/
def Writable (m : ℕ) : Prop := m ≤ maxRep ∨ m % 10 = 0

theorem externalParts_spec (hm : x.mantissa ≠ 0) (hm' : x.mantissa < 2 ^ 64) (he : |x.exponent| ≤ bd)
    (hb : bd < 10 ^ 9) : wp (externalParts x)
      (fun p _ => Writable x.mantissa ∧ ∃ m : ℕ, p.1 = (if x.negative then -(m : ℤ) else m) ∧ m ≠ 0 ∧ m ≤ maxRep ∧
        |p.2| ≤ bd + 1 ∧ (m : ℚ) * 10 ^ p.2 = x.mantissa * 10 ^ x.exponent)
      (fun _ _ => ¬ Writable x.mantissa) ⊥ wide := by
  have hr : maxRep = 9223372036854775807 := rfl
  have he' := abs_le.mp he
  rw [externalParts, if_neg hm, wp_bind, dropZeroPastRep]
  by_cases hl : maxRep < x.mantissa
  · rw [if_pos hl]
    by_cases ht : x.mantissa % 10 ≠ 0
    · rw [if_pos ht, wp_fail]
      rintro (h | h)
      · omega
      · exact ht h
    · rw [if_neg ht, wp_bind, checkedI32, if_pos (by omega), wp_pure, wp_pure, wp_bind, checkedI64,
        if_pos (by simp only; omega), wp_pure, wp_pure]
      refine ⟨.inr (by omega), x.mantissa / 10, rfl, by omega, by omega, abs_le.mpr ⟨by simp only; omega, by simp only; omega⟩, ?_⟩
      have hd : (x.mantissa : ℚ) = (x.mantissa / 10 : ℕ) * 10 := by exact_mod_cast (by omega : x.mantissa = x.mantissa / 10 * 10)
      rw [Decimal.ten_zpow_succ, hd]
      ring
  · rw [if_neg hl, wp_pure, wp_bind, checkedI64, if_pos (by omega), wp_pure, wp_pure]
    exact ⟨.inl (not_lt.mp hl), x.mantissa, rfl, hm, not_lt.mp hl, he.trans (by omega), rfl⟩

/-- The digits after the point go to the guard. -/
theorem dropDrops_spec (hm : x.mantissa ≤ maxRep) (he : |x.exponent| ≤ bd) (hb : bd ≤ 10 ^ 9) (hu : bd < fuel) :
    wp (whileLoop .outOfFuel (fun s : ArithmeticGuard × NumberParts => decide (s.2.exponent < 0)) dropDrop fuel
      (({ negative := x.negative } : ArithmeticGuard), x))
      (fun s _ => ∃ f, Holds (x.mantissa * 10 ^ x.exponent) f s.1 s.2 ∧ Exact s.1 f ∧ s.2.negative = x.negative ∧
        s.2.mantissa ≤ maxRep ∧
        (s.2.exponent = 0 ∧ s.2.mantissa < maxRep ∨ f = 0 ∧ 0 ≤ s.2.exponent ∧ s.2.exponent ≤ bd)) ⊥ ⊥ wide := by
  have he' := abs_le.mp he
  have hr : maxRep = 9223372036854775807 := rfl
  -- after `j` turns `j` digits are gone
  refine wp_imp (wp_whileLoop (fun j s _ => (∃ f, Holds (x.mantissa * 10 ^ x.exponent) f s.1 s.2 ∧ Exact s.1 f ∧
    (j = 0 → f = 0)) ∧ s.2.negative = x.negative ∧ s.2.exponent = x.exponent + j ∧ s.2.mantissa * 10 ^ j ≤ x.mantissa ∧
    (0 < j → s.2.exponent ≤ 0)) ?_ (fun j s _ hs hc => ?_) fun s _ hs hc => ?_) (fun s _ hs => ?_)
  · exact ⟨⟨0, ⟨sums_new.toSums, by rw [add_zero], rfl⟩, sums_new, fun _ => rfl⟩, rfl, by simp, by simp,
      fun h => absurd h (by simp)⟩
  · obtain ⟨⟨f, hh, -, -⟩, hn, hx, hl, -⟩ := hs
    have hlt := of_decide_eq_true hc
    rw [dropDrop, wp_bind, i32, if_pos (by omega), wp_pure, wp_pure]
    refine ⟨⟨_, hh.drop.1, hh.drop.2, fun h => absurd h (by omega)⟩, hn, by simp only; omega, ?_,
      fun _ => by simp only; omega⟩
    have ht : s.2.mantissa / 10 * 10 ≤ s.2.mantissa := div_mul_le_self _ _
    rw [pow_succ', ← mul_assoc]
    exact (mul_le_mul_right _ ht).trans hl
  · obtain ⟨-, -, hx, -, -⟩ := hs
    have hlt := of_decide_eq_true hc
    omega
  · obtain ⟨hc, j, ⟨f, hh, ha, hf⟩, hn, hx, hl, hd⟩ := hs
    have hg := of_decide_eq_false hc
    obtain rfl | hj := Nat.eq_zero_or_pos j
    · rw [pow_zero, mul_one] at hl
      exact ⟨f, hh, ha, hn, hl.trans hm, .inr ⟨hf rfl, by omega, by omega⟩⟩
    · have ht : s.2.mantissa * 10 ≤ x.mantissa := by
        refine (mul_le_mul_left _ ?_).trans hl
        exact le_self_pow hj.ne' 10
      exact ⟨f, hh, ha, hn, by omega, .inl ⟨by omega, by omega⟩⟩

/-- The zeros before the point are put on. -/
theorem growDrops_spec (hm : x.mantissa ≤ maxRep) (he : 0 ≤ x.exponent) (he' : x.exponent ≤ bd)
    (hbd : bd ≤ 10 ^ 9) (hf : bd < fuel) :
    wp (whileLoop .outOfFuel (fun y : NumberParts => decide (0 < y.exponent)) growDrops fuel x)
      (fun y _ => y.mantissa ≤ maxRep ∧ (y.mantissa : ℚ) = x.mantissa * 10 ^ x.exponent)
      (fun err _ => err = .overflow ∧ (maxRep + 1 : ℚ) ≤ x.mantissa * 10 ^ x.exponent) ⊥ wide := by
  refine wp_imp (wp_whileLoop (fun j y _ => y.mantissa ≤ maxRep ∧ y.exponent = x.exponent - j ∧ 0 ≤ y.exponent ∧
    (y.mantissa : ℚ) * 10 ^ y.exponent = x.mantissa * 10 ^ x.exponent) ⟨hm, by simp, he, rfl⟩
    (fun j y _ hy hc => ?_) fun y _ hy hc => ?_) (fun y _ hy => ?_)
  · obtain ⟨hle, hx, -, hv⟩ := hy
    have hp := of_decide_eq_true hc
    have ht : (y.mantissa : ℚ) * 10 ^ y.exponent = (y.mantissa * 10 : ℕ) * 10 ^ (y.exponent - 1) := by
      have := Decimal.ten_zpow_succ (K := ℚ) (y.exponent - 1)
      rw [sub_add_cancel] at this
      rw [this]
      push_cast
      ring
    rw [growDrops, wp_ite]
    refine ⟨fun hl => ?_, fun hs => ?_⟩
    · rw [wp_fail, ← hv, ht]
      refine ⟨rfl, ?_⟩
      have hu : (1 : ℚ) ≤ 10 ^ (y.exponent - 1) := one_le_zpow₀ (by norm_num) (by omega)
      have hb : (maxRep + 1 : ℚ) ≤ (y.mantissa * 10 : ℕ) := by exact_mod_cast (by omega : maxRep + 1 ≤ y.mantissa * 10)
      calc (maxRep + 1 : ℚ) ≤ (y.mantissa * 10 : ℕ) := hb
        _ ≤ (y.mantissa * 10 : ℕ) * 10 ^ (y.exponent - 1) := le_mul_of_one_le_right (Nat.cast_nonneg _) hu
    · rw [wp_bind, i32, if_pos (by omega), wp_pure, wp_pure]
      exact ⟨by simp only; omega, by simp only; omega, by simp only; omega, ht.symm.trans hv⟩
  · obtain ⟨-, hx, -, -⟩ := hy
    have := of_decide_eq_true hc
    omega
  · obtain ⟨hc, j, hle, -, hg, hv⟩ := hy
    have hd := of_decide_eq_false hc
    rw [show y.exponent = 0 by omega, zpow_zero, mul_one] at hv
    exact ⟨hle, hv⟩

/-- The guard rounds the magnitude, and the sign is put on. -/
theorem doRoundI64_spec {g : ArithmeticGuard} {f : ℚ} {m : ℕ} {neg : Bool} (hg : Exact g f) (hn : g.negative = neg)
    (hm : m ≤ maxRep) (hf : f = 0 ∨ m < maxRep) : wp (doRoundI64 mode g m)
      (fun z _ => whole mode neg (m + f) ≤ maxRep ∧
        z = if neg then -(whole mode neg (m + f) : ℤ) else whole mode neg (m + f)) ⊥ ⊥ wide := by
  obtain ⟨hl, -⟩ := floor_add_fract (m := m) hg.nonneg hg.lt_one
  rw [doRoundI64, wp_ite, ← roundsUp_iff hg hn, whole, hl, hn]
  refine ⟨fun hu => ?_, fun hd => ?_⟩
  · have ht : m < maxRep := by
      refine hf.resolve_left fun hz => ?_
      rw [hz, add_zero] at hu
      exact not_roundsUp_natCast hu
    rw [if_neg (by omega), if_pos hu]
    exact ⟨ht, by push_cast; rfl⟩
  · rw [if_neg hd]
    exact ⟨hm, by rw [add_zero]⟩

/-- **A number as an `i64`**: the whole number that the mode takes it to. -/
theorem tryToI64_spec (hm : x.mantissa ≠ 0) (hm' : x.mantissa < 2 ^ 64) (he : |x.exponent| ≤ bd)
    (hb : bd < 10 ^ 9) (hf : bd + 2 ≤ fuel) : wp (tryToI64 fuel mode x)
      (fun z _ => Writable x.mantissa ∧ whole mode x.negative (x.mantissa * 10 ^ x.exponent) ≤ maxRep ∧
        z = if x.negative then -(whole mode x.negative (x.mantissa * 10 ^ x.exponent) : ℤ)
          else whole mode x.negative (x.mantissa * 10 ^ x.exponent))
      (fun err _ => err = .overflow ∧ (¬ Writable x.mantissa ∨ (maxRep + 1 : ℚ) ≤ x.mantissa * 10 ^ x.exponent))
      ⊥ wide := by
  rw [tryToI64, wp_bind, wp_mapErr]
  refine wp_mono (externalParts_spec hm hm' he hb) (fun p _ hp => ?_) (fun _ _ h => ⟨rfl, .inl h⟩) fun _ h => h
  obtain ⟨hw, m, hp1, hm0, hl, hpe, hvl⟩ := hp
  obtain ⟨external, offset⟩ := p
  simp only at hp1 hpe hvl
  have hne : external ≠ 0 := by
    rw [hp1]
    split_ifs <;> omega
  have ha : external.natAbs = m := by
    rw [hp1]
    split_ifs <;> omega
  simp only [if_neg hne, ha]
  rw [wp_bind, ← hvl]
  refine wp_noError (dropDrops_spec (x := ⟨x.negative, m, offset⟩) hl (show |offset| ≤ (bd + 1 : ℕ) by exact_mod_cast hpe)
    hb hf) (fun s _ hs => ?_)
  obtain ⟨g, y⟩ := s
  obtain ⟨f, hh, hxa, hn, hle, hd⟩ := hs
  simp only at hh hxa hn hle hd ⊢
  have hg : g.negative = x.negative := hh.sign.trans hn
  have hx : 0 ≤ y.exponent ∧ y.exponent ≤ (bd + 1 : ℕ) := by
    obtain ⟨h, -⟩ | ⟨-, h, h'⟩ := hd
    · omega
    · exact ⟨h, h'⟩
  rw [wp_bind]
  refine wp_mono (growDrops_spec hle hx.1 hx.2 hb hf) (fun z _ hz => ?_) (fun _ _ hr => ?_) fun _ h => h
  · obtain ⟨hzl, hv⟩ := hz
    have hu : (m : ℚ) * 10 ^ offset = z.mantissa + f ∧ (f = 0 ∨ z.mantissa < maxRep) := by
      rw [hh.eq, hv]
      obtain ⟨h, ht⟩ | ⟨rfl, -, -⟩ := hd
      · rw [h, zpow_zero, mul_one] at hv
        rw [Nat.cast_inj] at hv
        rw [h, zpow_zero, mul_one, mul_one]
        exact ⟨rfl, .inr (by omega)⟩
      · exact ⟨by ring, .inl rfl⟩
    rw [hu.1]
    exact wp_noError (doRoundI64_spec hxa hg hzl hu.2) (fun _ _ h => ⟨hw, h⟩)
  · refine ⟨hr.1, .inr (hr.2.trans ?_)⟩
    rw [hh.eq]
    exact mul_le_mul_of_nonneg_right (le_add_of_nonneg_right hxa.nonneg) (Decimal.ten_zpow_pos _).le

/-! ### Correct rounding -/

/-- **A number rounded to an integer** by a mode; a tie goes to the even one. -/
def roundedInt (mode : RoundingMode) (q : ℚ) : ℤ :=
  match mode with
  | .downward => ⌊q⌋
  | .upward => ⌈q⌉
  | .towardsZero => if q < 0 then ⌈q⌉ else ⌊q⌋
  | .toNearest =>
    if Int.fract q < 1 / 2 then ⌊q⌋ else if 1 / 2 < Int.fract q then ⌊q⌋ + 1 else ⌊q⌋ + ⌊q⌋ % 2

theorem roundedInt_intCast (mode : RoundingMode) (n : ℤ) : roundedInt mode n = n := by
  cases mode <;> simp [roundedInt]

/-- The magnitude is rounded with a look at the sign. -/
theorem signed_whole {neg : Bool} {a : ℚ} (ha : 0 ≤ a) :
    (if neg then -(whole mode neg a : ℤ) else whole mode neg a) = roundedInt mode (signed neg a) := by
  have hfl : ⌊a⌋ = (⌊a⌋₊ : ℤ) := (Int.natCast_floor_eq_floor ha).symm
  have hs := Int.floor_add_fract a
  have hf := Int.fract_lt_one a
  by_cases hi : Int.fract a = 0
  · rw [hi, add_zero, hfl, Int.cast_natCast] at hs
    rw [← hs, whole_natCast]
    cases neg
    · exact (roundedInt_intCast mode _).symm
    · exact (roundedInt_intCast mode (-_)).symm.trans (by simp [signed])
  · have hp : 0 < Int.fract a := lt_of_le_of_ne (Int.fract_nonneg a) (Ne.symm hi)
    have hc : ⌈a⌉ = ⌊a⌋ + 1 := by
      rw [Int.ceil_eq_iff]
      push_cast
      exact ⟨by linarith, by linarith⟩
    have hz : 0 < a := lt_of_le_of_ne ha fun h => hi (h ▸ Int.fract_zero)
    cases mode with
    | towardsZero | downward | upward =>
      cases neg <;>
        simp [signed, whole, RoundsUp, decision, roundedInt, hi, hc, hfl, hz, hz.le, Int.floor_neg, Int.ceil_neg]
    | toNearest =>
      -- a negative number has its floor, and its fraction, on the other side
      have hn : ⌊-a⌋ = -(⌊a⌋₊ + 1) ∧ Int.fract (-a) = 1 - Int.fract a := by
        rw [Int.floor_neg, hc, hfl]
        exact ⟨rfl, Int.fract_neg hi⟩
      obtain ⟨hl, hh⟩ : ∃ hl : ℚ, hl = 1 / 2 := ⟨_, rfl⟩
      simp only [whole, RoundsUp, decision, roundedInt, ← hh]
      obtain h | h | h := lt_trichotomy (Int.fract a) hl
      · have hb : hl < 1 - Int.fract a := by linarith
        cases neg <;> simp [signed, hfl, hn, h, h.not_gt, h.ne, hb, hb.not_gt]
      · have hb : 1 - hl = hl := by linarith
        cases neg <;> simp [signed, hfl, hn, h, hb] <;> split_ifs <;> omega
      · have hb : 1 - Int.fract a < hl := by linarith
        cases neg <;> simp [signed, hfl, hn, h, h.not_gt, hb]

/-- **`try_to_i64` rounds correctly**: of a normalized number of a large scale it makes the integer that the mode rounds it
to, and it fails if and only if the magnitude of that is more than `i64::MAX`. -/
theorem tryToI64_rounded {scale : MantissaScale} (hscale : scale ≠ .small) (hx : x.isNormalized scale = true)
    (mode : RoundingMode) (hfuel : 32770 ≤ fuel) (wide : Bool) :
    ∃ wide', tryToI64 fuel mode x wide = .ok (if |roundedInt mode x.value| ≤ maxRep then .ok (roundedInt mode x.value)
      else .error .overflow, wide') := by
  by_cases h0 : x.mantissa = 0
  · have hv : x.value = (0 : ℤ) := by
      rw [value, h0]
      simp
    rw [hv, roundedInt_intCast, abs_zero, if_pos (Nat.cast_nonneg _), tryToI64, externalParts, if_pos h0]
    exact ⟨wide, rfl⟩
  obtain ⟨-, hm⟩ := mantissaRange_large hscale
  rw [isNormalized, if_neg h0, hm] at hx
  simp only [Bool.and_eq_true, Bool.or_eq_true, decide_eq_true_iff] at hx
  obtain ⟨⟨⟨⟨-, he⟩, hwr⟩, hl⟩, hh⟩ := hx
  have hp : wp (tryToI64 fuel mode x) _ _ _ wide := tryToI64_spec h0 (by omega) (abs_le.mpr ⟨hl, hh⟩) (by norm_num) hfuel
  have ha (w : ℕ) : |if x.negative then -(w : ℤ) else w| = w := by
    split_ifs <;> simp
  rw [Number.value_eq, ← signed_whole (by positivity), ha]
  generalize hr : tryToI64 fuel mode x wide = r
  simp only [wp, hr] at hp
  obtain f | ⟨err | z, wide'⟩ := r
  · exact hp.elim
  · obtain ⟨rfl, hg⟩ := hp
    have hf : maxRep < ⌊(x.mantissa * 10 ^ x.exponent : ℚ)⌋₊ :=
      le_floor (by exact_mod_cast hg.resolve_left (not_not.mpr hwr))
    have hw : maxRep < whole mode x.negative (x.mantissa * 10 ^ x.exponent) := hf.trans_le (le_add_right _ _)
    exact ⟨wide', by rw [if_neg (not_le.mpr (Int.ofNat_lt.mpr hw))]⟩
  · obtain ⟨-, hs, rfl⟩ := hp
    exact ⟨wide', by rw [if_pos (Int.ofNat_le.mpr hs)]⟩

/-- Minus two and a half goes to the even one of its two neighbours. -/
theorem tryToI64_rounded_tie :
    ∃ wide, tryToI64 32770 .toNearest ⟨true, 2500000000000000000, -18⟩ false = .ok (.ok (-2), wide) := by
  have hv : value ⟨true, 2500000000000000000, -18⟩ = -5 / 2 := by norm_num [value]
  have hf : ⌊(-5 / 2 : ℚ)⌋ = -3 := Int.floor_eq_iff.mpr (by norm_num)
  have hn : roundedInt .toNearest (-5 / 2) = -2 := by norm_num [roundedInt, Int.fract, hf]
  obtain ⟨wide, hr⟩ := tryToI64_rounded (x := ⟨true, 2500000000000000000, -18⟩) (by decide)
    (show isNormalized _ .large330 by decide) .toNearest le_rfl false
  rw [hv, hn] at hr
  exact ⟨wide, hr⟩

/-- An `i64` division. -/
def divI64 {ε : Type} (a b : ℤ) : Calc ε ℤ :=
  if b = 0 then abort (.assertion "attempt to divide by zero") else i64 (a.tdiv b)

end Xrpld.Protocol
