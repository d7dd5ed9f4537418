import Xrpld.Basics.Uint256
import Xrpld.Lib.Prog

/-!
# Decimal floating point numbers

`NumberParts` of `xrpl/basics/math/number.rs`: a sign, a mantissa and a power of ten. The mantissa
of a normalized number has a fixed number of digits, which depends on the scale in use, and a
mantissa beyond `i64::MAX` is a multiple of ten.

## The model

* The scale and the rounding mode are settings of the thread; here they are arguments.
* The mantissa is a `u64`, or a `u128` while it is worked on, and the exponent an `i32`; they are
  numbers here, and each operation says what happens when its result does not fit. A `checked_`
  operation gives the error that the code returns; any other one is a fault.
* A loop has fuel.
-/

variable (scale : MantissaScale) (fuel : ℕ) (s : ArithmeticGuard × NumberParts)

namespace Xrpld.Number

/-! ### Scales and modes -/

/-- `NUMBER_MIN_EXPONENT`. -/
def minExponent : ℤ := -32768

/-- `NUMBER_MAX_EXPONENT`. -/
def maxExponent : ℤ := 32768

/-- `NUMBER_MAX_REP`. -/
def maxRep : ℕ := 9223372036854775807

/-- `NUMBER_MAX_REP_UP`. -/
def maxRepUp : ℕ := maxRep + 3

/-- `NUMBER_ZERO_EXPONENT`. -/
def zeroExponent : ℤ := -2147483648

inductive MantissaScale where
  | small | largeLegacy | large320 | large330
  deriving DecidableEq

inductive RoundingMode where
  | toNearest | towardsZero | downward | upward
  deriving DecidableEq

def mantissaRangeMin : MantissaScale → ℕ
  | .small => 1000000000000000
  | .largeLegacy | .large320 | .large330 => 1000000000000000000

def mantissaRangeMax : MantissaScale → ℕ
  | .small => 9999999999999999
  | .largeLegacy | .large320 | .large330 => 9999999999999999999

def cuspRounding320Enabled : MantissaScale → Bool
  | .large320 | .large330 => true
  | _ => false

def cuspRounding330Enabled : MantissaScale → Bool
  | .large330 => true
  | _ => false

/-- `rep_limit`: the largest mantissa that is not shortened. -/
def repLimit : ℕ := if cuspRounding330Enabled scale then maxRepUp else maxRep

/-! ### Numbers -/

/-- `NumberParts`, also while its mantissa is still a `u128`. -/
structure NumberParts where
  negative : Bool
  mantissa : ℕ
  exponent : ℤ
  deriving DecidableEq

inductive NumberNormalizeError where
  | exponentOverflow | requiresRounding
  deriving DecidableEq

inductive NumberArithmeticError where
  | overflow | divideByZero
  deriving DecidableEq

variable (x : NumberParts)

namespace NumberParts

def zero : NumberParts := ⟨false, 0, zeroExponent⟩

def neg : NumberParts := if x.mantissa = 0 then zero else { x with negative := !x.negative }

def isNormalized (scale : MantissaScale) : Bool :=
  if x.mantissa = 0 then !x.negative && decide (x.exponent = zeroExponent)
  else decide (mantissaRangeMin scale ≤ x.mantissa) && decide (x.mantissa ≤ mantissaRangeMax scale) &&
    (decide (x.mantissa ≤ maxRep) || decide (x.mantissa % 10 = 0)) &&
    decide (minExponent ≤ x.exponent) && decide (x.exponent ≤ maxExponent)

/-- The number that is meant. -/
def value : ℚ := (if x.negative then -1 else 1) * x.mantissa * 10 ^ x.exponent

end NumberParts

/-! ### Machine integers -/

section

variable {ε : Type}

/-- Work on a number: it may fail as the code does, and an operation that is not checked must not leave its
machine type. The state tells whether a checked or a saturating `u128` operation has left its type. -/
abbrev Calc (ε α : Type) := Prog Fault Bool ε α

/-- The result of a checked `u128` operation. -/
def checkedU128 (err : ε) (n : ℕ) : Calc ε ℕ :=
  if n < 2 ^ 128 then pure n else Prog.update (fun _ => true) >>= fun _ => Prog.fail err

/-- A saturating `u128` subtraction. -/
def saturatingSub (a b : ℕ) : Calc ε ℕ :=
  if b ≤ a then pure (a - b) else Prog.update (fun _ => true) >>= fun _ => pure 0

/-- The result of a `u128` operation. -/
def u128 (n : ℕ) : Calc ε ℕ := if n < 2 ^ 128 then pure n else abort .overflow

/-- A `u128` subtraction. -/
def subU128 (a b : ℕ) : Calc ε ℕ := if b ≤ a then pure (a - b) else abort .overflow

/-- A `u128` division. -/
def divU128 (a b : ℕ) : Calc ε ℕ :=
  if b = 0 then abort (.assertion "attempt to divide by zero") else pure (a / b)

/-- The result of a checked `i32` operation. -/
def checkedI32 (err : ε) (e : ℤ) : Calc ε ℤ := if -2 ^ 31 ≤ e ∧ e < 2 ^ 31 then pure e else Prog.fail err

/-- The result of an `i32` operation. -/
def i32 (e : ℤ) : Calc ε ℤ := if -2 ^ 31 ≤ e ∧ e < 2 ^ 31 then pure e else abort .overflow

end

/-! ### Exact normalization -/

namespace NumberParts

/-- The first loop of `normalize_to_range`: the mantissa gets a digit. -/
def addDigit (s : ℕ × ℤ) : Calc NumberNormalizeError (ℕ × ℤ) := do
  let mantissa ← checkedU128 .requiresRounding (s.1 * 10)
  let exponent ← i32 (s.2 - 1)
  return (mantissa, exponent)

/-- The second loop of `normalize_to_range`: the mantissa loses a zero. -/
def dropZero (s : ℕ × ℤ) : Calc NumberNormalizeError (ℕ × ℤ) :=
  if maxExponent ≤ s.2 then Prog.fail .exponentOverflow
  else if s.1 % 10 ≠ 0 then Prog.fail .requiresRounding
  else do
    let exponent ← i32 (s.2 + 1)
    return (s.1 / 10, exponent)

def normalizeToRange (minMantissa maxMantissa : ℕ) :
    Calc NumberNormalizeError NumberParts := do
  if x.mantissa = 0 then return zero
  else
    let s ← whileLoop .outOfFuel (fun s : ℕ × ℤ => decide (s.1 < minMantissa) && decide (minExponent < s.2)) addDigit
      fuel (x.mantissa, x.exponent)
    let (mantissa, exponent) ← whileLoop .outOfFuel (fun s : ℕ × ℤ => decide (maxMantissa < s.1)) dropZero fuel s
    if exponent < minExponent ∨ mantissa < minMantissa then return zero
    else if 2 ^ 64 ≤ mantissa then Prog.fail .requiresRounding
    else return ⟨x.negative && decide (mantissa ≠ 0), mantissa, exponent⟩

def tryNormalizeExact (scale : MantissaScale) : Calc NumberNormalizeError NumberParts :=
  x.normalizeToRange fuel (mantissaRangeMin scale) (mantissaRangeMax scale)

def externalToInternalMantissa (mantissa : Int64) : ℕ :=
  if 0 ≤ mantissa.toInt then mantissa.toInt.toNat
  else if -maxRep ≤ mantissa.toInt then (-mantissa.toInt).toNat
  else (-mantissa.toInt).toNat % 2 ^ 64

def tryFromExternalParts (mantissa : Int64) (exponent : ℤ) (scale : MantissaScale) :
    Calc NumberNormalizeError NumberParts :=
  tryNormalizeExact fuel ⟨decide (mantissa.toInt < 0), externalToInternalMantissa mantissa, exponent⟩ scale

def fromI64 (scale : MantissaScale) (mantissa : Int64) : Run NumberParts :=
  match tryFromExternalParts fuel mantissa 0 scale false with
  | .error f => .error f
  | .ok (.ok x, _) => .ok x
  | .ok (.error _, _) => .error (.expect "NumberParts from_i64 should not overflow")

end NumberParts

/-! ### The guard -/

/-- `ArithmeticGuard`: the digits that were dropped, the last one first, and whether more were dropped. -/
structure ArithmeticGuard where
  digits : UInt64 := 0
  hasExtra : Bool := false
  negative : Bool := false
  deriving DecidableEq

namespace ArithmeticGuard

variable (g : ArithmeticGuard)

def push (digit : UInt8) : ArithmeticGuard where
  digits := (g.digits >>> 4) ||| ((digit &&& 0x0F).toUInt64 <<< 60)
  hasExtra := g.hasExtra || decide (g.digits &&& 0xF ≠ 0)
  negative := g.negative

def pop : UInt8 × ArithmeticGuard :=
  (((g.digits &&& 0xF000000000000000) >>> 60).toUInt8, { g with digits := g.digits <<< 4 })

def empty : Bool := decide (g.digits = 0) && !g.hasExtra

/-- `round`: up, down, or neither. -/
def round : RoundingMode → ℤ
  | .towardsZero => -1
  | .downward => if g.negative && (decide (0 < g.digits) || g.hasExtra) then 1 else -1
  | .upward => if g.negative then -1 else if decide (0 < g.digits) || g.hasExtra then 1 else -1
  | .toNearest =>
    if 0x5000000000000000 < g.digits then 1
    else if g.digits < 0x5000000000000000 then -1
    else if g.hasExtra then 1
    else 0

end ArithmeticGuard

/-- `(mantissa % 10) as u8`. -/
def lastDigit (mantissa : ℕ) : UInt8 := UInt8.ofNat (mantissa % 10)

abbrev Work := Calc NumberArithmeticError

/-- The end of `bring_into_range`: a number that is too small becomes zero. -/
def zeroIfTooSmall : NumberParts :=
  if x.exponent < minExponent ∨ (cuspRounding330Enabled scale ∧ x.mantissa = 0) then .zero else x

def bringIntoRange : Work NumberParts :=
  if x.mantissa < mantissaRangeMin scale ∧ (!cuspRounding330Enabled scale ∨ x.mantissa ≠ 0) then do
    let mantissa ← u128 (x.mantissa * 10)
    let exponent ← i32 (x.exponent - 1)
    return zeroIfTooSmall scale { x with mantissa, exponent }
  else return zeroIfTooSmall scale x

/-- The part of `do_round_up` for a mantissa between the last small one and the first multiple of ten. -/
def cuspPush (mode : RoundingMode) (g : ArithmeticGuard) (mantissa : ℕ) : ArithmeticGuard × ℕ :=
  let rounded := g.round mode
  let mantissa :=
    if mantissa % 10 < 9 ∧ (rounded = 1 ∨ (rounded = 0 ∧ mantissa = maxRep + 1)) then mantissa + 1 else mantissa
  (g.push (UInt8.ofNat ((mantissa - maxRep) * 10 / (maxRepUp - maxRep))), mantissa)

/-- Whether a mantissa may be incremented. -/
def safeToIncrement (mantissa : ℕ) : Bool :=
  decide (mantissa < mantissaRangeMax scale) && decide (mantissa < maxRep)

/-- Whether a mantissa is between the last small one and the first multiple of ten. -/
def pastRep (mantissa : ℕ) : Bool :=
  cuspRounding330Enabled scale && decide (maxRep < mantissa) && decide (mantissa < maxRepUp)

/-- The end of `do_round_up`. -/
def closeRound : Work NumberParts := do
  let x ← bringIntoRange scale x
  if maxExponent < x.exponent then Prog.fail .overflow else return x

def doRoundUp (mode : RoundingMode) (scale : MantissaScale) : ℕ → ArithmeticGuard → NumberParts → Work NumberParts
  | 0, _, _ => abort .outOfFuel
  | fuel + 1, g, x =>
    let (g, m) := if cuspRounding330Enabled scale ∧ maxRep ≤ x.mantissa ∧ x.mantissa < maxRepUp
      then cuspPush mode g x.mantissa else (g, x.mantissa)
    let rounded := g.round mode
    if rounded = 1 ∨ (rounded = 0 ∧ m % 2 = 1) then
      if cuspRounding320Enabled scale then
        if safeToIncrement scale m then closeRound scale { x with mantissa := m + 1 }
        else if pastRep scale m then closeRound scale { x with mantissa := maxRepUp }
        else do
          let exponent ← checkedI32 .overflow (x.exponent + 1)
          if !safeToIncrement scale (m / 10) then Prog.fail .overflow
          else doRoundUp mode scale fuel (g.push (lastDigit m)) { x with mantissa := m / 10, exponent }
      else do
        let m ← checkedU128 .overflow (m + 1)
        if mantissaRangeMax scale < m ∨ maxRep < m then do
          let exponent ← checkedI32 .overflow (x.exponent + 1)
          closeRound scale { x with mantissa := m / 10, exponent }
        else closeRound scale { x with mantissa := m }
    else if pastRep scale m then closeRound scale { x with mantissa := maxRep }
    else closeRound scale { x with mantissa := m }

def doRoundDown (mode : RoundingMode) (scale : MantissaScale) (g : ArithmeticGuard) (x : NumberParts) :
    Work NumberParts := do
  let rounded := g.round mode
  if cuspRounding330Enabled scale then
    if !g.empty then do
      let mantissa ← subU128 x.mantissa 1
      bringIntoRange scale { x with mantissa }
    else bringIntoRange scale x
  else if rounded = 1 ∨ (rounded = 0 ∧ x.mantissa % 2 = 1) then do
    let mantissa ← subU128 x.mantissa 1
    if mantissa < mantissaRangeMin scale then do
      let mantissa ← u128 (mantissa * 10)
      let exponent ← i32 (x.exponent - 1)
      bringIntoRange scale { x with mantissa, exponent }
    else bringIntoRange scale { x with mantissa }
  else bringIntoRange scale x

/-! ### Normalization -/

/-- The last digit of the mantissa goes to the guard. -/
def dropDigit : Work (ArithmeticGuard × NumberParts) := do
  let exponent ← checkedI32 .overflow (s.2.exponent + 1)
  return (s.1.push (lastDigit s.2.mantissa), { s.2 with mantissa := s.2.mantissa / 10, exponent })

/-- The last digit of the mantissa goes to the guard, in `normalize_arithmetic_parts_with_dropped`. -/
def dropDigitBelowMax : Work (ArithmeticGuard × NumberParts) :=
  if maxExponent ≤ s.2.exponent then Prog.fail .overflow
  else do
    let exponent ← i32 (s.2.exponent + 1)
    return (s.1.push (lastDigit s.2.mantissa), { s.2 with mantissa := s.2.mantissa / 10, exponent })

/-- A mantissa past the limit of the scale loses a digit. -/
def dropPastLimit : Work (ArithmeticGuard × NumberParts) :=
  if repLimit scale < s.2.mantissa then dropDigitBelowMax s else pure s

/-- The mantissa gets its digits. -/
def growMantissa (scale : MantissaScale) : NumberParts → Work NumberParts :=
  whileLoop .outOfFuel (fun x => decide (x.mantissa < mantissaRangeMin scale) && decide (minExponent < x.exponent))
    (fun x => do
      let mantissa ← checkedU128 .overflow (x.mantissa * 10)
      let exponent ← i32 (x.exponent - 1)
      return { x with mantissa, exponent }) fuel

mutual

def normalizeArithmeticPartsWithDropped (mode : RoundingMode) (scale : MantissaScale) (dropped : Bool) :
    ℕ → NumberParts → Work NumberParts
  | 0, _ => abort .outOfFuel
  | fuel + 1, x =>
    if x.mantissa = 0 then return NumberParts.zero
    else do
      let x ← growMantissa fuel scale x
      let (g, x) ← whileLoop .outOfFuel (fun s => decide (mantissaRangeMax scale < s.2.mantissa)) dropDigitBelowMax
        fuel (({ hasExtra := dropped, negative := x.negative } : ArithmeticGuard), x)
      if x.exponent < minExponent ∨ x.mantissa < mantissaRangeMin scale then return NumberParts.zero
      else do
        let (g, x) ← dropPastLimit scale (g, x)
        let x ← doRoundUp mode scale fuel g x
        finishArithmeticResult mode scale fuel x

def finishArithmeticResult (mode : RoundingMode) (scale : MantissaScale) : ℕ → NumberParts → Work NumberParts
  | 0, _ => abort .outOfFuel
  | fuel + 1, x =>
    if x.mantissa = 0 ∨ x.exponent < minExponent then return NumberParts.zero
    else if maxExponent < x.exponent then Prog.fail .overflow
    else if 2 ^ 64 ≤ x.mantissa then Prog.fail .overflow
    else
      let result : NumberParts := { x with negative := x.negative && decide (x.mantissa ≠ 0) }
      if result.isNormalized scale then return result
      else normalizeArithmeticPartsWithDropped mode scale false fuel result

end

def normalizeArithmeticParts (mode : RoundingMode) (scale : MantissaScale) : ℕ → NumberParts → Work NumberParts :=
  normalizeArithmeticPartsWithDropped mode scale false

/-! ### Addition -/

/-- Two numbers on their way to one exponent: one may get more digits, the other may lose some. -/
structure Alignment where
  guard : ArithmeticGuard
  expandM : ℕ
  expandE : ℤ
  shrinkM : ℕ
  shrinkE : ℤ

/-- The number that may lose digits loses one. -/
def Alignment.shrink (a : Alignment) : Work Alignment := do
  let shrinkE ← checkedI32 .overflow (a.shrinkE + 1)
  return { a with guard := a.guard.push (lastDigit a.shrinkM), shrinkM := a.shrinkM / 10, shrinkE }

/-- The number that may get digits gets one. -/
def Alignment.expand (a : Alignment) : Work Alignment := do
  let expandM ← checkedU128 .overflow (a.expandM * 10)
  let expandE ← checkedI32 .overflow (a.expandE - 1)
  return { a with expandM, expandE }

/-- `upper_limit` of `try_add_assign`. -/
def upperLimit : ℕ := mantissaRangeMin scale * 1000

/-- The part of `adjust` that drops no digit but zeros, for the scale that has it. -/
def Alignment.adjustExact (scale : MantissaScale) (a : Alignment) : Work Alignment :=
  if cuspRounding330Enabled scale then do
    let a ← whileLoop .outOfFuel
      (fun a : Alignment => decide (a.shrinkE < a.expandE) && decide (a.shrinkM % 10 = 0)) Alignment.shrink fuel a
    whileLoop .outOfFuel
      (fun a : Alignment => decide (a.shrinkE < a.expandE) && decide (minExponent < a.expandE) &&
        decide (a.expandM < upperLimit scale)) Alignment.expand fuel a
  else pure a

/-- `adjust` of `try_add_assign`. -/
def Alignment.adjust (scale : MantissaScale) (a : Alignment) : Work Alignment := do
  let a ← a.adjustExact fuel scale
  whileLoop .outOfFuel (fun a : Alignment => decide (a.shrinkE < a.expandE)) Alignment.shrink fuel a

/-- The two operands of `try_add_assign` with one exponent, and what was dropped. -/
def align (scale : MantissaScale) (x y : NumberParts) : Work (ArithmeticGuard × NumberParts × NumberParts) := do
  if x.exponent < y.exponent then
    let a ← Alignment.adjust fuel scale ⟨{ negative := x.negative }, y.mantissa, y.exponent, x.mantissa, x.exponent⟩
    return (a.guard, { x with mantissa := a.shrinkM, exponent := a.shrinkE },
      { y with mantissa := a.expandM, exponent := a.expandE })
  else if y.exponent < x.exponent then
    let a ← Alignment.adjust fuel scale ⟨{ negative := y.negative }, x.mantissa, x.exponent, y.mantissa, y.exponent⟩
    return (a.guard, { x with mantissa := a.expandM, exponent := a.expandE },
      { y with mantissa := a.shrinkM, exponent := a.shrinkE })
  else
    return ({ negative := cuspRounding330Enabled scale && ((decide (x.mantissa < y.mantissa) && x.negative) ||
      (decide (y.mantissa < x.mantissa) && y.negative)) }, x, y)

/-- The difference of the mantissas gets a digit of the guard back. -/
def takeDigit (u128 : ℕ → Work ℕ) (s : ArithmeticGuard × NumberParts) : Work (ArithmeticGuard × NumberParts) := do
  let mantissa ← u128 (s.2.mantissa * 10)
  let (digit, g) := s.1.pop
  let mantissa ← saturatingSub mantissa digit.toNat
  let exponent ← checkedI32 .overflow (s.2.exponent - 1)
  return (g, { s.2 with mantissa, exponent })

/-- A sum that is too wide loses a digit. -/
def dropIfWide : Work (ArithmeticGuard × NumberParts) :=
  if mantissaRangeMax scale < s.2.mantissa ∨ repLimit scale < s.2.mantissa then dropDigit s else pure s

/-- The same sign: the mantissas are added. -/
def addMantissas (mode : RoundingMode) (fuel : ℕ) (scale : MantissaScale) (g : ArithmeticGuard) (x y : NumberParts) :
    Work (ArithmeticGuard × NumberParts) := do
  let mantissa ← checkedU128 .overflow (x.mantissa + y.mantissa)
  if cuspRounding330Enabled scale then return (g, { x with mantissa })
  else do
    let (g, x) ← dropIfWide scale (g, { x with mantissa })
    let x ← doRoundUp mode scale fuel g x
    return (g, x)

/-- The difference of two mantissas, with the sign of the larger one. -/
def difference (x y : NumberParts) : NumberParts :=
  if y.mantissa < x.mantissa then { x with mantissa := x.mantissa - y.mantissa }
  else ⟨y.negative, y.mantissa - x.mantissa, y.exponent⟩

/-- The difference gets digits of the guard back as long as it has room for them. -/
def takeDigits (scale : MantissaScale) : ArithmeticGuard × NumberParts → Work (ArithmeticGuard × NumberParts) :=
  if cuspRounding330Enabled scale then
    whileLoop .outOfFuel (fun s : ArithmeticGuard × NumberParts =>
      decide (s.2.mantissa < upperLimit scale) && !s.1.empty) (takeDigit (checkedU128 .overflow)) fuel
  else
    whileLoop .outOfFuel (fun s : ArithmeticGuard × NumberParts =>
      decide (s.2.mantissa < mantissaRangeMin scale) && decide (s.2.mantissa * 10 ≤ repLimit scale))
      (takeDigit u128) fuel

/-- Different signs: the smaller mantissa is taken from the larger one. -/
def subMantissas (mode : RoundingMode) (fuel : ℕ) (scale : MantissaScale) (g : ArithmeticGuard) (x y : NumberParts) :
    Work (ArithmeticGuard × NumberParts) := do
  let (g, x) ← takeDigits fuel scale (g, difference x y)
  let x ← doRoundDown mode scale g x
  return (g, x)

/-- The mantissas of `try_add_assign` are added or subtracted. -/
def combineMantissas (mode : RoundingMode) (fuel : ℕ) (scale : MantissaScale) (g : ArithmeticGuard) (x y : NumberParts) :
    Work (ArithmeticGuard × NumberParts) :=
  if x.negative = y.negative then addMantissas mode fuel scale g x y else subMantissas mode fuel scale g x y

def tryAdd (scale : MantissaScale) (mode : RoundingMode) (x y : NumberParts) : Work NumberParts :=
  if y = NumberParts.zero then return x
  else if x = NumberParts.zero then return y
  else if x = y.neg then return NumberParts.zero
  else do
    let (g, x, y) ← align fuel scale x y
    let (g, x) ← combineMantissas mode fuel scale g x y
    normalizeArithmeticPartsWithDropped mode scale (cuspRounding330Enabled scale && !g.empty) fuel x

def trySub (scale : MantissaScale) (mode : RoundingMode) (x y : NumberParts) : Work NumberParts :=
  tryAdd fuel scale mode x y.neg

/-! ### Multiplication and division -/

def tryMul (scale : MantissaScale) (mode : RoundingMode) (x y : NumberParts) : Work NumberParts :=
  if x = NumberParts.zero then return x
  else if y = NumberParts.zero then return NumberParts.zero
  else do
    let mantissa ← checkedU128 .overflow (x.mantissa * y.mantissa)
    let exponent ← checkedI32 .overflow (x.exponent + y.exponent)
    let negative := x.negative ^^ y.negative
    let (g, z) ← whileLoop .outOfFuel (fun s : ArithmeticGuard × NumberParts =>
      decide (mantissaRangeMax scale < s.2.mantissa) || decide (repLimit scale < s.2.mantissa)) dropDigit fuel
      ({ negative }, ⟨negative, mantissa, exponent⟩)
    let z ← doRoundUp mode scale fuel g z
    finishArithmeticResult mode scale fuel z

/-- The quotient of the mantissas of `try_div_assign`, its exponent, and whether something was dropped. -/
def quotient (x y : NumberParts) : Work (ℕ × ℤ × Bool) := do
  let numerator ← checkedU128 .overflow (x.mantissa * 100000000000000000)
  let zm ← divU128 numerator y.mantissa
  let ze ← checkedI32 .overflow (x.exponent - y.exponent)
  let ze ← checkedI32 .overflow (ze - 17)
  let remainder := numerator % y.mantissa
  if scale = .small ∨ remainder = 0 then return (zm, ze, false)
  else do
    let partialNumerator ← u128 (remainder * 100000)
    let correction := partialNumerator / y.mantissa
    let dropped := cuspRounding320Enabled scale && decide (partialNumerator % y.mantissa ≠ 0)
    if correction = 0 then return (zm, ze, dropped)
    else do
      let zm ← checkedU128 .overflow (zm * 100000)
      let ze ← checkedI32 .overflow (ze - 5)
      let zm ← checkedU128 .overflow (zm + correction)
      return (zm, ze, dropped)

def tryDiv (scale : MantissaScale) (mode : RoundingMode) (x y : NumberParts) : Work NumberParts :=
  if y = NumberParts.zero then Prog.fail .divideByZero
  else if x = NumberParts.zero then return x
  else do
    let (mantissa, exponent, dropped) ← quotient scale x y
    normalizeArithmeticPartsWithDropped mode scale dropped fuel ⟨x.negative ^^ y.negative, mantissa, exponent⟩

end Xrpld.Number
