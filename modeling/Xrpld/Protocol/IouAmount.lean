import Xrpld.Basics.Number

/-!
# Issued amounts

`IOUAmount` of `xrpl/protocol/amounts/iou_amount.rs`: a signed mantissa of sixteen digits and a power
of ten. Every amount is made by `from_parts` or `from_number`, which round in the rounding mode of
the thread.

## The model

* The mantissa is an `i64` and the exponent an `i32`; they are integers here, and an operation that
  leaves its machine type fails or is a fault, as in `Basics/Number`.
* `IouRoundGuard` has the fields of `ArithmeticGuard` and the same `push` and `round`.
-/

namespace Xrpld.Protocol

open Number

/-! ### Machine integers -/

section

variable {ε : Type}

/-- The result of a checked `u64` operation. -/
def checkedU64 (err : ε) (n : ℕ) : Calc ε ℕ := if n < 2 ^ 64 then pure n else Prog.fail err

/-- The result of a checked `i64` operation. -/
def checkedI64 (err : ε) (z : ℤ) : Calc ε ℤ := if -2 ^ 63 ≤ z ∧ z < 2 ^ 63 then pure z else Prog.fail err

/-- The result of an `i64` operation. -/
def i64 (z : ℤ) : Calc ε ℤ := if -2 ^ 63 ≤ z ∧ z < 2 ^ 63 then pure z else abort .overflow

end

/-- How an error is printed in the message of a panic: its `Debug`. -/
def debugText : NumberArithmeticError → String
  | .overflow => "Overflow"
  | .divideByZero => "DivideByZero"

/-- `expect`: a failure is a panic. -/
def orPanic {ε α : Type} (msg : String) (p : Work α) : Calc ε α := do
  match ← Prog.attempt p with
  | .ok a => return a
  | .error err => abort (.expect (msg ++ ": " ++ debugText err))

/-! ### Amounts -/

def minIouExponent : ℤ := -96

def maxIouExponent : ℤ := 80

def minIouMantissa : ℕ := 1000000000000000

def maxIouMantissa : ℕ := 9999999999999999

def iouZeroExponent : ℤ := -100

structure IOUAmount where
  mantissa : ℤ
  exponent : ℤ
  deriving DecidableEq

namespace IOUAmount

/-- `new`: zero. -/
def new : IOUAmount := ⟨0, iouZeroExponent⟩

def isZero (a : IOUAmount) : Bool := decide (a.mantissa = 0)

def minPositiveAmount : IOUAmount := ⟨minIouMantissa, minIouExponent⟩

def neg {ε : Type} (a : IOUAmount) : Calc ε IOUAmount :=
  if a.isZero then return a
  else do
    let mantissa ← i64 (-a.mantissa)
    return { a with mantissa }

/-- The number that is meant. -/
def value (a : IOUAmount) : ℚ := a.mantissa * 10 ^ a.exponent

end IOUAmount

/-! ### Rounding into a range -/

abbrev IouRoundGuard := ArithmeticGuard

namespace IouRoundGuard

/-- The end of `bring_into_range`: a number that is too small becomes zero. -/
def zeroIfTooSmall (x : NumberParts) : NumberParts := if x.exponent < minExponent then NumberParts.zero else x

def bringIntoRange (minMantissa : ℕ) (x : NumberParts) : Work NumberParts :=
  if x.mantissa < minMantissa then do
    let mantissa ← u128 (x.mantissa * 10)
    let exponent ← i32 (x.exponent - 1)
    return zeroIfTooSmall { x with mantissa, exponent }
  else return zeroIfTooSmall x

/-- The mantissa is incremented, and shortened if it has become too long. -/
def increment (maxMantissa : ℕ) (x : NumberParts) : Work NumberParts := do
  let mantissa ← checkedU128 .overflow (x.mantissa + 1)
  if maxMantissa < mantissa ∨ maxRep < mantissa then do
    let exponent ← checkedI32 .overflow (x.exponent + 1)
    return { x with mantissa := mantissa / 10, exponent }
  else return { x with mantissa }

/-- The part of `do_round_up` that rounds. -/
def roundMantissa (mode : RoundingMode) (maxMantissa : ℕ) (g : IouRoundGuard) (x : NumberParts) : Work NumberParts :=
  let rounded := g.round mode
  if rounded = 1 ∨ (rounded = 0 ∧ x.mantissa % 2 = 1) then increment maxMantissa x else return x

def doRoundUp (mode : RoundingMode) (minMantissa maxMantissa : ℕ) (g : IouRoundGuard) (x : NumberParts) :
    Work NumberParts := do
  let x ← roundMantissa mode maxMantissa g x
  let x ← bringIntoRange minMantissa x
  if maxExponent < x.exponent then Prog.fail .overflow else return x

end IouRoundGuard

/-- The mantissa gets a digit. -/
def addDigit (x : NumberParts) : Work NumberParts := do
  let mantissa ← checkedU64 .overflow (x.mantissa * 10)
  let exponent ← i32 (x.exponent - 1)
  return { x with mantissa, exponent }

/-- A mantissa that is no `i64` loses a digit. -/
def dropPastRep (s : IouRoundGuard × NumberParts) : Work (IouRoundGuard × NumberParts) :=
  if maxRep < s.2.mantissa then dropDigitBelowMax s else return s

variable (fuel : ℕ)

def normalizePartsToRange (mode : RoundingMode) (x : NumberParts) (minMantissa maxMantissa : ℕ) :
    Work NumberParts := do
  if x.mantissa = 0 then return NumberParts.zero
  else
    let x ← whileLoop .outOfFuel
      (fun x : NumberParts => decide (x.mantissa < minMantissa) && decide (minExponent < x.exponent)) addDigit fuel x
    let (g, x) ← whileLoop .outOfFuel (fun s => decide (maxMantissa < s.2.mantissa)) dropDigitBelowMax fuel
      (({ negative := x.negative } : IouRoundGuard), x)
    if x.exponent < minExponent ∨ x.mantissa < minMantissa then return NumberParts.zero
    else
      let (g, x) ← dropPastRep (g, x)
      let x ← IouRoundGuard.doRoundUp mode minMantissa maxMantissa g x
      if 2 ^ 64 ≤ x.mantissa then Prog.fail .overflow
      else return ⟨x.negative && decide (x.mantissa ≠ 0), x.mantissa, x.exponent⟩

/-- `normalize_runtime_number_to_range`, to the range of the mantissa of an amount. -/
def normalizeRuntimeNumberToRange (mode : RoundingMode) (number : NumberParts) : Work NumberParts :=
  normalizePartsToRange fuel mode number minIouMantissa maxIouMantissa

variable (scale : MantissaScale)

def runtimeNumberFromExternalParts (mode : RoundingMode) (mantissa exponent : ℤ) :
    Work NumberParts :=
  normalizePartsToRange fuel mode
    ⟨decide (mantissa < 0), NumberParts.externalToInternalMantissa (Int64.ofInt mantissa), exponent⟩
    (mantissaRangeMin scale) (mantissaRangeMax scale)

/-- The magnitude gets its sign. -/
def signedMantissa (negative : Bool) (mantissa : ℤ) : Work ℤ :=
  if negative then checkedI64 .overflow (-mantissa) else return mantissa

def signedRuntimeMantissa (number : NumberParts) : Work ℤ := do
  let mantissa ← checkedI64 .overflow number.mantissa
  signedMantissa number.negative mantissa

namespace IOUAmount

def fromNumber (mode : RoundingMode) (number : NumberParts) : Work IOUAmount := do
  let normalized ← normalizeRuntimeNumberToRange fuel mode number
  let mantissa ← signedRuntimeMantissa normalized
  if maxIouExponent < normalized.exponent then Prog.fail .overflow
  else if normalized.exponent < minIouExponent then return new
  else return ⟨mantissa, normalized.exponent⟩

def fromParts (mode : RoundingMode) (mantissa exponent : ℤ) : Work IOUAmount := do
  if mantissa = 0 then return new
  else
    let runtime ← runtimeNumberFromExternalParts fuel scale mode mantissa exponent
    fromNumber fuel mode runtime

end IOUAmount

/-! ### Ratios -/

def pow10U128 : ℕ → Work ℕ
  | 0 => return 1
  | exponent + 1 => do
    let value ← pow10U128 exponent
    checkedU128 .overflow (value * 10)

def log10FloorU128 (fuel value : ℕ) : Work ℤ := do
  if value = 0 then return -1
  else
    let (_, log) ← whileLoop .outOfFuel (fun s : ℕ × ℤ => decide (10 ≤ s.1)) (fun s => do
      let log ← i32 (s.2 + 1)
      return (s.1 / 10, log)) fuel (value, 0)
    return log

def log10CeilU128 (fuel value : ℕ) : Work ℤ := do
  if value = 0 then return 0
  else
    let floor ← log10FloorU128 fuel value
    let power ← orPanic "log10 floor should stay within u128 pow10 range" (pow10U128 floor.toNat)
    if power = value then return floor else i32 (floor + 1)

/-- A quotient while it gets its digits. -/
structure Quotient where
  low : ℕ
  remainder : ℕ
  exponent : ℤ

/-- The operations on which a quotient is computed: the two ratio functions of the source differ in what they check. -/
structure QuotientOps (ε : Type) where
  /-- The logarithm from above. -/
  log10Ceil : ℕ → Calc ε ℤ
  /-- The digits that an `i64` has room for. -/
  room : Calc ε ℤ
  /-- A power of ten. -/
  power : ℕ → Calc ε ℕ
  /-- The result of a `u128` operation. -/
  wide : ℕ → Calc ε ℕ
  /-- The result of an `i32` operation. -/
  exponent : ℤ → Calc ε ℤ

namespace QuotientOps

variable {ε : Type} (ops : QuotientOps ε)

/-- The quotient and the remainder get digits. -/
def addDigits (roomToGrow : ℤ) (q : Quotient) : Calc ε Quotient := do
  if 0 < roomToGrow then
    let scale ← ops.power roomToGrow.toNat
    let exponent ← ops.exponent (q.exponent - roomToGrow)
    let low ← ops.wide (q.low * scale)
    let remainder ← ops.wide (q.remainder * scale)
    return { low, remainder, exponent }
  else return q

/-- The part of a ratio function in which the quotient gets digits, as many as an `i64` has room for. -/
def grow (denominator : ℕ) (q : Quotient) : Calc ε Quotient := do
  if q.remainder = 0 then return q
  else
    let room ← ops.room
    let ceil ← ops.log10Ceil q.low
    let roomToGrow ← i32 (room - ceil)
    let q ← ops.addDigits roomToGrow q
    let addRemainder ← divU128 q.remainder denominator
    let low ← ops.wide (q.low + addRemainder)
    let remainder ← subU128 q.remainder (addRemainder * denominator)
    return { q with low, remainder }

/-- The part of a ratio function in which a quotient that is too long loses digits; also whether anything is left over. -/
def shrink (q : Quotient) : Calc ε (ℕ × Bool × ℤ) := do
  let ceil ← ops.log10Ceil q.low
  let room ← ops.room
  let mustShrink ← i32 (ceil - room)
  if 0 < mustShrink then do
    let scale ← ops.power mustShrink.toNat
    let exponent ← ops.exponent (q.exponent + mustShrink)
    let low ← divU128 q.low scale
    let rest ← subU128 q.low (low * scale)
    return (low, decide (q.remainder ≠ 0) || decide (rest ≠ 0), exponent)
  else return (q.low, decide (q.remainder ≠ 0), q.exponent)

end QuotientOps

/-- The operations of `mul_ratio`: they are checked. -/
def checkedOps : QuotientOps NumberArithmeticError where
  log10Ceil := log10CeilU128 fuel
  room := log10FloorU128 fuel maxRep
  power := pow10U128
  wide := checkedU128 .overflow
  exponent := checkedI32 .overflow

/-- The end of `mul_ratio`: a unit is added where the direction asks for it. -/
def adjust (mode : RoundingMode) (roundUp negative : Bool) (result : IOUAmount) :
    Work IOUAmount := do
  if roundUp && !negative then
    if result.isZero then return IOUAmount.minPositiveAmount
    else do
      let mantissa ← checkedI64 .overflow (result.mantissa + 1)
      IOUAmount.fromParts fuel scale mode mantissa result.exponent
  else if !roundUp && negative then
    if result.isZero then IOUAmount.fromParts fuel scale mode (-minIouMantissa) minIouExponent
    else do
      let mantissa ← checkedI64 .overflow (result.mantissa - 1)
      IOUAmount.fromParts fuel scale mode mantissa result.exponent
  else return result

/-- `mul_ratio`, once the denominator is known not to be zero. -/
def mulRatioOf (mode : RoundingMode) (amount : IOUAmount) (num denominator : ℕ)
    (roundUp negative : Bool) : Work IOUAmount := do
  let multiplied ← checkedU128 .overflow (amount.mantissa.natAbs * num)
  let low ← divU128 multiplied denominator
  let remainder ← subU128 multiplied (low * denominator)
  let q ← (checkedOps fuel).grow denominator { low, remainder, exponent := amount.exponent }
  let (low, hasRemainder, exponent) ← (checkedOps fuel).shrink q
  let mantissa ← checkedI64 .overflow low
  let mantissa ← signedMantissa negative mantissa
  let result ← IOUAmount.fromParts fuel scale mode mantissa exponent
  if !hasRemainder then return result else adjust fuel scale mode roundUp negative result

def mulRatio (mode : RoundingMode) (amount : IOUAmount) (num den : UInt32)
    (roundUp : Bool) : Work IOUAmount :=
  if den = 0 then Prog.fail .divideByZero
  else mulRatioOf fuel scale mode amount num.toNat den.toNat roundUp (decide (amount.mantissa < 0))

namespace IOUAmount

/-- The sign of the factor is put on the result. -/
def withSignOf {ε : Type} (rhs : ℤ) (result : IOUAmount) : Calc ε IOUAmount := if rhs < 0 then result.neg else return result

/-- `mul`, by an `i64`. -/
def mul {ε : Type} (mode : RoundingMode) (a : IOUAmount) (rhs : Int64) :
    Calc ε IOUAmount := do
  let result ← orPanic "IOUAmount multiplication overflow"
    (mulRatio fuel scale mode a (UInt32.ofNat rhs.toInt.natAbs) 1 (decide (mode = .upward)))
  withSignOf rhs.toInt result

/-- `div`, by an `i64`. -/
def div {ε : Type} (mode : RoundingMode) (a : IOUAmount) (rhs : Int64) :
    Calc ε IOUAmount := do
  let result ← orPanic "IOUAmount division overflow"
    (mulRatio fuel scale mode a 1 (UInt32.ofNat rhs.toInt.natAbs) (decide (mode = .upward)))
  withSignOf rhs.toInt result

end IOUAmount

end Xrpld.Protocol
