import Xrpld.Protocol.STAmount

/-!
# Products and quotients of amounts

`mul_round`, `mul_round_strict`, `div_round` and `div_round_strict` of `xrpl/protocol/amounts/quality.rs`: the
product or the quotient of two amounts, as an amount of a third asset, rounded in a direction.

## The model

* A mantissa is a `u64`; while it is worked on it is a number, and an operation that leaves its machine
  type is a fault.
* `NumberRoundModeGuard` sets the rounding mode of the thread; here the mode is an argument of what is
  called under the guard.
-/

namespace Xrpld.Protocol

open Number

variable {ε : Type}

/-! ### Machine integers and constants -/

/-- The result of a `u64` operation. -/
def u64 (n : ℕ) : Calc ε ℕ := if n < 2 ^ 64 then pure n else abort .overflow

def tenTo14 : ℕ := 100000000000000

def tenTo17 : ℕ := 100000000000000000

/-- A panic. -/
def panics {α : Type} (msg : String) : Calc ε α := abort (.assertion msg)

/-! ### Mantissas -/

def isNativeOrMptAmount (a : STAmount) : Bool := a.native || a.holdsMptIssue

def isNativeOrMptAsset (asset : Asset) : Bool := asset.native || asset.holdsMptIssue

/-- The mantissa of a whole amount gets a digit. -/
def liftDigit (s : ℕ × ℤ) : Calc ε (ℕ × ℤ) := do
  let value ← u64 (s.1 * 10)
  let offset ← i32 (s.2 - 1)
  return (value, offset)

variable (fuel : ℕ)

/-- The mantissa and the offset of a factor: the mantissa of a whole amount gets sixteen digits. -/
def liftMantissa (a : STAmount) : Calc ε (ℕ × ℤ) :=
  if isNativeOrMptAmount a then
    whileLoop .outOfFuel (fun s : ℕ × ℤ => decide (s.1 < stAmountMinMantissa)) liftDigit fuel (a.value.toNat, a.offset)
  else return (a.value.toNat, a.offset)

/-- `muldiv_round`, and `expect` of what it returns. -/
def muldivRound (msg : String) (multiplier multiplicand divisor rounding : ℕ) : Calc ε ℕ := do
  let product ← u128 (multiplier * multiplicand)
  let sum ← u128 (product + rounding)
  let ret ← divU128 sum divisor
  if ret < 2 ^ 64 then return ret
  else abort (.expect (msg ++ ": \"overflow: ((" ++ toString multiplier ++ " * " ++ toString multiplicand ++ ") + " ++
    toString rounding ++ ") / " ++ toString divisor ++ "\""))

/-- The mantissa of an issued result loses the digits past the sixteenth: the part that `canonicalize_round` and
`canonicalize_round_strict` share. -/
def shortenIssued (s : ℕ × ℤ) : Calc ε (ℕ × ℤ) := do
  if stAmountMaxMantissa < s.1 then
    let (value, offset) ← whileLoop .outOfFuel (fun s : ℕ × ℤ => decide (10 * stAmountMaxMantissa < s.1)) (fun s => do
      let offset ← i32 (s.2 + 1)
      return (s.1 / 10, offset)) fuel s
    let value ← u64 (value + 9)
    let offset ← i32 (offset + 1)
    return (value / 10, offset)
  else return s

/-- The loop of `canonicalize_round` for a whole result: a digit is dropped and counted. -/
def dropCounted (s : (ℕ × ℤ) × ℕ) : Calc ε ((ℕ × ℤ) × ℕ) := do
  let offset ← i32 (s.1.2 + 1)
  return ((s.1.1 / 10, offset), s.2 + 1)

def canonicalizeRound (native : Bool) (s : ℕ × ℤ) (_roundUp : Bool) : Calc ε (ℕ × ℤ) := do
  if native then
    if s.2 < 0 then
      let ((value, offset), loops) ← whileLoop .outOfFuel (fun s : (ℕ × ℤ) × ℕ => decide (s.1.2 < -1)) dropCounted fuel (s, 0)
      let value ← u64 (value + if 2 ≤ loops then 9 else 10)
      let offset ← i32 (offset + 1)
      return (value / 10, offset)
    else return s
  else shortenIssued fuel s

/-- The loop of `canonicalize_round_strict` for a whole result: a digit is dropped, and whether it was a zero is kept. -/
def dropChecked (s : (ℕ × ℤ) × Bool) : Calc ε ((ℕ × ℤ) × Bool) := do
  let offset ← i32 (s.1.2 + 1)
  return ((s.1.1 / 10, offset), s.2 || decide (s.1.1 ≠ s.1.1 / 10 * 10))

def canonicalizeRoundStrict (native : Bool) (s : ℕ × ℤ) (roundUp : Bool) : Calc ε (ℕ × ℤ) := do
  if native then
    if s.2 < 0 then
      let ((value, offset), hadRemainder) ← whileLoop .outOfFuel (fun s : (ℕ × ℤ) × Bool => decide (s.1.2 < -1)) dropChecked
        fuel (s, false)
      let value ← u64 (value + if hadRemainder && roundUp then 10 else 9)
      let offset ← i32 (offset + 1)
      return (value / 10, offset)
    else return s
  else shortenIssued fuel s

/-- The canonicalization is made where the result is rounded away from zero. -/
def canonicalizeIf (c : Bool) (f : ℕ × ℤ → Calc ε (ℕ × ℤ)) (s : ℕ × ℤ) : Calc ε (ℕ × ℤ) := if c then f s else return s

variable (mode : RoundingMode)

/-- The result: the smallest amount, if it is rounded up and would be zero. -/
def makeRounded (asset : Asset) (s : ℕ × ℤ) (resultNegative roundUp : Bool) :
    Calc ε STAmount := do
  let result ← STAmount.newWithAsset fuel mode .generic asset (UInt64.ofNat s.1) s.2 resultNegative
  if roundUp && !resultNegative && decide (result.value = 0) then
    if isNativeOrMptAsset asset then STAmount.newWithAsset fuel mode .generic asset 1 0 false
    else STAmount.newWithAsset fuel mode .generic asset (UInt64.ofNat stAmountMinMantissa) stAmountMinOffset false
  else return result

/-! ### Products -/

def signedNativeValue (a : STAmount) : Calc ε ℤ :=
  if !a.native then panics "amount is not native!" else a.signedValue "native mantissa should fit i64"

def signedMptValue (a : STAmount) : Calc ε ℤ :=
  if !a.holdsMptIssue then panics "amount is not MPT!" else a.signedValue "MPT mantissa should fit i64"

/-- The product of two whole amounts as an amount of the same kind. -/
def wholeProduct (asset : Asset) (msg : String) (maxMin maxHigh : ℤ) (v1 v2 : ℤ) :
    Calc ε STAmount := do
  if maxMin < min v1 v2 then panics msg
  else
    let high ← i64 (max v1 v2 / 2 ^ 32 * min v1 v2)
    if maxHigh < high then panics msg
    else
      let product ← i64 (min v1 v2 * max v1 v2)
      STAmount.newWithAsset fuel mode .generic asset (UInt64.ofNat product.natAbs) 0 (decide (product < 0))

variable (v1 v2 : STAmount)

/-- `mul_round_impl`, of two amounts whose product is not a whole one of the same kind. -/
def mulRoundLifted (asset : Asset) (roundUp : Bool)
    (canonicalizeFn : Bool → ℕ × ℤ → Bool → Calc ε (ℕ × ℤ)) (resultNegative : Bool) : Calc ε STAmount := do
  let s1 ← liftMantissa fuel v1
  let s2 ← liftMantissa fuel v2
  let amount ← muldivRound "mulRound should preserve the reference implementation overflow behavior" s1.1 s2.1 tenTo14
    (if resultNegative != roundUp then tenTo14 - 1 else 0)
  let sum ← i32 (s1.2 + s2.2)
  let offset ← i32 (sum + 14)
  let s ← canonicalizeIf (resultNegative != roundUp) (fun s => canonicalizeFn asset.native s roundUp) (amount, offset)
  makeRounded fuel mode asset s resultNegative roundUp

def mulRoundImpl (asset : Asset) (roundUp : Bool)
    (canonicalizeFn : Bool → ℕ × ℤ → Bool → Calc ε (ℕ × ℤ)) : Calc ε STAmount := do
  if v1.value = 0 ∨ v2.value = 0 then STAmount.newWithAsset fuel mode .generic asset 0 0 false
  else if v1.native ∧ v2.native ∧ asset.native then
    let a ← signedNativeValue v1
    let b ← signedNativeValue v2
    wholeProduct fuel mode asset "Native value overflow" 3000000000 2095475792 a b
  else if v1.holdsMptIssue ∧ v2.holdsMptIssue ∧ asset.holdsMptIssue then
    let a ← signedMptValue v1
    let b ← signedMptValue v2
    wholeProduct fuel mode asset "MPT value overflow" 3037000499 2147483648 a b
  else mulRoundLifted fuel mode v1 v2 asset roundUp canonicalizeFn (v1.isNegative != v2.isNegative)

def mulRound (asset : Asset) (roundUp : Bool) : Calc ε STAmount :=
  mulRoundImpl fuel mode v1 v2 asset roundUp (canonicalizeRound fuel)

def mulRoundStrict (asset : Asset) (roundUp : Bool) : Calc ε STAmount :=
  mulRoundImpl fuel mode v1 v2 asset roundUp (canonicalizeRoundStrict fuel)

/-! ### Quotients -/

variable (num den : STAmount)

/-- `div_round_impl`, of two amounts that are not zero. -/
def divRoundLifted (asset : Asset) (roundUp resultNegative : Bool) : Calc ε STAmount := do
  let numS ← liftMantissa fuel num
  let denS ← liftMantissa fuel den
  let amount ← muldivRound "divRound should preserve the reference implementation overflow behavior" numS.1 tenTo17 denS.1
    (if resultNegative != roundUp then denS.1 - 1 else 0)
  let difference ← i32 (numS.2 - denS.2)
  let offset ← i32 (difference - 17)
  let s ← canonicalizeIf (resultNegative != roundUp) (fun s => canonicalizeRound fuel (isNativeOrMptAsset asset) s roundUp)
    (amount, offset)
  makeRounded fuel (if roundUp ^^ resultNegative then .upward else .downward) asset s resultNegative roundUp

def divRoundImpl (asset : Asset) (roundUp : Bool) : Calc ε STAmount :=
  if den.value = 0 then panics "division by zero"
  else if num.value = 0 then STAmount.newWithAsset fuel mode .generic asset 0 0 false
  else divRoundLifted fuel num den asset roundUp (num.isNegative != den.isNegative)

def divRound (asset : Asset) (roundUp : Bool) : Calc ε STAmount :=
  divRoundImpl fuel mode num den asset roundUp

def divRoundStrict (asset : Asset) (roundUp : Bool) : Calc ε STAmount :=
  divRoundImpl fuel mode num den asset roundUp

end Xrpld.Protocol
