import Xrpld.Protocol.Asset
import Xrpld.Protocol.IntegralAmount
import Xrpld.Protocol.SField

/-!
# Amounts

`STAmount` of `xrpl/protocol/amounts/st_amount.rs`: an amount of the native currency, of an issued currency
or of a multi-purpose token. The first and the last one are whole numbers; an issued amount is an
`IOUAmount`.

## The model

The value is a `u64` and the offset an `i32`, which is an integer here. `canonicalize` panics where
`try_canonicalize` fails; the message is the one of the error.
-/

namespace Xrpld.Protocol

open Number

/-! ### Errors and limits -/

inductive AmountError where
  | nativeOutOfRange | mptOutOfRange | issuedOutOfRange | divisionByZero | arithmeticOverflow
  deriving DecidableEq

/-- The text of an error. -/
def AmountError.text : AmountError → String
  | .nativeOutOfRange => "Native currency amount out of range"
  | .mptOutOfRange => "MPT amount out of range"
  | .issuedOutOfRange => "Issued currency amount out of range"
  | .divisionByZero => "division by zero"
  | .arithmeticOverflow => "amount arithmetic overflow"

def stAmountMinMantissa : ℕ := 1000000000000000

def stAmountMaxMantissa : ℕ := stAmountMinMantissa * 10 - 1

def stAmountMinOffset : ℤ := -96

def stAmountMaxOffset : ℤ := 80

def stAmountMaxNativeNetwork : ℕ := 100000000000000000

def maxMpTokenAmount : ℕ := 0x7FFFFFFFFFFFFFFF

/-- A panic with the text of an error: `unwrap_or_else(|error| panic!("\x7berror\x7d"))`. -/
def orPanicText {ε α : Type} (p : Calc AmountError α) : Calc ε α := do
  match ← Prog.attempt p with
  | .ok a => return a
  | .error err => abort (.assertion err.text)

/-- `i64::try_from(value).expect(msg)`. -/
def fitI64 {ε : Type} (msg : String) (value : UInt64) : Calc ε ℤ :=
  if value.toNat < 2 ^ 63 then return value.toNat else abort (.expect (msg ++ ": TryFromIntError(())"))

/-! ### The code -/

structure STAmount where
  /-- `fname()`. -/
  field : SField
  asset : Asset
  value : UInt64
  offset : ℤ
  isNegative : Bool
  deriving DecidableEq

namespace STAmount

variable {ε : Type}

def withField (field : SField) : STAmount := ⟨field, .issue .xrp, 0, 0, false⟩

def integral (a : STAmount) : Bool := a.asset.integral

def native (a : STAmount) : Bool := a.asset.native

def holdsMptIssue (a : STAmount) : Bool := a.asset.holdsMptIssue

variable (fuel : ℕ) (mode : RoundingMode)

/-- The part of `try_canonicalize` for a whole amount that is not zero. -/
def makeWhole (err : AmountError) (max : ℕ) (a : STAmount) : Calc AmountError STAmount := do
  let amount ← Prog.mapErr (fun _ => err) (tryToI64 fuel mode ⟨a.isNegative, a.value.toNat, a.offset⟩)
  if max < amount.natAbs then Prog.fail err
  else return { a with isNegative := decide (amount < 0), value := UInt64.ofNat amount.natAbs, offset := 0 }

/-- The parts of an issued amount are put into it. -/
def withIou (a : STAmount) (iou : IOUAmount) : STAmount :=
  { a with isNegative := decide (iou.mantissa < 0), value := UInt64.ofNat iou.mantissa.natAbs, offset := iou.exponent }

def tryCanonicalize (a : STAmount) : Calc AmountError STAmount :=
  if a.integral then
    if a.value = 0 ∨ a.offset ≤ -20 then return { a with value := 0, offset := 0, isNegative := false }
    else if a.native ∧ 17 < a.offset then Prog.fail .nativeOutOfRange
    else if a.holdsMptIssue ∧ 18 < a.offset then Prog.fail .mptOutOfRange
    else if a.native then makeWhole fuel mode .nativeOutOfRange stAmountMaxNativeNetwork a
    else makeWhole fuel mode .mptOutOfRange maxMpTokenAmount a
  else do
    let iou ← Prog.mapErr (fun _ => AmountError.issuedOutOfRange)
      (IOUAmount.fromNumber fuel mode ⟨a.isNegative, a.value.toNat, a.offset⟩)
    return a.withIou iou

def canonicalize (a : STAmount) : Calc ε STAmount := orPanicText (tryCanonicalize fuel mode a)

def tryNewWithAsset (field : SField) (asset : Asset) (mantissa : UInt64) (exponent : ℤ)
    (negative : Bool) : Calc AmountError STAmount := tryCanonicalize fuel mode ⟨field, asset, mantissa, exponent, negative⟩

def newWithAsset (field : SField) (asset : Asset) (mantissa : UInt64) (exponent : ℤ)
    (negative : Bool) : Calc ε STAmount := orPanicText (tryNewWithAsset fuel mode field asset mantissa exponent negative)

/-- An amount made of an `i64`. -/
def fromI64 (field : SField) (asset : Asset) (amount : ℤ) : Calc ε STAmount :=
  canonicalize fuel mode ⟨field, asset, UInt64.ofNat amount.natAbs, 0, decide (amount < 0)⟩

def fromXrpAmount (drops : ℤ) : Calc ε STAmount :=
  fromI64 fuel mode .generic (.issue .xrp) drops

def fromMptAmount (field : SField) (amount : ℤ) (issue : MPTIssue) : Calc ε STAmount :=
  fromI64 fuel mode field (.mptIssue issue) amount

def fromIouAmount (field : SField) (amount : IOUAmount) (issue : Issue) : Calc ε STAmount :=
  canonicalize fuel mode
    ⟨field, .issue issue, UInt64.ofNat amount.mantissa.natAbs, amount.exponent, decide (amount.mantissa < 0)⟩

/-- The value as an `i64`, with its sign. -/
def signedValue (msg : String) (a : STAmount) : Calc ε ℤ := do
  let value ← fitI64 msg a.value
  if a.isNegative then i64 (-value) else return value

def xrp (a : STAmount) : Calc ε ℤ :=
  if !a.native then abort (.assertion "Cannot return non-native STAmount as XRPAmount")
  else a.signedValue "native value should fit i64"

def mpt (a : STAmount) : Calc ε ℤ :=
  if !a.holdsMptIssue then abort (.assertion "Cannot return STAmount as MPTAmount")
  else a.signedValue "MPT value should fit i64"

variable (scale : MantissaScale)

def iou (mode : RoundingMode) (a : STAmount) : Calc ε IOUAmount :=
  if a.integral then abort (.assertion "Cannot return non-IOU STAmount as IOUAmount")
  else do
    let mantissa ← a.signedValue "IOU mantissa should fit i64"
    orPanic "canonical IOU should round-trip" (IOUAmount.fromParts fuel scale mode mantissa a.offset)

def clear (a : STAmount) : STAmount :=
  { a with offset := if a.integral then 0 else iouZeroExponent, value := 0, isNegative := false }

/-- The part of `mul_assign` and `div_assign` for a factor that is neither zero nor one. -/
def scaleBy (mode : RoundingMode) (msg : String) (whole : ℤ → ℤ → Calc ε ℤ)
    (issued : IOUAmount → Int64 → Calc ε IOUAmount) (a : STAmount) (rhs : UInt64) : Calc ε STAmount :=
  if a.native then do
    let xrp ← a.xrp
    let rhs ← fitI64 msg rhs
    let xrp ← whole xrp rhs
    fromXrpAmount fuel mode xrp
  else
    match a.asset with
    | .mptIssue issue => do
      let mpt ← a.mpt
      let rhs ← fitI64 msg rhs
      let mpt ← whole mpt rhs
      fromMptAmount fuel mode a.field mpt issue
    | .issue issue => do
      let iou ← a.iou fuel scale mode
      let rhs ← fitI64 msg rhs
      let iou ← issued iou (Int64.ofInt rhs)
      fromIouAmount fuel mode a.field iou issue

/-- `mul_assign`. -/
def mul (mode : RoundingMode) (a : STAmount) (rhs : UInt64) : Calc ε STAmount :=
  if rhs = 1 then return a
  else if rhs = 0 then return a.clear
  else a.scaleBy fuel scale mode "multiplier should fit i64" (fun x n => i64 (x * n)) (IOUAmount.mul fuel scale mode) rhs

/-- `div_assign`. -/
def div (mode : RoundingMode) (a : STAmount) (rhs : UInt64) : Calc ε STAmount :=
  if rhs = 1 then return a
  else if rhs = 0 then abort (.assertion "division by zero")
  else a.scaleBy fuel scale mode "divisor should fit i64" divI64 (IOUAmount.div fuel scale mode) rhs

/-- The number that is meant. -/
def number (a : STAmount) : ℚ := signed a.isNegative (a.value.toNat * 10 ^ a.offset)

/-- **A canonical amount.** -/
def Canonical (a : STAmount) : Prop :=
  if a.native then a.offset = 0 ∧ a.value.toNat ≤ stAmountMaxNativeNetwork ∧ (a.value = 0 → a.isNegative = false)
  else if a.holdsMptIssue then a.offset = 0 ∧ a.value.toNat ≤ maxMpTokenAmount ∧ (a.value = 0 → a.isNegative = false)
  else (a.value = 0 ∧ a.offset = iouZeroExponent ∧ a.isNegative = false) ∨
    (stAmountMinMantissa ≤ a.value.toNat ∧ a.value.toNat ≤ stAmountMaxMantissa ∧
      stAmountMinOffset ≤ a.offset ∧ a.offset ≤ stAmountMaxOffset)

end STAmount

end Xrpld.Protocol
