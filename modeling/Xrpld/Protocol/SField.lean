import Mathlib

/-!
# Fields

`SField` of `xrpl/protocol/serialization/sfield.rs`: the name, the type and the number of a field of a
serialized object, and the code made of the type and the number.
-/

namespace Xrpld.Protocol

inductive SerializedTypeId where
  | unknown | notPresent | uint16 | uint32 | uint64 | uint128 | uint256 | amount | variableLength | account | number
  | int32 | int64 | object | array | uint8 | uint160 | pathSet | vector256 | uint96 | uint192 | uint384 | uint512
  | issue | xchainBridge | currency | transaction | ledgerEntry | validation | metadata
  deriving DecidableEq

structure SField where
  /-- `code()`. -/
  fieldCode : ℤ
  fieldType : SerializedTypeId
  fieldValue : ℤ
  /-- `name()`. -/
  fieldName : String
  /-- The field is signed: `IsSigning::Yes`. -/
  signingField : Bool
  deriving DecidableEq

/-- `sf_generic()`. -/
def SField.generic : SField := ⟨0, .unknown, 0, "Generic", true⟩

end Xrpld.Protocol
