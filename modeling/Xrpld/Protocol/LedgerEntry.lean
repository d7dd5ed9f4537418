import Xrpld.Basics.Uint256

/-!
# Keylets and ledger entries

`LedgerEntryType` and `Keylet` of `xrpl/protocol/ledger/keylet.rs`, and `STLedgerEntry` of
`xrpl/protocol/serialization/st_ledger_entry.rs`.

## The model

A ledger entry has a key, a type and an object. The object gives each field a value of that field's own
type, or none, so that a field of the wrong type cannot be built. `EntryField` has the fields that the modelled code
reads or writes; all other fields of an entry are its `rest`, the bytes they are serialized to.
-/

namespace Xrpld.Protocol

inductive LedgerEntryType where
  | any | nfTokenOffer | check | did | negativeUnl | nfTokenPage | signerList | ticket | accountRoot | contract
  | directoryNode | amendments | generatorMap | ledgerHashes | bridge | nickname | offer | depositPreauth
  | xChainOwnedClaimId | rippleState | feeSettings | xChainOwnedCreateAccountClaimId | escrow | payChannel | amm
  | mpTokenIssuance | mpToken | oracle | credential | permissionedDomain | delegate | vault | loanBroker | loan
  | sponsorship | child
  deriving DecidableEq

/-- `Keylet`: the key of an entry and the type it is expected to have. -/
structure Keylet where
  entryType : LedgerEntryType
  key : Uint256
  deriving DecidableEq

/-- The fields of ledger entries that the modelled code reads or writes. -/
inductive EntryField where
  | indexes | indexNext | indexPrevious | rootIndex
  | mptAmount | outstandingAmount | maximumAmount | transferFee
  | rest
  deriving DecidableEq

/-- What a field holds. -/
@[reducible] def EntryField.Value : EntryField → Type
  | indexes => List Uint256
  | indexNext | indexPrevious => UInt64
  | rootIndex => Uint256
  | mptAmount | outstandingAmount | maximumAmount => UInt64
  | transferFee => UInt16
  | rest => List UInt8

/-- `STObject`, as far as ledger entries use it: the fields that are present and their values. -/
abbrev STObject := (field : EntryField) → Option field.Value

@[ext] structure STLedgerEntry where
  key : Uint256
  entryType : LedgerEntryType
  object : STObject

namespace STLedgerEntry

/-- `STLedgerEntry::new`: an entry with no field set. -/
def new (keylet : Keylet) : STLedgerEntry := ⟨keylet.key, keylet.entryType, fun _ => none⟩

/-- `set_field_*`. -/
def set (field : EntryField) (value : field.Value) (e : STLedgerEntry) : STLedgerEntry :=
  { e with object := Function.update e.object field (some value) }

end STLedgerEntry

def Keylet.checkLedgerEntry (k : Keylet) (actualType : LedgerEntryType) (actualKey : Uint256) : Bool :=
  match k.entryType with
  | .any => true
  | .child => decide (actualType ≠ .directoryNode)
  | expected => decide (expected = actualType) && decide (k.key = actualKey)

end Xrpld.Protocol
