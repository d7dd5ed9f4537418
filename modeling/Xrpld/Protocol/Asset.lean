import Xrpld.Basics.BaseUint

/-!
# Assets

`Issue`, `MPTIssue` and `Asset` of `xrpl/protocol/ledger/issue.rs` and `xrpl/protocol/amounts/mpt_issue.rs`:
what an amount is an amount of.
-/

namespace Xrpld.Protocol

abbrev Currency := BaseUint 20

abbrev AccountID := BaseUint 20

abbrev MPTID := BaseUint 24

def isXrpCurrency (currency : Currency) : Bool := currency.isZero

structure Issue where
  currency : Currency
  account : AccountID
  deriving DecidableEq

namespace Issue

/-- `xrp_issue()`. -/
def xrp : Issue := ⟨.zero, .zero⟩

/-- `==` of issues: the account of the native currency does not count. -/
def eq (a b : Issue) : Bool := decide (a.currency = b.currency) && (isXrpCurrency a.currency || decide (a.account = b.account))

def native (issue : Issue) : Bool := issue.eq xrp

def integral (issue : Issue) : Bool := issue.native

end Issue

structure MPTIssue where
  mptId : MPTID
  deriving DecidableEq

inductive Asset where
  | issue (issue : Issue)
  | mptIssue (issue : MPTIssue)
  deriving DecidableEq

namespace Asset

def native : Asset → Bool
  | issue i => i.native
  | mptIssue _ => false

def integral : Asset → Bool
  | issue i => i.integral
  | mptIssue _ => true

/-- Whether the asset is an `MPTIssue`. -/
def holdsMptIssue : Asset → Bool
  | issue _ => false
  | mptIssue _ => true

theorem integral_eq (ast : Asset) : ast.integral = (ast.native || ast.holdsMptIssue) := by
  cases ast <;> simp [integral, native, holdsMptIssue, Issue.integral]

end Asset

end Xrpld.Protocol
