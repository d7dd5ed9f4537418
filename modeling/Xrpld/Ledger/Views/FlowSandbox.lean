import Xrpld.Ledger.Views.ApplyStateTable

/-!
# Flow sandboxes

`FlowSandbox` of `xrpld/ledger/views/flow_sandbox.rs`: an overlay over a mutable parent, which can itself be an
overlay. A look at an entry goes to the parent and checks the entry out there; a change stays in the child until
`apply` hands all of them to the parent.

## The model

The parent that the child borrows is a part of the child's state. `apply` ends in the parent.
-/

namespace Xrpld.Views

open Protocol Std

namespace FlowSandbox

/-- `Action` of a flow sandbox. -/
inductive Action where
  | insert | modify | erase
  deriving DecidableEq

structure Entry where
  action : Action
  sle : STLedgerEntry

/-- What an entry of the child shows. -/
def Entry.shown (entry : Entry) : Option STLedgerEntry := if entry.action = .erase then none else some entry.sle

end FlowSandbox

structure FlowSandbox (V : Type) where
  parent : V
  items : ExtTreeMap Uint256 FlowSandbox.Entry
  dropsDestroyed : ℤ
  flags : Option ApplyFlags

namespace FlowSandbox

variable {V : Type}

def new (parent : V) : FlowSandbox V := ⟨parent, ∅, 0, none⟩

def newWithFlags (parent : V) (flags : ApplyFlags) : FlowSandbox V := ⟨parent, ∅, 0, some flags⟩

/-- Put an entry in the child. -/
def put (action : Action) (sle : STLedgerEntry) (c : FlowSandbox V) : FlowSandbox V :=
  { c with items := c.items.insert sle.key ⟨action, sle⟩ }

/-- Run a program on the parent. -/
def onParent {α : Type} (p : Edit V α) : Edit (FlowSandbox V) α :=
  Prog.zoom (·.parent) (fun parent c => { c with parent := parent }) p

section

variable [ApplyView V]

/-- `exists`. -/
def exists_ (c : FlowSandbox V) (k : Keylet) : Answer Bool :=
  match c.items[k.key]? with
  | some entry => return decide (entry.action ≠ .erase)
  | none => ReadView.exists_ c.parent k

def succ (c : FlowSandbox V) (key : Uint256) (last : Option Uint256) : Answer (Option Uint256) :=
  overlaySucc c.items (fun entry => decide (entry.action = .erase)) (ReadView.succ c.parent) key last

def read (c : FlowSandbox V) (k : Keylet) : Answer (Option STLedgerEntry) :=
  match c.items[k.key]? with
  | some entry => return entry.shown
  | none => ReadView.read c.parent k

/-- `flags`. -/
def applyFlags (c : FlowSandbox V) : ApplyFlags := c.flags.getD (ApplyView.flags c.parent)

def peek (k : Keylet) : Edit (FlowSandbox V) (Option STLedgerEntry) := do
  let c ← Prog.read
  match c.items[k.key]? with
  | some entry => return entry.shown
  | none => onParent (ApplyView.peek k)

end

/-- `raw_insert`, which is `insert`. -/
def rawInsert (sle : STLedgerEntry) : Edit (FlowSandbox V) Unit := do
  let c ← Prog.read
  match c.items[sle.key]? with
  | some ⟨.erase, _⟩ => Prog.update (put .modify sle)
  | _ => Prog.update (put .insert sle)

/-- `raw_replace`, which is `update`. -/
def rawReplace (sle : STLedgerEntry) : Edit (FlowSandbox V) Unit := do
  let c ← Prog.read
  match c.items[sle.key]? with
  | some ⟨.insert, _⟩ => Prog.update (put .insert sle)
  | _ => Prog.update (put .modify sle)

/-- `raw_erase`, which is `erase`. -/
def rawErase (sle : STLedgerEntry) : Edit (FlowSandbox V) Unit := do
  let c ← Prog.read
  match c.items[sle.key]? with
  | some ⟨.insert, _⟩ => Prog.update fun c => { c with items := c.items.erase sle.key }
  | _ => Prog.update (put .erase sle)

/-- `raw_destroy_xrp`, which is `destroy_xrp`. -/
def rawDestroyXrp (fee : ℤ) : Edit (FlowSandbox V) Unit := do
  let c ← Prog.read
  let drops ← Prog.lift (addDrops c.dropsDestroyed fee)
  Prog.update fun c => { c with dropsDestroyed := drops }

instance [ApplyView V] : ApplyView (FlowSandbox V) where
  exists_ := exists_
  succ := succ
  read := read
  flags := applyFlags
  peek := peek
  insert := rawInsert
  update := rawReplace
  erase := rawErase
  destroyXrp := rawDestroyXrp

instance : RawView (FlowSandbox V) := ⟨rawErase, rawInsert, rawReplace, rawDestroyXrp⟩

/-! ### Handing the changes to the parent -/

section

variable [ApplyView V]

/-- The turn of an item in `validate_parent_commit`. -/
def validateItem (operation : String) (item : Uint256 × Entry) : Edit V Unit := do
  let keylet : Keylet := ⟨item.2.sle.entryType, item.1⟩
  let existing ← Edit.ask fun v => ReadView.read v keylet
  match item.2.action, existing with
  | .insert, some _ => Prog.fail (.conversion (operation ++ ": inserted parent entry already exists"))
  | .insert, none => pure ()
  | _, none => Prog.fail (.conversion (operation ++ ": parent entry disappeared"))
  | _, some _ => do
    let _ ← ApplyView.peek keylet
    pure ()

def validateParentCommit (operation : String) (items : List (Uint256 × Entry)) : Edit V Unit :=
  forEach (validateItem operation) items

/-- Check an entry out of the parent. -/
def checkOut (keylet : Keylet) (msg : String) : Edit V Unit := do
  let sle ← ApplyView.peek keylet
  match sle with
  | none => Prog.fail (.conversion msg)
  | some _ => pure ()

/-- The turn of an item in `apply`. -/
def applyItem (item : Uint256 × Entry) : Edit V Unit :=
  match item.2.action with
  | .insert => ApplyView.insert item.2.sle
  | .modify => do
    checkOut ⟨item.2.sle.entryType, item.1⟩ "FlowSandbox::apply: modified parent entry disappeared"
    ApplyView.update item.2.sle
  | .erase => do
    checkOut ⟨item.2.sle.entryType, item.1⟩ "FlowSandbox::apply: erased parent entry disappeared"
    ApplyView.erase item.2.sle

/-- Whether `apply` hands the destroyed drops on. -/
def burns (c : FlowSandbox V) : Bool := decide (0 < c.dropsDestroyed) && decide (c.applyFlags &&& dryRun = 0)

/-- `apply`, as a program over the parent. -/
def apply (c : FlowSandbox V) : Edit V Unit := do
  validateParentCommit "FlowSandbox::apply" c.items.toList
  Prog.when c.burns (ApplyView.destroyXrp c.dropsDestroyed)
  forEach applyItem c.items.toList

end

end FlowSandbox

end Xrpld.Views
