import Xrpld.Ledger.Views.ReadView

/-!
# The table of a sandbox

`ApplyStateTable` of `xrpld/ledger/views/apply_state_table.rs` and `Sandbox` of `xrpld/ledger/views/sandbox.rs`: a
view that keeps what was looked at and changed in a table over a base view.

## The model

The table is an ordered map from keys to what was done there and the entry that is there since. Its operations are
programs over the table; a sandbox runs them on its own table.
-/

namespace Xrpld.Views

open Protocol Std

/-- `Action` of the table. -/
inductive Action where
  | cache | erase | insert | modify
  deriving DecidableEq

structure StateEntry where
  action : Action
  sle : STLedgerEntry

/-- What an entry of the table shows. -/
def StateEntry.shown (entry : StateEntry) : Option STLedgerEntry := if entry.action = .erase then none else some entry.sle

structure ApplyStateTable where
  items : ExtTreeMap Uint256 StateEntry
  dropsDestroyed : ℤ

namespace ApplyStateTable

variable {B : Type} [ReadView B]

def new : ApplyStateTable := ⟨∅, 0⟩

/-- Put an entry in the table. -/
def put (action : Action) (sle : STLedgerEntry) (t : ApplyStateTable) : ApplyStateTable :=
  { t with items := t.items.insert sle.key ⟨action, sle⟩ }

variable (t : ApplyStateTable)

/-- `exists`. -/
def exists_ (base : B) (k : Keylet) : Answer Bool :=
  match t.items[k.key]? with
  | some entry => return decide (entry.action ≠ .erase)
  | none => ReadView.exists_ base k

def succ (base : B) (key : Uint256) (last : Option Uint256) : Answer (Option Uint256) :=
  overlaySucc t.items (fun entry => decide (entry.action = .erase)) (ReadView.succ base) key last

def read (base : B) (k : Keylet) : Answer (Option STLedgerEntry) :=
  match t.items[k.key]? with
  | some entry => return entry.shown
  | none => ReadView.read base k

def peek (base : B) (k : Keylet) : Edit ApplyStateTable (Option STLedgerEntry) := do
  let t ← Prog.read
  match t.items[k.key]? with
  | some entry => return entry.shown
  | none => do
    let sle ← Edit.ask fun _ => ReadView.read base k
    whenSome sle fun sle => Prog.update fun t => { t with items := t.items.insert k.key ⟨.cache, sle⟩ }
    return sle

variable (sle : STLedgerEntry)

def insert : Edit ApplyStateTable Unit := do
  let t ← Prog.read
  match t.items[sle.key]? with
  | some ⟨.cache, _⟩ => Prog.fail (.conversion "ApplyStateTable::insert: already cached")
  | some ⟨.insert, _⟩ => Prog.fail (.conversion "ApplyStateTable::insert: already inserted")
  | some ⟨.modify, _⟩ => Prog.fail (.conversion "ApplyStateTable::insert: already modified")
  | some ⟨.erase, _⟩ => Prog.update (put .modify sle)
  | none => Prog.update (put .insert sle)

def replace : Edit ApplyStateTable Unit := do
  let t ← Prog.read
  match t.items[sle.key]? with
  | some ⟨.erase, _⟩ => Prog.fail (.conversion "ApplyStateTable::replace: already erased")
  | some ⟨.cache, _⟩ => Prog.update (put .modify sle)
  | some ⟨action, _⟩ => Prog.update (put action sle)
  | none => Prog.update (put .modify sle)

def update : Edit ApplyStateTable Unit := do
  let t ← Prog.read
  match t.items[sle.key]? with
  | none => Prog.fail (.conversion "ApplyStateTable::update: missing key")
  | some ⟨.erase, _⟩ => Prog.fail (.conversion "ApplyStateTable::update: erased")
  | some ⟨.cache, _⟩ => Prog.update (put .modify sle)
  | some ⟨action, _⟩ => Prog.update (put action sle)

def erase : Edit ApplyStateTable Unit := do
  let t ← Prog.read
  match t.items[sle.key]? with
  | none => Prog.fail (.conversion "ApplyStateTable::erase: missing key")
  | some ⟨.erase, _⟩ => Prog.fail (.conversion "ApplyStateTable::erase: double erase")
  | some ⟨.insert, _⟩ => Prog.update fun t => { t with items := t.items.erase sle.key }
  | some _ => Prog.update (put .erase sle)

def destroyXrp (fee : ℤ) : Edit ApplyStateTable Unit := do
  let t ← Prog.read
  let drops ← Prog.lift (addDrops t.dropsDestroyed fee)
  Prog.update fun t => { t with dropsDestroyed := drops }

/-- `apply`: what was changed goes to a view in the order of the keys, then the destroyed drops. -/
def apply {V : Type} [RawView V] : Edit V Unit := do
  forEach (fun item : Uint256 × StateEntry =>
      match item.2.action with
      | .erase => RawView.rawErase item.2.sle
      | .insert => RawView.rawInsert item.2.sle
      | .modify => RawView.rawReplace item.2.sle
      | .cache => pure ())
    t.items.toList
  RawView.rawDestroyXrp t.dropsDestroyed

end ApplyStateTable

/-! ### Sandboxes -/

structure Sandbox (B : Type) where
  base : B
  table : ApplyStateTable
  flags : ApplyFlags

namespace Sandbox

variable {B : Type} [ReadView B]

def new (base : B) (flags : ApplyFlags) : Sandbox B := ⟨base, .new, flags⟩

/-- Run a program on the table. -/
def onTable {α : Type} (p : Edit ApplyStateTable α) : Edit (Sandbox B) α :=
  Prog.zoom (·.table) (fun table s => { s with table := table }) p

def peek (k : Keylet) : Edit (Sandbox B) (Option STLedgerEntry) := do
  let s ← Prog.read
  onTable (ApplyStateTable.peek s.base k)

instance : ApplyView (Sandbox B) where
  exists_ s := s.table.exists_ s.base
  succ s := s.table.succ s.base
  read s := s.table.read s.base
  flags := flags
  peek := peek
  insert sle := onTable (ApplyStateTable.insert sle)
  update sle := onTable (ApplyStateTable.update sle)
  erase sle := onTable (ApplyStateTable.erase sle)
  destroyXrp fee := onTable (ApplyStateTable.destroyXrp fee)

instance : RawView (Sandbox B) where
  rawErase sle := onTable (ApplyStateTable.erase sle)
  rawInsert sle := onTable (ApplyStateTable.insert sle)
  rawReplace sle := onTable (ApplyStateTable.replace sle)
  rawDestroyXrp fee := onTable (ApplyStateTable.destroyXrp fee)

end Sandbox

end Xrpld.Views
