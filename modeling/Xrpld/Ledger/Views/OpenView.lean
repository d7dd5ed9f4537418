import Xrpld.Ledger.Views.ReadView

/-!
# Open views

`RawStateTable` of `xrpld/ledger/views/raw_state_table.rs` and, as far as it reads and changes state, `OpenView` of
`xrpld/ledger/views/open_view.rs`.
-/

namespace Xrpld.Views

open Protocol Std

namespace RawStateTable

/-- `Action` of a raw state table. -/
inductive Action where
  | erase | insert | replace
  deriving DecidableEq

structure SleAction where
  action : Action
  sle : STLedgerEntry

end RawStateTable

structure RawStateTable where
  items : ExtTreeMap Uint256 RawStateTable.SleAction
  dropsDestroyed : ℤ

namespace RawStateTable

variable {B : Type} [ReadView B]

def new : RawStateTable := ⟨∅, 0⟩

/-- Put an entry in the table. -/
def put (action : Action) (sle : STLedgerEntry) (t : RawStateTable) : RawStateTable :=
  { t with items := t.items.insert sle.key ⟨action, sle⟩ }

/-- `exists`. -/
def exists_ (t : RawStateTable) (base : B) (k : Keylet) : Answer Bool :=
  match t.items[k.key]? with
  | some ⟨.erase, _⟩ => return false
  | some ⟨_, sle⟩ => return k.checkLedgerEntry sle.entryType sle.key
  | none => ReadView.exists_ base k

def succ (t : RawStateTable) (base : B) (key : Uint256) (last : Option Uint256) : Answer (Option Uint256) :=
  overlaySucc t.items (fun entry => decide (entry.action = .erase)) (ReadView.succ base) key last

def read (t : RawStateTable) (base : B) (k : Keylet) : Answer (Option STLedgerEntry) :=
  match t.items[k.key]? with
  | some ⟨.erase, _⟩ => return none
  | some ⟨_, sle⟩ => return if k.checkLedgerEntry sle.entryType sle.key then some sle else none
  | none => ReadView.read base k

def erase (sle : STLedgerEntry) : Edit RawStateTable Unit := do
  let t ← Prog.read
  match t.items[sle.key]? with
  | some ⟨.erase, _⟩ => Prog.fail (.conversion "RawStateTable::erase: already erased")
  | some ⟨.insert, _⟩ => Prog.update fun t => { t with items := t.items.erase sle.key }
  | _ => Prog.update (put .erase sle)

def insert (sle : STLedgerEntry) : Edit RawStateTable Unit := do
  let t ← Prog.read
  match t.items[sle.key]? with
  | none => Prog.update (put .insert sle)
  | some ⟨.erase, _⟩ => Prog.update (put .replace sle)
  | some ⟨.insert, _⟩ => Prog.fail (.conversion "RawStateTable::insert: already inserted")
  | some ⟨.replace, _⟩ => Prog.fail (.conversion "RawStateTable::insert: already exists")

def replace (sle : STLedgerEntry) : Edit RawStateTable Unit := do
  let t ← Prog.read
  match t.items[sle.key]? with
  | some ⟨.erase, _⟩ => Prog.fail (.conversion "RawStateTable::replace: was erased")
  | some ⟨.insert, _⟩ => Prog.update (put .insert sle)
  | _ => Prog.update (put .replace sle)

def destroyXrp (fee : ℤ) : Edit RawStateTable Unit := do
  let t ← Prog.read
  let drops ← Prog.lift (addDrops t.dropsDestroyed fee)
  Prog.update fun t => { t with dropsDestroyed := drops }

end RawStateTable

/-- `OpenView`: what it shows of the state. -/
structure OpenView (B : Type) where
  base : B
  items : RawStateTable

namespace OpenView

variable {B : Type} [ReadView B]

/-- Run a program on the table. -/
def onItems {α : Type} (p : Edit RawStateTable α) : Edit (OpenView B) α :=
  Prog.zoom (·.items) (fun items v => { v with items := items }) p

instance : ReadView (OpenView B) where
  exists_ v := v.items.exists_ v.base
  succ v := v.items.succ v.base
  read v := v.items.read v.base

instance : RawView (OpenView B) where
  rawErase sle := onItems (RawStateTable.erase sle)
  rawInsert sle := onItems (RawStateTable.insert sle)
  rawReplace sle := onItems (RawStateTable.replace sle)
  rawDestroyXrp fee := onItems (RawStateTable.destroyXrp fee)

end OpenView

end Xrpld.Views
