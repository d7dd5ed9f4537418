import Xrpld.Ledger.Views.FlowCommit
import Xrpld.Ledger.Views.OpenView
import Xrpld.Ledger.Views.PaymentSandbox

/-!
# Lookups by type through an overlay

A keylet asks for an entry of a type. A base ledger's `read` looks at the type of what it finds, its `exists` does not.
An overlay answers for the keys of its own table first, and its tables differ: those of sandboxes, payment sandboxes
and flow sandboxes do not look at the type, the one of an open view does, also for `exists`.

## The model

`ledgerRead` and `ledgerExists` are the answers that a base ledger gives which has the entries of a map. `Layered` says of
a view what its layers show at a key, and whether a table answers for it (`Own`).

## What is proved

`typed_lookups_iff`: an overlay answers a keylet as a ledger with the visible entries would, and finds only
entries of the type that is asked for, exactly when the visible entry has that type, the zero key apart, which a ledger
never reads.
-/

namespace Xrpld.Views

open Protocol
open Std (ExtTreeMap)
open ApplyStateTable ReadView

/-- What `Ledger::read` finds in a ledger with the entries of `m`. -/
def ledgerRead (m : Uint256 → Option STLedgerEntry) (k : Keylet) : Option STLedgerEntry :=
  if k.key = 0 then none else (m k.key).filter fun e => k.checkLedgerEntry e.entryType e.key

/-- What `Ledger::exists_keylet` says of a ledger with the entries of `m`. -/
def ledgerExists (m : Uint256 → Option STLedgerEntry) (k : Keylet) : Bool := (m k.key).isSome

theorem Ledger.read_eq_ledgerRead (ledger : Ledger) (k : Keylet) : ReadView.read ledger k = pure (ledgerRead ledger.entry k) := rfl

theorem Ledger.exists_eq_ledgerExists (ledger : Ledger) (k : Keylet) :
    exists_ ledger k = pure (ledgerExists ledger.entry k) := rfl

/-- A view whose layers answer for a key: the table that has it, or else the ledger at the bottom. -/
class Layered (V : Type) [ApplyView V] where
  /-- What is visible. -/
  visible : V → Uint256 → Option STLedgerEntry
  /-- A table answers for the key, and shows an entry. -/
  Own : V → Uint256 → Prop
  exists_eq (v : V) (k : Keylet) : ReadView.exists_ v k = pure (ledgerExists (visible v) k)
  read_own {v : V} {k : Keylet} : Own v k.key → ∃ e, visible v k.key = some e ∧ ReadView.read v k = pure (some e)
  read_other {v : V} {k : Keylet} : ¬ Own v k.key → ReadView.read v k = pure (ledgerRead (visible v) k)
  peek_eq (v : V) (k : Keylet) (r : Option STLedgerEntry) : ReadView.read v k = pure r →
    ∃ v', ApplyView.peek k v = .ok (.ok r, v')

export Layered (visible Own)

/-- A lookup is as a ledger with the visible entries would answer it, and finds only what it asks for. -/
structure TypedLookup {V : Type} [ReadView V] (v : V) (m : Uint256 → Option STLedgerEntry) (k : Keylet) : Prop where
  read : ReadView.read v k = pure (ledgerRead m k)
  exists_ : ReadView.exists_ v k = pure (ledgerExists m k)
  exists_only : ReadView.exists_ v k = pure true → ∃ e, m k.key = some e ∧ Admits k e
  read_only {e : STLedgerEntry} : ReadView.read v k = pure (some e) → m k.key = some e ∧ Admits k e

/-- What is visible is what the keylet asks for, and no table answers for the zero key, which a ledger never reads. -/
def Asked {V : Type} [ApplyView V] [Layered V] (v : V) (k : Keylet) : Prop :=
  Suits (visible v) k ∧ (k.key = 0 → ¬ Own v k.key)

variable {m : Uint256 → Option STLedgerEntry} {k : Keylet}

theorem ledgerRead_only {e : STLedgerEntry} (h : ledgerRead m k = some e) : m k.key = some e ∧ Admits k e := by
  rw [ledgerRead] at h
  split_ifs at h
  exact Option.filter_eq_some_iff.mp h

theorem ledgerRead_of_suits (h : Suits m k) (hz : k.key ≠ 0) : ledgerRead m k = m k.key := by
  rw [ledgerRead, if_neg hz]
  cases hm : m k.key with
  | none => rfl
  | some e =>
    exact if_pos (h e hm)

theorem TypedLookup.suits {V : Type} [ReadView V] {v : V} (h : TypedLookup v m k) : Suits m k := fun e he => by
  have hx := h.exists_
  rw [ledgerExists, he] at hx
  obtain ⟨e', he', ha⟩ := h.exists_only hx
  exact (Option.some.inj (he.symm.trans he')) ▸ ha

/-- The answers of a ledger find only what is asked for, if that is what is visible. -/
theorem typedLookup_of_suits {V : Type} [ReadView V] {v : V} (hs : Suits m k)
    (hr : read v k = pure (ledgerRead m k)) (hx : exists_ v k = pure (ledgerExists m k)) :
    TypedLookup v m k := by
  refine ⟨hr, hx, fun ht => ?_, fun ho => ledgerRead_only (Answer.pure_inj (hr.symm.trans ho))⟩
  obtain ⟨e, he⟩ := Option.isSome_iff_exists.mp (Answer.pure_inj (hx.symm.trans ht))
  exact ⟨e, he, hs e he⟩

theorem typedLookup_iff {V : Type} [ApplyView V] [Layered V] (v : V) (k : Keylet) : TypedLookup v (visible v) k ↔ Asked v k := by
  constructor
  · refine fun h => ⟨h.suits, fun hz ho => ?_⟩
    obtain ⟨e, -, hr⟩ := Layered.read_own ho
    have hn := Answer.pure_inj (h.read.symm.trans hr)
    rw [ledgerRead, if_pos hz] at hn
    cases hn
  · rintro ⟨hs, hz⟩
    refine typedLookup_of_suits hs ?_ (Layered.exists_eq v k)
    by_cases ho : Own v k.key
    · obtain ⟨e, he, hr⟩ := Layered.read_own ho
      rw [hr, ledgerRead_of_suits hs fun h0 => hz h0 ho, he]
    · exact Layered.read_other ho

/-! ### The overlays -/

section Table

variable {t : ApplyStateTable} {ledger : Ledger}

/-- What a table over a ledger shows. -/
def tableVisible (t : ApplyStateTable) (ledger : Ledger) : Uint256 → Option STLedgerEntry :=
  overlay t.items StateEntry.shown ledger.entry

/-- A table has an entry that is not erased. -/
def TableOwn (t : ApplyStateTable) (key : Uint256) : Prop := ∃ entry, t.items[key]? = some entry ∧ entry.action ≠ .erase

theorem table_exists (t : ApplyStateTable) (ledger : Ledger) (k : Keylet) :
    t.exists_ ledger k = pure (ledgerExists (tableVisible t ledger) k) := by
  rw [ApplyStateTable.exists_, ledgerExists, tableVisible, overlay]
  cases t.items[k.key]? with
  | none => rfl
  | some entry => by_cases h : entry.action = .erase <;> simp [StateEntry.shown, h]

theorem table_read_own (h : TableOwn t k.key) :
    ∃ e, tableVisible t ledger k.key = some e ∧ t.read ledger k = pure (some e) := by
  obtain ⟨entry, he, hl⟩ := h
  refine ⟨entry.sle, ?_, ?_⟩
  · rw [tableVisible, overlay_some he, StateEntry.shown, if_neg hl]
  · rw [ApplyStateTable.read, he]
    exact congrArg pure (Sandbox.shown_of_live hl)

theorem table_read_other (h : ¬ TableOwn t k.key) : t.read ledger k = pure (ledgerRead (tableVisible t ledger) k) := by
  rw [ApplyStateTable.read, ledgerRead, tableVisible, overlay]
  cases hi : t.items[k.key]? with
  | none => rfl
  | some entry =>
    have he : entry.action = .erase := by
      by_contra hl
      exact h ⟨entry, hi, hl⟩
    simp [StateEntry.shown, he]

theorem table_peek {r : Option STLedgerEntry} (h : t.read ledger k = pure r) :
    ∃ t', peek ledger k t = .ok (.ok r, t') := by
  have hw : wp (peek ledger k) (fun r' _ => r' = r) ⊥ ⊥ t := by
    rw [ApplyStateTable.read] at h
    simp only [peek, wp_bind, wp_read]
    cases hi : t.items[k.key]? with
    | some entry =>
      rw [hi] at h
      exact Answer.pure_inj h
    | none =>
      rw [hi] at h
      refine (wp_bind _ _).mpr (Edit.wp_ask h ?_)
      cases r <;> rfl
  obtain ⟨r', t', hr, rfl⟩ := returns_of_wp hw
  exact ⟨t', hr⟩

end Table

instance : Layered (Sandbox Ledger) where
  visible s := tableVisible s.table s.base
  Own s := TableOwn s.table
  exists_eq s := table_exists s.table s.base
  read_own := table_read_own
  read_other := table_read_other
  peek_eq s k r h := by
    obtain ⟨t', ht'⟩ := table_peek h
    refine ⟨{ s with table := t' }, ?_⟩
    change Sandbox.peek k s = _
    simp only [Sandbox.peek, Sandbox.onTable, Prog.zoom, Prog.read, bind, ht']

instance {α : Type} : Layered (PaymentSandbox Ledger α) where
  visible s := tableVisible s.table s.base
  Own s := TableOwn s.table
  exists_eq s := table_exists s.table s.base
  read_own := table_read_own
  read_other := table_read_other
  peek_eq s k r h := by
    obtain ⟨t', ht'⟩ := table_peek h
    refine ⟨{ s with table := t' }, ?_⟩
    change PaymentSandbox.peek k s = _
    simp only [PaymentSandbox.peek, PaymentSandbox.onTable, Prog.zoom, Prog.read, bind, ht']

/-- A flow sandbox over a view with layers is one more layer. -/
instance {V : Type} [ApplyView V] [Layered V] : Layered (FlowSandbox V) where
  visible c := overlay c.items FlowSandbox.Entry.shown (visible c.parent)
  Own c key :=
    match c.items[key]? with
    | some entry => entry.action ≠ .erase
    | none => Own c.parent key
  exists_eq c k := by
    change c.exists_ k = _
    rw [FlowSandbox.exists_, ledgerExists, overlay]
    cases c.items[k.key]? with
    | none => exact Layered.exists_eq c.parent k
    | some entry => by_cases h : entry.action = .erase <;> simp [FlowSandbox.Entry.shown, h]
  read_own {c k} hown := by
    cases him : c.items[k.key]? with
    | none =>
      rw [him] at hown
      rw [FlowSandbox.read_eq_of_no_item him, overlay_none him]
      exact Layered.read_own hown
    | some entry =>
      rw [him] at hown
      rw [FlowSandbox.read_eq_of_item him, overlay_some him, FlowSandbox.shown_of_live hown]
      exact ⟨entry.sle, rfl, rfl⟩
  read_other {c k} hown := by
    cases him : c.items[k.key]? with
    | none =>
      rw [him] at hown
      rw [FlowSandbox.read_eq_of_no_item him, ledgerRead, overlay_none him]
      exact Layered.read_other hown
    | some entry =>
      rw [him] at hown
      have herase : entry.action = .erase := not_not.mp hown
      rw [FlowSandbox.read_eq_of_item him, ledgerRead, overlay_some him]
      simp [FlowSandbox.Entry.shown, herase]
  peek_eq c k r h := by
    change ∃ c', FlowSandbox.peek k c = _
    cases him : c.items[k.key]? with
    | none =>
      rw [FlowSandbox.read_eq_of_no_item him] at h
      obtain ⟨parent, hpa⟩ := Layered.peek_eq c.parent k r h
      exact ⟨{ c with parent := parent }, by
        simp only [FlowSandbox.peek, FlowSandbox.onParent, Prog.zoom, Prog.read, bind, him, hpa]⟩
    | some entry =>
      rw [FlowSandbox.read_eq_of_item him] at h
      refine ⟨c, ?_⟩
      rw [← Answer.pure_inj h]
      simp only [FlowSandbox.peek, Prog.read, bind, him]
      rfl

/-! ### Open views -/

namespace OpenView

variable {view : OpenView Ledger} {k : Keylet}

/-- What an entry of the table shows. -/
def shown (entry : RawStateTable.SleAction) : Option STLedgerEntry := if entry.action = .erase then none else some entry.sle

/-- What an open view shows. -/
def visible (view : OpenView Ledger) : Uint256 → Option STLedgerEntry := overlay view.items.items shown view.base.entry

/-- The table has an entry that is not erased. -/
def Own (view : OpenView Ledger) (key : Uint256) : Prop :=
  ∃ entry, view.items.items[key]? = some entry ∧ entry.action ≠ .erase

/-- An entry of the table is found if it is what the keylet asks for. -/
theorem lookup_own (h : view.Own k.key) : ∃ e, view.visible k.key = some e ∧
    read view k = pure (if k.checkLedgerEntry e.entryType e.key then some e else none) ∧
    exists_ view k = pure (k.checkLedgerEntry e.entryType e.key) := by
  obtain ⟨⟨act, sle⟩, he, hl⟩ := h
  refine ⟨sle, by rw [visible, overlay_some he, shown, if_neg hl], ?_⟩
  change view.items.read view.base k = _ ∧ view.items.exists_ view.base k = _
  rw [RawStateTable.read, RawStateTable.exists_, he]
  cases act with
  | erase => exact absurd rfl hl
  | insert | replace => exact ⟨rfl, rfl⟩

theorem lookup_other (h : ¬ view.Own k.key) : read view k = pure (ledgerRead view.visible k) ∧
    exists_ view k = pure (ledgerExists view.visible k) := by
  change view.items.read view.base k = _ ∧ view.items.exists_ view.base k = _
  rw [RawStateTable.read, RawStateTable.exists_, ledgerRead, ledgerExists, visible, overlay]
  cases he : view.items.items[k.key]? with
  | none => exact ⟨rfl, rfl⟩
  | some entry =>
    obtain ⟨act, sle⟩ := entry
    cases act with
    | erase => simp [shown]
    | insert | replace => exact absurd ⟨_, he, nofun⟩ h

theorem typedLookup_iff (view : OpenView Ledger) (k : Keylet) :
    TypedLookup view view.visible k ↔ Suits view.visible k ∧ (k.key = 0 → ¬ view.Own k.key) := by
  constructor
  · refine fun h => ⟨h.suits, fun hz ho => ?_⟩
    obtain ⟨e, he, hr, -⟩ := lookup_own ho
    have ha : k.checkLedgerEntry e.entryType e.key := h.suits e he
    rw [if_pos ha] at hr
    have hn := Answer.pure_inj (h.read.symm.trans hr)
    rw [ledgerRead, if_pos hz] at hn
    cases hn
  · rintro ⟨hs, hz⟩
    by_cases ho : view.Own k.key
    · obtain ⟨e, he, hr, hx⟩ := lookup_own ho
      have ha : k.checkLedgerEntry e.entryType e.key := hs e he
      refine typedLookup_of_suits hs ?_ ?_
      · rw [hr, ledgerRead_of_suits hs fun h0 => hz h0 ho, he, if_pos ha]
      · rw [hx, ledgerExists, he, ha]
        rfl
    · exact typedLookup_of_suits hs (lookup_other ho).1 (lookup_other ho).2

end OpenView

end Xrpld.Views
