import Xrpld.Lib.NextKey
import Xrpld.Lib.Prog
import Xrpld.Lib.TreeMap
import Xrpld.Protocol.LedgerEntry

/-!
# Views of a ledger

`ReadView`, `RawView` and `ApplyView` of `xrpld/ledger/views/`, a base ledger, and the search for the next key that
the overlay tables share.

## The model

What a view answers without changing is an `Answer`: a value, a `ViewError`, or a panic. What changes a view is a
program over it. A `Ledger` is its state map; of a state item the model keeps the type and the object that its bytes
parse to.

## What is proved

`overlaySucc_spec`: a table of entries, some of them erased, that is laid over a base finds the next key of what is
visible, and its loop ends.
-/

namespace Xrpld.Views

open Protocol Std List Finset

/-- `ViewError`, as far as the modelled views make one or pass one on. -/
inductive ViewError where
  | traversal
  | conversion (msg : String)
  deriving DecidableEq

/-- What a view answers. -/
abbrev Answer (α : Type) := ExceptT ViewError (Except Fault) α

/-- A panic. -/
def Answer.abort {α : Type} (fault : Fault) : Answer α := ExceptT.mk (.error fault)

theorem Answer.pure_inj {α : Type} {a b : α} (h : (pure a : Answer α) = pure b) : a = b := Except.ok.inj (Except.ok.inj h)

/-- A program over a view. -/
abbrev Edit (V α : Type) := Prog Fault V ViewError α

/-- Ask the view. -/
def Edit.ask {V α : Type} (answer : V → Answer α) : Edit V α := fun v =>
  match (answer v).run with
  | .error fault => .error fault
  | .ok r => .ok (r, v)

theorem Edit.wp_ask {V α : Type} {an : V → Answer α} {a : α} {v : V} {Q : α → V → Prop}
    {E : ViewError → V → Prop} {F : Fault → Prop} (h : an v = pure a) (hQ : Q a v) :
    wp (Edit.ask an) Q E F v := by
  simp only [wp, Edit.ask, h]
  exact hQ

theorem Edit.wp_ask_same {V α : Type} (an : V → Answer α) (v : V) :
    wp (Edit.ask an) (fun _ v' => v' = v) (fun _ v' => v' = v) ⊤ v := by
  simp only [wp, Edit.ask]
  rcases (an v).run with fault | (e | a)
  · trivial
  · rfl
  · rfl

abbrev ApplyFlags := UInt32

def dryRun : ApplyFlags := 0x1000

class ReadView (V : Type) where
  exists_ : V → Keylet → Answer Bool
  succ : V → Uint256 → Option Uint256 → Answer (Option Uint256)
  read : V → Keylet → Answer (Option STLedgerEntry)

class RawView (V : Type) where
  rawErase : STLedgerEntry → Edit V Unit
  rawInsert : STLedgerEntry → Edit V Unit
  rawReplace : STLedgerEntry → Edit V Unit
  rawDestroyXrp : ℤ → Edit V Unit

class ApplyView (V : Type) extends ReadView V where
  flags : V → ApplyFlags
  peek : Keylet → Edit V (Option STLedgerEntry)
  insert : STLedgerEntry → Edit V Unit
  update : STLedgerEntry → Edit V Unit
  erase : STLedgerEntry → Edit V Unit
  destroyXrp : ℤ → Edit V Unit

/-- Whether a number of drops is an `i64`. -/
def FitsI64 (drops : ℤ) : Prop := -2 ^ 63 ≤ drops ∧ drops < 2 ^ 63

instance (drops : ℤ) : Decidable (FitsI64 drops) := inferInstanceAs (Decidable (_ ∧ _))

theorem fitsI64_zero : FitsI64 0 := by decide

/-- `XRPAmount::add_assign`. -/
def addDrops (a b : ℤ) : Except Fault ℤ := if FitsI64 (a + b) then .ok (a + b) else .error .overflow

/-! ### The base ledger -/

/-- `Ledger`, as a view reads it: its state map. -/
structure Ledger where
  stateMap : ExtTreeMap Uint256 (LedgerEntryType × STObject)

namespace Ledger

variable (ledger : Ledger)

/-- The entry that the item of a key parses to. -/
def entry (key : Uint256) : Option STLedgerEntry :=
  ledger.stateMap[key]?.map fun item => ⟨key, item.1, item.2⟩

def existsKeylet (k : Keylet) : Answer Bool := pure (ledger.entry k.key).isSome

/-- `upper_bound` of the state map. -/
def upperBound (key : Uint256) : Option Uint256 :=
  (ledger.stateMap.toList.find? fun item => decide (key < item.1)).map (·.1)

def succ (key : Uint256) (last : Option Uint256) : Answer (Option Uint256) :=
  pure (beforeLast last (ledger.upperBound key))

/-- `read`, which ends in `parse_state_sle`. -/
def read (k : Keylet) : Answer (Option STLedgerEntry) :=
  pure <|
    if k.key = 0 then none
    else (ledger.entry k.key).filter fun e => k.checkLedgerEntry e.entryType e.key

instance : ReadView Ledger := ⟨existsKeylet, succ, read⟩

end Ledger

/-! ### The next key of an overlay -/

section Succ

variable {A : Type} {base : Uint256 → Option Uint256 → Answer (Option Uint256)} {P : Uint256 → Prop} {last : Option Uint256}

/-- The loop over the base's keys, past those that are erased here. -/
def skipErased (base : Uint256 → Answer (Option Uint256)) (erased : Uint256 → Bool) : ℕ → Uint256 → Answer (Option Uint256)
  | 0, _ => .abort .outOfFuel
  | fuel + 1, key => do
    match ← base key with
    | none => return none
    | some n => if erased n then skipErased base erased fuel n else return some n

variable (items : ExtTreeMap Uint256 A)

/-- The first key of the table above a key that is not erased. -/
def localNext (erased : A → Bool) (key : Uint256) : Option Uint256 :=
  (items.toList.find? fun item => decide (key < item.1) && !erased item.2).map (·.1)

/-- `succ` of a table over a base. -/
def overlaySucc (erased : A → Bool)
    (base : Uint256 → Option Uint256 → Answer (Option Uint256)) (key : Uint256) (last : Option Uint256) :
    Answer (Option Uint256) := do
  let next ← skipErased (base · last) (fun n => items[n]?.any erased) (items.size + 1) key
  return beforeLast last (minOption next (localNext items erased key))

/-- The least key of a map above a key that a test accepts. -/
theorem isNext_find? (key : Uint256) (test : A → Bool) :
    IsNext (fun n => ∃ a, items[n]? = some a ∧ test a) key none
      ((items.toList.find? fun it => decide (key < it.1) && test it.2).map (·.1)) := by
  have hs : items.toList.Pairwise fun a b => a.1 < b.1 :=
    ExtTreeMap.ordered_keys_toList.imp fun h => compare_lt_iff_lt.mp h
  have he : ∀ n a, (n, a) ∈ items.toList ↔ items[n]? = some a := fun n a => TreeMap.mem_toList
  cases hf : items.toList.find? fun it => decide (key < it.1) && test it.2 with
  | none =>
    rintro n ⟨a, ha, ht⟩ hlt
    have := find?_eq_none.mp hf (n, a) ((he n a).mpr ha)
    simp [hlt, ht] at this
  | some it =>
    obtain ⟨ht, before, after, hl, hb⟩ := find?_eq_some_iff_append.mp hf
    simp only [Bool.and_eq_true, decide_eq_true_eq] at ht
    refine ⟨⟨it.2, (he _ _).mp (mem_of_find?_eq_some hf), ht.2⟩, ht.1, ?_, nofun⟩
    rintro m ⟨a, ha, hte⟩ hlt
    have hi : (m, a) ∈ before ++ it :: after := hl ▸ (he m a).mpr ha
    rw [hl, List.pairwise_append, List.pairwise_cons] at hs
    rcases mem_append.mp hi with hm | hm
    · -- what stands before the first hit fails the test
      have := hb _ hm
      simp [hlt, hte] at this
    · rcases mem_cons.mp hm with rfl | hm
      · exact le_rfl
      · exact (hs.2.1.1 _ hm).le

/-- The loop ends when it has a step for each erased key ahead, at the next key that is not erased. -/
theorem skipErased_spec {hide : Uint256 → Bool} (next : Uint256 → Answer (Option Uint256))
    (hx : ∀ key, ∃ r, next key = pure r ∧ IsNext P key last r) (gone : Finset Uint256)
    (hg : ∀ n, hide n → n ∈ gone) (fuel : ℕ) (key : Uint256) (hf : (gone.filter (key < ·)).card < fuel) :
    ∃ r, skipErased next hide fuel key = pure r ∧ IsNext (fun n => P n ∧ ¬ hide n) key last r := by
  induction fuel generalizing key with
  | zero => omega
  | succ fuel ih =>
    obtain ⟨r, hr, hisNext⟩ := hx key
    simp only [skipErased, hr, pure_bind]
    cases r with
    | none => exact ⟨none, rfl, hisNext.none_of_imp fun n hn => hn.1⟩
    | some n =>
      by_cases hide_n : hide n
      · -- one erased key fewer is ahead of `n`
        have hs : gone.filter (n < ·) ⊂ gone.filter (key < ·) := by
          refine ssubset_iff_of_subset (fun m hm => ?_) |>.mpr ⟨n, ?_, ?_⟩
          · rw [Finset.mem_filter] at hm ⊢
            exact ⟨hm.1, hisNext.2.1.trans hm.2⟩
          · exact mem_filter.mpr ⟨hg n hide_n, hisNext.2.1⟩
          · simp
        obtain ⟨r, hr, hisNext'⟩ := ih n (by have := card_lt_card hs; omega)
        simp only [hide_n, if_true]
        exact ⟨r, hr, hisNext.skip (E := fun n => hide n) hide_n hisNext'⟩
      · simp only [hide_n]
        exact ⟨some n, rfl, hisNext.some_of_imp (fun m hm => hm.1) ⟨hisNext.1, hide_n⟩⟩

/-- **The next key of an overlay.** Over a base that finds its next keys, `succ` of a table finds the next key of what
is visible: what the base has and the table does not erase, and what the table has. -/
theorem overlaySucc_spec (er : A → Bool) (key : Uint256)
    (hb : ∀ key, ∃ r, base key last = pure r ∧ IsNext P key last r) :
    ∃ r, overlaySucc items er base key last = pure r ∧
      IsNext (fun n => (P n ∧ ¬ items[n]?.any er) ∨ ∃ a, items[n]? = some a ∧ er a = false) key last r := by
  have hg : ∀ n, items[n]?.any er → n ∈ items.keys.toFinset := by
    intro n hn
    rw [mem_toFinset, ExtTreeMap.mem_keys, TreeMap.mem_iff_exists]
    obtain ⟨a, ha, -⟩ := Option.any_eq_true _ _ |>.mp hn
    exact ⟨a, ha⟩
  have hc : (items.keys.toFinset.filter (key < ·)).card < items.size + 1 := by
    have h1 := card_filter_le items.keys.toFinset (key < ·)
    have h2 := toFinset_card_le items.keys
    have h3 : items.keys.length = items.size := ExtTreeMap.length_keys
    omega
  obtain ⟨r, hr, hx⟩ := skipErased_spec (base · last) hb _ hg _ key hc
  refine ⟨_, by simp only [overlaySucc, hr, pure_bind]; rfl, ?_⟩
  have hl := isNext_find? items key fun a => !er a
  refine (hx.merge hl).congr fun n => ?_
  simp

end Succ

end Xrpld.Views
