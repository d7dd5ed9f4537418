import Xrpld.SHAMap.Hashing
import Xrpld.SHAMap.ProofPath

/-!
# A map has no history

Whatever sequence of calls has led to it, a tree that is all in memory is the canonical
radix tree of the items it holds. This module compares the calls with a plain map from keys
to items, call by call (`wp_run`), and then run by run (`runOps_refines_map`): the results are
the plain map's, a search finds what the plain map has, and once the tree is hashed the
root's hash is a function of the plain map alone (`mapHash`).

## The model

A run may also hash the tree between two calls, which gives up the nodes the tree owns and
so makes the next call copy them. Items have at least 12 bytes, since `new_leaf` asserts
it, and no two of them with one key have the same hash.
-/

namespace Xrpld.SHAMap

open Function (update update_self update_of_ne)
open Option Xrpld.Tree

/-! ### Plain maps -/

variable {key key' : Uint256} {type : LeafType} {ch ch' : Branch → MapTree} {sha : Sha}

/-- A map from keys to items. -/
structure PlainMap where
  get : Uint256 → Option SHAMapItem
  key_eq : ∀ key item, get key = some item → item.key = key

namespace PlainMap

/-- The empty map. -/
def empty : PlainMap := ⟨fun _ => none, nofun⟩

/-- Put an item under its key. -/
def insert (m : PlainMap) (item : SHAMapItem) : PlainMap where
  get := update m.get item.key (some item)
  key_eq := by
    intro key item' h
    by_cases hk : key = item.key
    · subst hk
      rw [update_self] at h
      rw [← Option.some.inj h]
    · rw [update_of_ne hk] at h
      exact m.key_eq key item' h

/-- Take out the item of a key. -/
def erase (m : PlainMap) (key : Uint256) : PlainMap where
  get := update m.get key none
  key_eq := by
    intro key' item h
    by_cases hk : key' = key
    · subst hk
      rw [update_self] at h
      cases h
    · rw [update_of_ne hk] at h
      exact m.key_eq key' item h

@[simp] theorem get_insert_self (m : PlainMap) (item : SHAMapItem) : (m.insert item).get item.key = some item :=
  update_self ..

theorem get_insert_of_ne {item : SHAMapItem} (h : key ≠ item.key) (m : PlainMap) :
    (m.insert item).get key = m.get key := update_of_ne h ..

@[simp] theorem get_erase_self (m : PlainMap) (key : Uint256) : (m.erase key).get key = none :=
  update_self ..

theorem get_erase_of_ne (h : key' ≠ key) (m : PlainMap) : (m.erase key).get key' = m.get key' :=
  update_of_ne h ..

end PlainMap

/-- The calls of a run. -/
inductive Op where
  | add (item : SHAMapItem)
  | update (item : SHAMapItem)
  | delete (key : Uint256)
  /-- Hash the tree. -/
  | hash

/-- The item a call brings. -/
def Op.item : Op → Option SHAMapItem
  | .add item => some item
  | .update item => some item
  | .delete _ => none
  | .hash => none

/-- What a call on a plain map returns and leaves. -/
def PlainMap.step (m : PlainMap) : Op → Except MutationError Bool × PlainMap
  | .add item => if m.get item.key = none then (.ok true, m.insert item) else (.ok false, m)
  | .update item =>
    if m.get item.key = none then (.error (.missingExactLeaf item.key), m) else (.ok true, m.insert item)
  | .delete key => if m.get key = none then (.ok false, m) else (.ok true, m.erase key)
  | .hash => (.ok true, m)

/-- What a run on a plain map returns and leaves. -/
def PlainMap.run (m : PlainMap) : List Op → List (Except MutationError Bool) × PlainMap
  | [] => ([], m)
  | op :: ops =>
    let (result, m') := m.step op
    let (results, m'') := m'.run ops
    (result :: results, m'')

section

variable (sha : Sha)

/-- A call on a tree with leaves of one type. -/
def Op.run (type : LeafType) (turns levels : ℕ) : Op → TreeM Bool
  | .add item => addItem sha type item
  | .update item => updateItem sha type item
  | .delete key => deleteItem sha turns key
  | .hash => do
    let _ ← unshareTree sha levels
    return true

/-- A run of calls, with what each returns. -/
def runOps (type : LeafType) (turns levels : ℕ) :
    List Op → Prog Fault Memory Empty (List (Except MutationError Bool))
  | [] => return []
  | op :: ops => do
    let result ← Prog.attempt (op.run sha type turns levels)
    let results ← runOps type turns levels ops
    return result :: results

end

/-- `MutableTree::new`, on some heap. -/
def MutableTree.new {ε : Type} (cowid : ℕ) : HeapM ε MutableTree := do
  Prog.check (cowid != 0) (.assertion "mutable trees require a non-zero cowid")
  return ⟨← allocate (SHAMapTreeNode.newInner cowid), cowid⟩

/-! ### The tree of a map -/

/-- The children of the root of the canonical tree of a map with leaves of one type. -/
structure IsTreeOf (type : LeafType) (m : PlainMap) (child : Branch → MapTree) : Prop where
  children : Tree.Children radix 0 child
  mem_iff : ∀ leaf, leaf ∈ (.inner child : MapTree) ↔ leaf.type = type ∧ m.get leaf.item.key = some leaf.item

namespace IsTreeOf

variable {m : PlainMap}

variable (h : IsTreeOf type m ch)

include h

theorem unique (h' : IsTreeOf type m ch') : ch = ch' :=
  h.children.ext h'.children fun leaf => (h.mem_iff leaf).trans (h'.mem_iff leaf).symm

theorem placed : (inner ch).Placed radix 0 :=
  fun i => ⟨(h.children i).1.placed, (h.children i).2⟩

theorem lookup_eq (key : Uint256) : lookup radix key (.inner ch) 0 = (m.get key).map fun item => ⟨type, item⟩ := by
  cases hg : m.get key with
  | none =>
    cases hl : lookup radix key (.inner ch) 0 with
    | none => rfl
    | some leaf =>
      obtain ⟨hm, hk⟩ := (lookup_eq_some h.placed).mp hl
      have hk : leaf.item.key = key := hk
      obtain ⟨-, hi⟩ := (h.mem_iff leaf).mp hm
      rw [hk, hg] at hi
      cases hi
  | some item =>
    have hk := m.key_eq key item hg
    refine (lookup_eq_some h.placed).mpr ⟨(h.mem_iff _).mpr ⟨rfl, ?_⟩, hk⟩
    rw [hk]
    exact hg

theorem insert (item : SHAMapItem) :
    ∃ ch', put radix ⟨type, item⟩ (.inner ch) 0 = .inner ch' ∧ IsTreeOf type (m.insert item) ch' := by
  obtain ⟨⟨ch', hp, hc⟩, hm⟩ := put_root_spec (a := (⟨type, item⟩ : Leaf)) h.children (by decide)
  refine ⟨ch', hp, hc, fun leaf => ?_⟩
  rw [← hp, hm, h.mem_iff]
  show _ ∨ _ ∧ leaf.item.key ≠ item.key ↔ _
  by_cases hk : leaf.item.key = item.key
  · rw [hk, PlainMap.get_insert_self]
    refine ⟨fun ho => ?_, fun ha => .inl ?_⟩
    · rcases ho with rfl | ⟨-, hn⟩
      · exact ⟨rfl, rfl⟩
      · exact absurd rfl hn
    · obtain ⟨rfl, hi⟩ := ha
      rw [some.inj hi]
  · rw [PlainMap.get_insert_of_ne hk]
    refine ⟨fun ho => ?_, fun ha => .inr ⟨ha, hk⟩⟩
    rcases ho with rfl | ⟨ha, -⟩
    · exact absurd rfl hk
    · exact ha

theorem erase (key : Uint256) : IsTreeOf type (m.erase key) (eraseRoot radix key ch) := by
  obtain ⟨hc, hm⟩ := eraseRoot_spec (k := key) h.children
  refine ⟨hc, fun leaf => ?_⟩
  rw [hm, h.mem_iff]
  show _ ∧ leaf.item.key ≠ key ↔ _
  by_cases hk : leaf.item.key = key
  · rw [hk, PlainMap.get_erase_self]
    simp
  · rw [PlainMap.get_erase_of_ne hk]
    exact ⟨fun ha => ha.1, fun ha => ⟨ha, hk⟩⟩

omit h

theorem empty (type : LeafType) : IsTreeOf type .empty fun _ => .empty where
  children := children_empty 0
  mem_iff := by
    intro leaf
    simp [PlainMap.empty]

end IsTreeOf

open Classical in
/-- The hash of a map: that of its canonical tree. -/
noncomputable def mapHash (sha : List UInt8 → Uint256) (type : LeafType) (m : PlainMap) : SHAMapHash :=
  if h : ∃ child, IsTreeOf type m child then treeHash sha (.inner h.choose) else 0

theorem IsTreeOf.mapHash_eq {m : PlainMap} (h : IsTreeOf type m ch) : mapHash sha type m = treeHash sha (.inner ch) := by
  have he : ∃ ch, IsTreeOf type m ch := ⟨ch, h⟩
  rw [mapHash, dif_pos he, he.choose_spec.unique h]

/-! ### Runs -/

section

variable (sha : Sha) (type : LeafType)

/-- Items that may be in a tree together: long enough, and with different hashes under one key. -/
structure GoodItems (S : Set SHAMapItem) : Prop where
  sized : ∀ item ∈ S, item.Sized
  inj : ∀ item ∈ S, ∀ item' ∈ S, item.key = item'.key →
    computeLeafHash sha type item = computeLeafHash sha type item' → item = item'

/-- **A tree in memory is the canonical tree of a map.** -/
def HoldsMap (s : Memory) (m : PlainMap) : Prop :=
  s.tree.cowid ≠ 0 ∧ ∃ child F, Loaded sha s.heap s.tree.cowid (.inner child) s.tree.root F ∧
    IsTreeOf type m child

/-- What a search for a key should find. -/
def FindsKey (s : Memory) (m : PlainMap) (key : Uint256) : Prop :=
  wp (s.tree.findKey key) (fun o h => h = s.heap ∧
    match m.get key with
    | none => o = none
    | some item => ∃ q, o = some q ∧ (h.node q).peekItem = some item) (fun _ _ => False) (fun _ => False) s.heap

/-- What hashing the tree should give. -/
def HashesTo (levels : ℕ) (s : Memory) (hash : SHAMapHash) : Prop :=
  wp (unshareTree (ε := Empty) sha levels) (fun _ s' => (s'.heap.node s'.tree.root).hash = hash)
    (fun _ _ => False) (fun _ => False) s

end

variable {s : Memory} {m : PlainMap} {S : Set SHAMapItem} {turns levels : ℕ}

theorem IsTreeOf.mem_items (h : IsTreeOf type m ch)
    (hm : ∀ key item, m.get key = some item → item ∈ S) {leaf : Leaf} (hl : leaf ∈ (.inner ch : MapTree)) :
    leaf.type = type ∧ leaf.item ∈ S := by
  obtain ⟨ht, hg⟩ := (h.mem_iff leaf).mp hl
  exact ⟨ht, hm _ _ hg⟩

variable (hs : HoldsMap sha type s m)

include hs

/-- **Searching agrees with the map.** -/
theorem HoldsMap.findsKey (key : Uint256) : FindsKey s m key := by
  obtain ⟨-, ch, F, hl, ht⟩ := hs
  have hB : Backing (fun _ => none) false noFetch s.heap := ⟨fun _ he => absurd rfl he, nofun⟩
  refine wp_mono (wp_and (wp_findKey_shows key hB (ht.children.bounded (by decide)) (hl.shows _))
    (findKey_unbacked s.tree.root key noFetch s.heap)) ?_ (fun _ _ h => h.1) fun _ h => h.1
  rintro o _ ⟨⟨-, hi, hn⟩, rfl⟩
  rw [ht.lookup_eq] at hi hn
  refine ⟨rfl, ?_⟩
  cases hg : m.get key with
  | none => exact hn.mpr (by rw [hg]; rfl)
  | some item =>
    rw [hg] at hi
    obtain ⟨q, rfl, hq⟩ := bind_eq_some_iff.mp hi
    exact ⟨q, rfl, SHAMapTreeNode.peekItem_of_asLeaf hq⟩

/-- The tree of a map, with nothing to be fetched. -/
theorem HoldsMap.holds (hi : ∀ key item, m.get key = some item → item.Sized) :
    ∃ ch, IsTreeOf type m ch ∧ HoldsTree sha (fun _ => none) false noFetch s.tree.cowid (.inner ch) s := by
  obtain ⟨-, ch, F, hl, ht⟩ := hs
  refine ⟨ch, ht, rfl, .nothing .., F, hl.held (fun leaf hf => ?_) _⟩
  exact hi _ _ ((ht.mem_iff leaf).mp hf).2

omit hs in
theorem HoldsTree.holdsMap {c : ℕ} (hs : HoldsTree sha (fun _ => none) false noFetch c (.inner ch) s) (hc : c ≠ 0)
    (ht : IsTreeOf type m ch) : HoldsMap sha type s m := by
  obtain ⟨rfl, -, F, hl⟩ := hs
  exact ⟨hc, ch, F, hl.loaded, ht⟩

/-- **The hash is the map's.** -/
theorem HoldsMap.hashesTo (hS : GoodItems sha type S)
    (hm : ∀ key item, m.get key = some item → item ∈ S) (he : leafDepth ≤ levels) :
    HashesTo sha levels s (mapHash sha type m) := by
  obtain ⟨ch, ht, hh⟩ := hs.holds fun key item hg => hS.sized _ (hm key item hg)
  obtain ⟨F, hl⟩ := hh.held
  refine wp_unshareTree hs.1 rfl he hl ht.children ?_
  intro n s' F' _ _ ha
  rw [ha, ht.mapHash_eq]

omit hs in
/-- Adding an item that is long enough to a tree of leaves of its type. -/
theorem addOutcome_eq {t : MapTree} {item : SHAMapItem}
    (hl : ∀ leaf, follow radix item.key t 0 = some leaf → leaf.type = type ∧ leaf.item.Sized)
    (hz : item.Sized) : addOutcome type item t =
      .ok (if lookup radix item.key t 0 = none then (.ok true, put radix ⟨type, item⟩ t 0) else (.ok false, t)) := by
  rw [addOutcome]
  cases hf : follow radix item.key t 0 with
  | none => simp only [hz, if_true, lookup_of_follow_none hf]
  | some leaf =>
    obtain ⟨rfl, hlf⟩ := hl leaf hf
    rw [lookup_of_follow hf]
    by_cases hk : leaf.item.key = item.key
    · simp [hk]
    · simp [hk, hz, hlf]

/-- **One call agrees with the plain map.** -/
theorem wp_run (hS : GoodItems sha type S)
    (hm : ∀ key item, m.get key = some item → item ∈ S) (hu : leafDepth < turns) (he : leafDepth ≤ levels)
    (op : Op) (hop : ∀ item, op.item = some item → item ∈ S) : wp (op.run sha type turns levels)
      (fun ok s' => (m.step op).1 = .ok ok ∧ HoldsMap sha type s' (m.step op).2)
      (fun e s' => (m.step op).1 = .error e ∧ HoldsMap sha type s' (m.step op).2) ⊥ s := by
  have hc := hs.1
  obtain ⟨ch, ht, hh⟩ := hs.holds fun key item hg => hS.sized _ (hm key item hg)
  have hv : ∀ leaf ∈ (.inner ch : MapTree), leaf.type = type ∧ leaf.item.Sized := fun leaf hlf =>
    ⟨(ht.mem_items hm hlf).1, hS.sized _ (ht.mem_items hm hlf).2⟩
  -- a call that comes to what it should leaves the tree of the right map
  have hr : ∀ (step : Except MutationError Bool × PlainMap) {ch' : Branch → MapTree} {p : TreeM Bool},
      Comes sha (fun _ => none) false noFetch s.tree.cowid (.ok (step.1, .inner ch')) p s →
      IsTreeOf type step.2 ch' →
      wp p (fun ok s' => step.1 = .ok ok ∧ HoldsMap sha type s' step.2)
        (fun e s' => step.1 = .error e ∧ HoldsMap sha type s' step.2) ⊥ s := by
    intro step ch' p hcm ht'
    refine wp_mono hcm ?_ ?_ (fun _ h => by cases h)
    all_goals
      rintro an s' ⟨t, hq, hs'⟩
      obtain ⟨hsp, rfl⟩ := Prod.mk.inj (Except.ok.inj hq)
      exact ⟨hsp, hs'.holdsMap hc ht'⟩
  cases op with
  | add item =>
    show wp (addItemWalk sha false noFetch type item) _ _ _ s
    have hcm : Comes sha (fun _ => none) false noFetch s.tree.cowid (addOutcome type item (.inner ch))
        (addItemWalk sha false noFetch type item) s := addItemWalk_comes hc hh ht.children
    rw [addOutcome_eq (fun leaf hf => hv leaf (mem_of_follow hf)) (hS.sized item (hop item rfl)), ht.lookup_eq] at hcm
    cases hg : m.get item.key with
    | some old =>
      exact hr (m.step (.add item)) (by simpa [PlainMap.step, hg] using hcm) (by simpa [PlainMap.step, hg])
    | none =>
      obtain ⟨ch', hp, ht'⟩ := ht.insert item
      exact hr (m.step (.add item)) (by simpa [PlainMap.step, hg, hp] using hcm) (by simpa [PlainMap.step, hg])
  | update item =>
    have hco : ∀ leaf ∈ (.inner ch : MapTree), leaf.type = type → leaf.item.key = item.key →
        leaf.hash sha = computeLeafHash sha type item → leaf.item = item := by
      intro leaf hlf hy hk ha
      rw [Leaf.hash, hy] at ha
      exact hS.inj _ (ht.mem_items hm hlf).2 item (hop item rfl) hk ha
    show wp (updateItemWalk sha false noFetch type item) _ _ _ s
    have hcm := updateItemWalk_comes hc hh ht.children (fun leaf hlf => (hv leaf hlf).2) hco
    rw [updateOutcome, ht.lookup_eq] at hcm
    cases hg : m.get item.key with
    | none =>
      exact hr (m.step (.update item)) (by simpa [PlainMap.step, hg] using hcm) (by simpa [PlainMap.step, hg])
    | some old =>
      obtain ⟨ch', hp, ht'⟩ := ht.insert item
      exact hr (m.step (.update item)) (by simpa [PlainMap.step, hg, hp] using hcm) (by simpa [PlainMap.step, hg])
  | delete key =>
    show wp (deleteItemWalk false noFetch (collapseLoaded sha turns) key) _ _ _ s
    have hcm : Comes sha (fun _ => none) false noFetch s.tree.cowid (deleteOutcome key ch)
        (deleteItemWalk false noFetch (collapseLoaded sha turns) key) s :=
      deleteItemWalk_comes hc (collapses_collapseLoaded hc hu) hh ht.children fun leaf hlf => (hv leaf hlf).2
    rw [deleteOutcome, ht.lookup_eq] at hcm
    cases hg : m.get key with
    | none =>
      exact hr (m.step (.delete key)) (by simpa [PlainMap.step, hg] using hcm) (by simpa [PlainMap.step, hg])
    | some old =>
      exact hr (m.step (.delete key)) (by simpa [PlainMap.step, hg] using hcm)
        (by simpa [PlainMap.step, hg] using ht.erase key)
  | hash =>
    obtain ⟨F, hl⟩ := hh.held
    simp only [Op.run, wp_bind]
    refine wp_unshareTree hc rfl he hl ht.children ?_
    intro n s' F' ho hl' _
    exact ⟨rfl, by rw [ho]; exact hc, ch, F', by rw [ho]; exact hl'.loaded, ht⟩

omit hs in
/-- The items of a map after a call. -/
theorem PlainMap.step_items (hm : ∀ key item, m.get key = some item → item ∈ S) {op : Op}
    (ho : ∀ item, op.item = some item → item ∈ S) (key : Uint256) (item : SHAMapItem)
    (h : (m.step op).2.get key = some item) : item ∈ S := by
  have hi : ∀ new ∈ S, (m.insert new).get key = some item → item ∈ S := by
    intro new hn hg
    by_cases hk : key = new.key
    · subst hk
      rw [get_insert_self] at hg
      rwa [← some.inj hg]
    · rw [get_insert_of_ne hk] at hg
      exact hm key item hg
  cases op with
  | add new =>
    simp only [PlainMap.step] at h
    split at h
    · exact hi new (ho new rfl) h
    · exact hm key item h
  | update new =>
    simp only [PlainMap.step] at h
    split at h
    · exact hm key item h
    · exact hi new (ho new rfl) h
  | delete key' =>
    simp only [PlainMap.step] at h
    split at h
    · exact hm key item h
    · by_cases hk : key = key'
      · subst hk
        rw [get_erase_self] at h
        cases h
      · rw [get_erase_of_ne hk] at h
        exact hm key item h
  | hash => exact hm key item h

/-- Every call of a run agrees with the plain map. -/
theorem wp_runOps (hS : GoodItems sha type S)
    (hm : ∀ key item, m.get key = some item → item ∈ S) (ht : leafDepth < turns) (hl : leafDepth ≤ levels)
    (ops : List Op) (ho : ∀ op ∈ ops, ∀ item, op.item = some item → item ∈ S) : wp (runOps sha type turns levels ops)
      (fun results s' => results = (m.run ops).1 ∧ HoldsMap sha type s' (m.run ops).2 ∧
        ∀ key item, (m.run ops).2.get key = some item → item ∈ S) ⊥ ⊥ s := by
  induction ops generalizing s m with
  | nil => exact ⟨rfl, hs, hm⟩
  | cons op ops ih =>
    have hop := ho op List.mem_cons_self
    have he := fun s' (hs' : HoldsMap sha type s' (m.step op).2) =>
      ih hs' (PlainMap.step_items hm hop) fun op' hp => ho op' (List.mem_cons_of_mem _ hp)
    simp only [runOps, wp_bind, wp_attempt, wp_pure, PlainMap.run]
    refine wp_mono (wp_run hs hS hm ht hl op hop) ?_ ?_ fun _ h => h
    all_goals
      intro result s' hpo
      refine wp_imp (he s' hpo.2) ?_
      intro results s'' hr
      exact ⟨by rw [hpo.1, hr.1], hr.2⟩

omit hs

/-- **A run of calls is a run on a plain map**: the results are the plain map's, the tree is the canonical tree
of what the plain map holds in the end, a search finds just that, and once the tree is hashed its root has
the hash of the plain map. -/
theorem runOps_refines_map (hs : HoldsMap sha type s m) (hS : GoodItems sha type S)
    (hm : ∀ key item, m.get key = some item → item ∈ S) (hturns : leafDepth < turns) (hlevels : leafDepth ≤ levels)
    (ops : List Op) (hops : ∀ op ∈ ops, ∀ item, op.item = some item → item ∈ S) : wp (runOps sha type turns levels ops)
      (fun results s' => results = (m.run ops).1 ∧ HoldsMap sha type s' (m.run ops).2 ∧
        (∀ key, FindsKey s' (m.run ops).2 key) ∧
        HashesTo sha levels s' (mapHash sha type (m.run ops).2)) (fun _ _ => False) (fun _ => False) s := by
  refine wp_imp (wp_runOps hs hS hm hturns hlevels ops hops) ?_
  intro results s' hp
  obtain ⟨hr, hs', hm'⟩ := hp
  exact ⟨hr, hs', hs'.findsKey, hs'.hashesTo hS hm' hlevels⟩

/-- A new tree holds the empty map. -/
theorem holdsMap_new {ε : Type} {E : ε → Heap → Prop} {P : Fault → Prop} {h : Heap} {cw : ℕ} (hc : cw ≠ 0) :
    wp (MutableTree.new cw) (fun tree h' => HoldsMap sha type ⟨h', tree⟩ .empty) E P h := by
  have hk : (cw != 0) := by simpa using hc
  simp only [MutableTree.new, wp_bind, wp_check, hk, allocate, wp_read, wp_update, wp_pure]
  refine ⟨fun _ => ⟨hc, fun _ => .empty, {h.next}, ⟨⟨?_, Nat.lt_succ_self _, fun _ => rfl, ?_⟩, 0, cw, 0, _,
    node_alloc_next .., fun h0 => absurd h0 hc, fun _ => ∅, fun _ => ⟨Set.empty_subset _, Set.notMem_empty _⟩,
    fun _ _ _ => Set.disjoint_empty _, fun _ => .inl ⟨rfl, rfl⟩⟩, IsTreeOf.empty type⟩, fun h => by cases h⟩
  · rw [node_alloc_next]
    exact Nat.le_refl _
  · intro q hq
    rw [Set.mem_singleton_iff.mp hq]
    exact Nat.lt_succ_self _

/-- A new tree in an empty heap. -/
def newMemory : Memory := ⟨(⟨0, fun _ => SHAMapTreeNode.newInner 0, 0⟩ : Heap).alloc (SHAMapTreeNode.newInner 1), ⟨0, 1⟩⟩

theorem holdsMap_newMemory (sha : Sha) (type : LeafType) : HoldsMap sha type newMemory .empty :=
  holdsMap_new (ε := Empty) (E := ⊥) (P := ⊥) (h := ⟨0, fun _ => SHAMapTreeNode.newInner 0, 0⟩) Nat.one_ne_zero

/-- The run that adds the item of the small map, hashes the tree and deletes the item. -/
theorem runOps_refines_map_sample :
    let ops : List Op := [.add sampleMap.item, .hash, .delete sampleMap.item.key]
    wp (runOps sampleMap.sha512Half .accountState 65 64 ops) (fun results s' => results = (PlainMap.empty.run ops).1 ∧
        HoldsMap sampleMap.sha512Half .accountState s' (PlainMap.empty.run ops).2 ∧
        (∀ key, FindsKey s' (PlainMap.empty.run ops).2 key) ∧
        HashesTo sampleMap.sha512Half 64 s' (mapHash sampleMap.sha512Half .accountState (PlainMap.empty.run ops).2))
      (fun _ _ => False) (fun _ => False) newMemory := by
  refine runOps_refines_map (S := {sampleMap.item}) (holdsMap_newMemory _ _) ⟨?_, ?_⟩ nofun (by decide) (by decide) _ ?_
  · rintro item rfl
    decide
  · rintro item rfl item' rfl _ _
    rfl
  · intro op ho item hi
    simp only [List.mem_cons, List.not_mem_nil, or_false] at ho
    rcases ho with rfl | rfl | rfl
    · exact (some.inj hi).symm
    · cases hi
    · cases hi

/-- An item of fewer than 12 bytes cannot be added: the call panics. -/
theorem runOps_short_item :
    ¬ ∀ (sha : List UInt8 → Uint256) (type : LeafType) (S : Set SHAMapItem) (s : Memory) (m : PlainMap)
      (turns levels : ℕ) (ops : List Op), HoldsMap sha type s m → (∀ item ∈ S, ∀ item' ∈ S, item.key = item'.key →
        computeLeafHash sha type item = computeLeafHash sha type item' → item = item') →
      (∀ key item, m.get key = some item → item ∈ S) → leafDepth < turns → leafDepth ≤ levels →
      (∀ op ∈ ops, ∀ item, op.item = some item → item ∈ S) →
      wp (runOps sha type turns levels ops) (fun results _ => results = (m.run ops).1) (fun _ _ => False)
        (fun _ => False) s := by
  intro hc
  have hw := hc sampleMap.sha512Half .accountState {⟨0, [], by decide⟩} newMemory .empty 65 64 [.add ⟨0, [], by decide⟩]
    (holdsMap_newMemory _ _) (by rintro item rfl item' rfl _ _; rfl) nofun (by decide) (by decide)
    (by
      intro op ho item hi
      rw [List.mem_singleton.mp ho] at hi
      exact (some.inj hi).symm)
  exact hw

end Xrpld.SHAMap
