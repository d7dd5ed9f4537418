import Xrpld.SHAMap.Codec
import Xrpld.SHAMap.Reading

/-!
# Proof paths

`xrpl/shamap/proof_path.rs`. A proof path for a key is the list of the encoded nodes from
the leaf of the key up to the root. Whoever has the root hash checks it from the end: each
blob must have the hash its parent stores for the key's branch, and the first blob must be
a leaf.

## What is proved

* `verifyProofPath_returns_iff`: checking a path panics on two kinds of paths only, a chain of
  65 inner nodes and a chain that ends in a leaf over the limit of an item.
* `verifyProofPath_sound`: a path that is accepted ends at the leaf of the map where the key
  leads. The check does not look at the key of that leaf.
* `getProofPath_complete`: the path made for a key of a complete map is accepted, unless its leaf
  cannot be read back.
-/

namespace Xrpld.SHAMap

open List Option Except

variable {key : Uint256} {len depth : ℕ} {type type' : LeafType} {item item' : SHAMapItem} {t : MapTree}
  {sha : Sha} {r : Ref}

abbrev Blob := List UInt8

section

variable (sha : Sha)

/-- The loop of `verify_proof_path` over the blobs from the root down. -/
def verifyLoop (key : Uint256) (len : ℕ) : List Blob → ℕ → SHAMapHash → Run Bool
  | [], _, _ => .ok false
  | blob :: rest, depth, hash => do
    match ← makeFromWire sha blob with
    | .ok (some node) =>
      let node := node.updateHash sha
      if node.hash ≠ hash then return false
      else if node.isInner then
        match SHAMapNodeId.createId depth key with
        | .error _ => return false
        | .ok nodeId =>
          let branch ← selectBranch nodeId key
          verifyLoop key len rest (depth + 1) (node.getChildHash branch)
      else return depth + 1 == len
    | _ => return false

def verifyProofPath (rootHash key : Uint256) (path : List Blob) : Run Bool :=
  if path.length = 0 ∨ 65 < path.length then .ok false
  else verifyLoop sha key path.length path.reverse 0 rootHash

end

/-- The blob of an entry, if it has one. -/
def blobOf (h : Heap) (entry : NodePathEntry) : Option Blob := (h.node entry.node).serializeForWire.toOption

/-- `finalize_proof_path`: the blobs of the path from its end, for the leaf of the key. -/
def finalizeProofPath {ε : Type} (key : Uint256) (leaf : Option Ref) (pathEntries : List NodePathEntry) :
    HeapM ε (Option (List Blob)) := do
  match leaf with
  | none => return none
  | some leaf =>
    let h ← Prog.read
    match (h.node leaf).peekItem with
    | none => return none
    | some item =>
      if item.key ≠ key then return none
      else return pathEntries.reverse.mapM (blobOf h)

def getProofPathBacked (root : Ref) (key : Uint256) (backed : Bool) (fetch : Fetch) :
    HeapM TraversalError (Option (List Blob)) := do
  let (leaf, pathEntries) ← walkTowardsKeyWithPath root key backed fetch
  finalizeProofPath key leaf pathEntries

/-- `get_proof_path`: of a loaded tree, an error being no path. -/
def getProofPath {ε : Type} (root : Ref) (key : Uint256) : HeapM ε (Option (List Blob)) := do
  match ← Prog.attempt (getProofPathBacked root key false noFetch) with
  | .error _ => return none
  | .ok path => return path

/-! ### When checking a path returns -/

section

variable (sha : Sha)

/-- Blobs from the root down that decode to inner nodes, each with the hash its parent stores for the
key's branch. -/
def Linked (key : Uint256) : ℕ → SHAMapHash → List Blob → Prop
  | _, _, [] => True
  | depth, hash, blob :: rest => ∃ slots, makeFromWire sha blob = .ok (.ok (some (innerNode sha slots none))) ∧
      SHAMapTreeNode.computeInnerHash sha slots = hash ∧
      Linked key (depth + 1) (slotHash slots (key.nibble depth)) rest

variable {sha}

/-- The hash of a node that was read is its own already. -/
theorem Fresh.updateHash {n : SHAMapTreeNode} (h : Fresh sha n) : n.updateHash sha = n := by
  cases h <;> rfl

variable {rest : List Blob} {hash : SHAMapHash} {blob : Blob} {slots : Slots}

/-- One turn of the loop on an inner node above the last level. -/
theorem verifyLoop_inner (hb : makeFromWire sha blob = .ok (.ok (some (innerNode sha slots none))))
    (hh : SHAMapTreeNode.computeInnerHash sha slots = hash) (hd : depth < leafDepth) :
    verifyLoop sha key len (blob :: rest) depth hash =
      verifyLoop sha key len rest (depth + 1) (slotHash slots (key.nibble depth)) := by
  obtain ⟨nid, hi, he⟩ := createId_ok (Nat.le_of_lt hd) key
  simp only [verifyLoop, hb, bind, Except.bind, (Fresh.inner slots).updateHash]
  have hn : (innerNode sha slots none).hash = hash := hh
  simp only [hn, ne_eq, not_true, if_false]
  have hin : (innerNode sha slots none).isInner := rfl
  simp only [hin, if_true, hi, selectBranch_eq (n := nid) (by rw [he]; exact hd), he]
  rfl

/-- At the last level there is no branch to select. -/
theorem verifyLoop_leafDepth (hb : makeFromWire sha blob = .ok (.ok (some (innerNode sha slots none))))
    (hh : SHAMapTreeNode.computeInnerHash sha slots = hash) :
    verifyLoop sha key len (blob :: rest) leafDepth hash = .error .indexOutOfBounds := by
  obtain ⟨nid, hi, hd⟩ := createId_ok (Nat.le_refl leafDepth) key
  have hn : (innerNode sha slots none).hash = hash := hh
  have hin : (innerNode sha slots none).isInner := rfl
  simp only [verifyLoop, hb, bind, Except.bind, (Fresh.inner slots).updateHash, hn, ne_eq, not_true, if_false,
    hin, if_true, hi, selectBranch_leafDepth hd]

/-- The loop ends at a leaf. -/
theorem verifyLoop_leaf (hb : makeFromWire sha blob = .ok (.ok (some (freshLeaf sha type item)))) (hash : SHAMapHash) : verifyLoop sha key len (blob :: rest) depth hash =
      .ok (decide (computeLeafHash sha type item = hash) && depth + 1 == len) := by
  have hl : (freshLeaf sha type item).isInner = false := rfl
  by_cases hh : computeLeafHash sha type item = hash
  · have hn : (freshLeaf sha type item).hash = hash := hh
    simp [verifyLoop, hb, bind, Except.bind, (Fresh.leaf type item).updateHash, hn, hl, hh]
    rfl
  · have hn : (freshLeaf sha type item).hash ≠ hash := hh
    simp [verifyLoop, hb, bind, Except.bind, (Fresh.leaf type item).updateHash, hn, hh]
    rfl

/-- An inner node with another hash ends the loop. -/
theorem verifyLoop_mismatch (hb : makeFromWire sha blob = .ok (.ok (some (innerNode sha slots none))))
    (hh : SHAMapTreeNode.computeInnerHash sha slots ≠ hash) :
    verifyLoop sha key len (blob :: rest) depth hash = .ok false := by
  have hn : (innerNode sha slots none).hash ≠ hash := hh
  simp [verifyLoop, hb, bind, Except.bind, (Fresh.inner slots).updateHash, hn]
  rfl

/-- So does a blob that is no node. -/
theorem verifyLoop_refused
    (hb : makeFromWire sha blob = .ok (.ok none) ∨ ∃ e, makeFromWire sha blob = .ok (.error e)) :
    verifyLoop sha key len (blob :: rest) depth hash = .ok false := by
  rcases hb with hb | ⟨e, hb⟩ <;> simp [verifyLoop, hb, bind, bind] <;> rfl

variable (sha) in
/-- The blobs that make the loop panic: matching inner nodes followed by an oversized leaf, or matching inner
nodes down to the last level. -/
def Hostile (key : Uint256) (depth : ℕ) (hash : SHAMapHash) (blobs : List Blob) : Prop :=
  (∃ pre blob post, blobs = pre ++ blob :: post ∧ Linked sha key depth hash pre ∧ Oversized blob) ∨
    (blobs ≠ [] ∧ depth + blobs.length = leafDepth + 1 ∧ Linked sha key depth hash blobs)

/-- A blob that is no matching inner node is hostile only by its size. -/
theorem hostile_cons_iff (h : ¬ ∃ slots, makeFromWire sha blob = .ok (.ok (some (innerNode sha slots none))) ∧
      SHAMapTreeNode.computeInnerHash sha slots = hash) :
    Hostile sha key depth hash (blob :: rest) ↔ Oversized blob := by
  constructor
  · rintro (⟨pre, b, post, hp, hl, hb⟩ | ⟨-, -, slots, hs, hh, -⟩)
    · cases pre with
      | nil => cases hp; exact hb
      | cons b' pre =>
        cases hp
        obtain ⟨slots, hs, hh, -⟩ := hl
        exact absurd ⟨slots, hs, hh⟩ h
    · exact absurd ⟨slots, hs, hh⟩ h
  · exact fun hb => .inl ⟨[], blob, rest, rfl, trivial, hb⟩

/-- Behind a matching inner node above the last level, the rest decides. -/
theorem hostile_inner_iff (hbl : makeFromWire sha blob = .ok (.ok (some (innerNode sha slots none))))
    (hh : SHAMapTreeNode.computeInnerHash sha slots = hash) (hd : depth < leafDepth) :
    Hostile sha key depth hash (blob :: rest) ↔
      Hostile sha key (depth + 1) (slotHash slots (key.nibble depth)) rest := by
  have hsl : ∀ sl', makeFromWire sha blob = .ok (.ok (some (innerNode sha sl' none))) → sl' = slots := by
    intro sl' h'
    rw [hbl] at h'
    exact (congrArg SHAMapTreeNode.slots (some.inj (ok.inj (ok.inj h')))).symm
  constructor
  · rintro (⟨pre, b, post, hp, hk, hb⟩ | ⟨-, hl, sl', hs, -, hk⟩)
    · cases pre with
      | nil =>
        cases hp
        obtain ⟨f, hf⟩ := (makeFromWire_panics_iff sha blob).mpr hb
        rw [hbl] at hf
        cases hf
      | cons b' pre =>
        cases hp
        obtain ⟨sl', hs, -, hk⟩ := hk
        exact .inl ⟨pre, b, post, rfl, hsl sl' hs ▸ hk, hb⟩
    · rw [length_cons] at hl
      refine .inr ⟨?_, by omega, hsl sl' hs ▸ hk⟩
      rintro rfl
      rw [length_nil] at hl
      omega
  · rintro (⟨pre, b, post, rfl, hk, hb⟩ | ⟨-, hl, hk⟩)
    · exact .inl ⟨blob :: pre, b, post, rfl, ⟨slots, hbl, hh, hk⟩, hb⟩
    · exact .inr ⟨cons_ne_nil _ _, by rw [length_cons]; omega, slots, hbl, hh, hk⟩

/-- **The loop returns exactly when the blobs are not hostile.** -/
theorem verifyLoop_returns_iff (key : Uint256) (len : ℕ) (bl : List Blob) (depth : ℕ) (hash : SHAMapHash)
    (hl : depth + bl.length ≤ leafDepth + 1) :
    (∃ r, verifyLoop sha key len bl depth hash = .ok r) ↔ ¬ Hostile sha key depth hash bl := by
  induction bl generalizing depth hash with
  | nil => exact ⟨fun _ h => by simp [Hostile] at h, fun _ => ⟨false, rfl⟩⟩
  | cons blob rest ih =>
    rw [List.length_cons] at hl
    by_cases hi : ∃ slots, makeFromWire sha blob = .ok (.ok (some (innerNode sha slots none))) ∧
        SHAMapTreeNode.computeInnerHash sha slots = hash
    · obtain ⟨slots, hbl, hha⟩ := hi
      by_cases hd : depth < leafDepth
      · rw [verifyLoop_inner hbl hha hd, hostile_inner_iff hbl hha hd]
        exact ih _ _ (by omega)
      · -- the last level: the loop selects a branch that is not there
        obtain rfl : depth = leafDepth := by omega
        obtain rfl : rest = [] := List.length_eq_zero_iff.mp (by omega)
        rw [verifyLoop_leafDepth hbl hha]
        have ha : Hostile sha key leafDepth hash [blob] :=
          .inr ⟨List.cons_ne_nil _ _, rfl, slots, hbl, hha, trivial⟩
        refine ⟨fun ⟨r, hr⟩ => ?_, fun h => absurd ha h⟩
        cases hr
    · rw [hostile_cons_iff hi]
      rcases makeFromWire_cases sha blob with ⟨n, hn, hf, hb⟩ | ⟨hn, hb⟩ | ⟨f, hn, hb⟩
      · refine ⟨fun _ => hb, fun _ => ?_⟩
        cases hf with
        | inner slots => exact ⟨_, verifyLoop_mismatch hn fun hh => hi ⟨slots, hn, hh⟩⟩
        | leaf type item => exact ⟨_, verifyLoop_leaf hn hash⟩
      · exact ⟨fun _ => hb, fun _ => ⟨_, verifyLoop_refused hn⟩⟩
      · refine ⟨fun ⟨r, hr⟩ => ?_, fun h => absurd hb h⟩
        simp [verifyLoop, hn, bind, Except.bind] at hr

variable (sha) in
/-- **Checking a path returns unless it has at most 65 blobs and they are hostile.** -/
theorem verifyProofPath_returns_iff (rootHash key : Uint256) (path : List Blob) :
    (∃ r, verifyProofPath sha rootHash key path = .ok r) ↔
      ¬ (path.length ≤ 65 ∧ Hostile sha key 0 rootHash path.reverse) := by
  rw [verifyProofPath]
  by_cases h65 : 65 < path.length
  · rw [if_pos (.inr h65)]
    exact ⟨fun _ h => absurd h.1 (Nat.not_le_of_lt h65), fun _ => ⟨false, rfl⟩⟩
  by_cases h0 : path.length = 0
  · rw [if_pos (.inl h0), length_eq_zero_iff.mp h0]
    exact ⟨fun _ h => by simp [Hostile] at h, fun _ => ⟨false, rfl⟩⟩
  · rw [if_neg (not_or.mpr ⟨h0, h65⟩), verifyLoop_returns_iff key path.length path.reverse 0 rootHash
      (by rw [List.length_reverse, Nat.zero_add]; exact Nat.le_of_not_lt h65)]
    exact not_congr ⟨fun h => ⟨Nat.le_of_not_lt h65, h⟩, And.right⟩

/-- 65 inner nodes without branches, under the zero hash, make the check select a branch at depth 64. -/
theorem verifyProofPath_panics : ¬ ∀ rootHash key : Uint256, ∀ path : List Blob, path.length ≤ 65 →
      ∃ r, verifyProofPath (fun _ => 0) rootHash key path = .ok r := by
  intro h
  obtain ⟨r, hr⟩ := h 0 0 (replicate 65 [wireTypeCompressedInner]) (by simp)
  have hp : verifyProofPath (fun _ => 0) 0 0 (replicate 65 [wireTypeCompressedInner]) =
      .error .indexOutOfBounds := by decide +kernel
  rw [hp] at hr
  cases hr

end

/-! ### What an accepted path says -/

/-- The bytes a node's hash is of. -/
def SHAMapTreeNode.bytes (n : SHAMapTreeNode) : List UInt8 :=
  match n.body with
  | .inner _ slots => innerBytes (slotHash slots)
  | .leaf type item => serializeLeafWithPrefix type item

section

variable (sha : Sha)

/-- The bytes hashed for the nodes of a tree are in `S`. -/
def HashedIn (S : Set (List UInt8)) : MapTree → Prop
  | .empty => True
  | .leaf leaf => serializeLeafWithPrefix leaf.type leaf.item ∈ S
  | .inner child =>
    ((¬ ∀ b, child b = .empty) → (innerBytes fun b => treeHash sha (child b)) ∈ S) ∧
      ∀ b, HashedIn S (child b)

/-- The bytes hashed for the nodes a path decodes to are in `S`. -/
def PathHashedIn (S : Set (List UInt8)) (path : List Blob) : Prop :=
  ∀ blob ∈ path, ∀ n, makeFromWire sha blob = .ok (.ok (some n)) → n.bytes ∈ S

/-- On these bytes the hash has no collisions and never gives the hash of an empty branch. -/
structure CollisionFree (S : Set (List UInt8)) : Prop where
  inj : Set.InjOn sha S
  ne_zero : ∀ x ∈ S, sha x ≠ 0

end

/-- The prefix of a hash tells a leaf from an inner node. -/
theorem serializeLeafWithPrefix_ne_innerBytes (type : LeafType) (item : SHAMapItem) (f : Branch → SHAMapHash) :
    serializeLeafWithPrefix type item ≠ innerBytes f := by
  cases type <;> simp [serializeLeafWithPrefix, innerBytes, LeafType.hashPrefix, hashPrefixInnerNode]

/-- It also tells the leaf types apart. -/
theorem type_of_serializeLeafWithPrefix (h : serializeLeafWithPrefix type item = serializeLeafWithPrefix type' item') : type = type' := by
  cases type <;> cases type' <;> first | rfl | simp [serializeLeafWithPrefix, LeafType.hashPrefix] at h

section

variable {S : Set (List UInt8)}

/-- A leaf that hashes to the hash of a tree is that tree. -/
theorem eq_leaf_of_hash (hS : CollisionFree sha S) (ht : HashedIn sha S t)
    (hm : serializeLeafWithPrefix type item ∈ S) (hh : computeLeafHash sha type item = treeHash sha t) : ∃ leaf, t = .leaf leaf ∧ leaf.type = type ∧
      serializeLeafWithPrefix type item = serializeLeafWithPrefix leaf.type leaf.item := by
  cases t with
  | empty => exact absurd hh (hS.ne_zero _ hm)
  | leaf leaf =>
    have hb := hS.inj hm ht hh
    exact ⟨leaf, rfl, (type_of_serializeLeafWithPrefix hb).symm, hb⟩
  | inner ch =>
    by_cases he : ∀ b, ch b = .empty
    · rw [treeHash_inner_empty sha he] at hh
      exact absurd hh (hS.ne_zero _ hm)
    · rw [treeHash_inner sha he] at hh
      exact absurd (hS.inj hm (ht.1 he) hh) (serializeLeafWithPrefix_ne_innerBytes _ _ _)

/-- The branches of an inner node that hashes to the hash of a tree are the branches of the tree. -/
theorem branch_of_hash (hS : CollisionFree sha S) (ht : HashedIn sha S t)
    {slots : Slots} (hm : innerBytes (slotHash slots) ∈ S)
    (hh : SHAMapTreeNode.computeInnerHash sha slots = treeHash sha t) (key : Uint256) (depth : ℕ) :
    ∃ u, HashedIn sha S u ∧ slotHash slots (key.nibble depth) = treeHash sha u ∧
      ∀ leaf, Tree.follow radix key u (depth + 1) = some leaf → Tree.follow radix key t depth = some leaf := by
  by_cases hne : (setBranches slots).isEmpty
  · -- no branch is set: the next hash is zero, the hash of an empty tree
    have hn : slots (key.nibble depth) = none := by
      by_contra ho
      have := mem_setBranches.mpr ho
      rw [isEmpty_iff.mp hne] at this
      cases this
    exact ⟨.empty, trivial, slotHash_none hn, fun leaf h => by cases h⟩
  rw [SHAMapTreeNode.computeInnerHash, if_neg hne] at hh
  cases t with
  | empty => exact absurd hh (hS.ne_zero _ hm)
  | leaf leaf => exact absurd (hS.inj hm ht hh).symm (serializeLeafWithPrefix_ne_innerBytes _ _ _)
  | inner ch =>
    by_cases he : ∀ b, ch b = .empty
    · rw [treeHash_inner_empty sha he] at hh
      exact absurd hh (hS.ne_zero _ hm)
    · rw [treeHash_inner sha he] at hh
      have hs := innerBytes_injective (hS.inj hm (ht.1 he) hh)
      exact ⟨ch (key.nibble depth), ht.2 _, congrFun hs _, fun leaf h => h⟩

/-- The loop accepts only blobs that lead to a leaf of the tree. -/
theorem verifyLoop_sound (hS : CollisionFree sha S) (key : Uint256) (he : len ≤ leafDepth + 1) (bl : List Blob)
    (hbl : PathHashedIn sha S bl) (ht : HashedIn sha S t) (hd : depth + bl.length = len)
    (hv : verifyLoop sha key len bl depth (treeHash sha t) = .ok true) :
    ∃ pre blob leaf item, bl = pre ++ [blob] ∧ Tree.follow radix key t depth = some leaf ∧
      makeFromWire sha blob = .ok (.ok (some (freshLeaf sha leaf.type item))) ∧
      serializeLeafWithPrefix leaf.type item = serializeLeafWithPrefix leaf.type leaf.item := by
  induction bl generalizing t depth with
  | nil => cases hv
  | cons blob rest ih =>
    rw [length_cons] at hd
    rcases makeFromWire_cases sha blob with ⟨n, hn, hf, -⟩ | ⟨hn, -⟩ | ⟨f, hn, -⟩
    · have hm := hbl blob mem_cons_self n hn
      cases hf with
      | leaf type item =>
        rw [verifyLoop_leaf hn] at hv
        simp only [ok.injEq, Bool.and_eq_true, decide_eq_true_eq, beq_iff_eq] at hv
        obtain ⟨leaf, rfl, rfl, hb⟩ := eq_leaf_of_hash hS ht hm hv.1
        obtain rfl : rest = [] := length_eq_zero_iff.mp (by omega)
        exact ⟨[], blob, leaf, item, rfl, rfl, hn, hb⟩
      | inner slots =>
        by_cases hh : SHAMapTreeNode.computeInnerHash sha slots = treeHash sha t
        · by_cases hlt : depth < leafDepth
          · rw [verifyLoop_inner hn hh hlt] at hv
            obtain ⟨u, hu, ha, ho⟩ := branch_of_hash hS ht hm hh key depth
            rw [ha] at hv
            obtain ⟨pre, blob', leaf, item, rfl, hl, hbl', hb⟩ :=
              ih (fun b hb => hbl b (mem_cons_of_mem _ hb)) hu (by omega) hv
            exact ⟨blob :: pre, blob', leaf, item, rfl, ho leaf hl, hbl', hb⟩
          · obtain rfl : depth = leafDepth := by omega
            rw [verifyLoop_leafDepth hn hh] at hv
            cases hv
        · rw [verifyLoop_mismatch hn hh] at hv
          cases hv
    · rw [verifyLoop_refused hn] at hv
      cases hv
    · simp [verifyLoop, hn, bind, Except.bind] at hv

/-- **An accepted path leads to a leaf of the map**: it is the leaf where the key's half bytes lead, and the
first blob is its encoding. The key is a key of the map exactly when it is the key of that leaf, which the
check leaves to its caller. -/
theorem verifyProofPath_sound {store : SHAMapHash → Option MapTree} {h : Heap} {root : Ref}
    (hM : CompleteMap sha store h root t) (hS : CollisionFree sha S)
    (ht : HashedIn sha S t) {path : List Blob} (hpath : PathHashedIn sha S path)
    (hv : verifyProofPath sha (h.node root).hash key path = .ok true) :
    ∃ leaf ∈ t, Tree.follow radix key t 0 = some leaf ∧ (∃ blob rest item, path = blob :: rest ∧
        makeFromWire sha blob = .ok (.ok (some (freshLeaf sha leaf.type item))) ∧
        serializeLeafWithPrefix leaf.type item = serializeLeafWithPrefix leaf.type leaf.item) ∧
      ((∃ other ∈ t, other.item.key = key) ↔ leaf.item.key = key) := by
  by_cases he : path.length = 0 ∨ 65 < path.length
  · rw [verifyProofPath, if_pos he] at hv
    cases hv
  rw [verifyProofPath, if_neg he] at hv
  rw [not_or, Nat.not_lt] at he
  rw [hM.represents.hash_eq] at hv
  obtain ⟨pre, blob, leaf, item, hr, hl, hbl, hb⟩ := verifyLoop_sound hS key he.2 path.reverse
    (fun b hb => hpath b (List.mem_reverse.mp hb)) ht (by rw [List.length_reverse, Nat.zero_add]) hv
  have hm := Tree.mem_of_follow hl
  refine ⟨leaf, hm, hl, ⟨blob, pre.reverse, item, ?_, hbl, hb⟩, ?_, fun hk => ⟨leaf, hm, hk⟩⟩
  · rw [← reverse_reverse path, hr]
    simp
  · rintro ⟨other, ho, hk⟩
    -- the leaf of a key is where its half bytes lead
    have hlo := (Tree.lookup_eq_some hM.placed).mpr ⟨ho, hk⟩
    rw [Tree.lookup_eq_follow, hl, filter_eq_some_iff] at hlo
    obtain ⟨hs, -⟩ := hlo
    rw [some.inj hs]
    exact hk

end

/-! ### The path that is made -/

section

variable {store : MapStore} {h : Heap} {path : List NodePathEntry} {nid : SHAMapNodeId}

theorem Branches.hashesSet {ch : Branch → MapTree} {slots : Slots}
    (hs : Branches sha store h ch slots) : HashesSet slots := by
  intro b slot hb
  rcases hs b with ⟨hn, -⟩ | ⟨c, hc, -, h0, -⟩
  · rw [hb] at hn
    cases hn
  · rw [hb] at hc
    rw [some.inj hc]
    exact h0

/-- A walk that ends at no leaf: the key leads nowhere in the tree. -/
theorem follow_of_walkPath_none {leaf : Option Ref} (hw : WalkPath h key nid r path leaf) (hl : leaf = none)
    (hr : Represents sha store h t r) : Tree.follow radix key t nid.depth = none := by
  induction hw generalizing t with
  | leaf => cases hl
  | @empty nid r slots hd hi hb =>
    obtain ⟨ch, rfl, hs⟩ := hr.inner_inv hi
    have he : ch (radix.digit key nid.depth) = .empty := hs.empty hb
    rw [Tree.follow, he, Tree.follow]
  | @step nid ci r c slots hash path leaf hi hb hid hp ih =>
    obtain ⟨ch, rfl, hs⟩ := hr.inner_inv hi
    have := ih hl (hs.loaded hb).2
    rwa [(depth_of_getChildNodeId hid).2] at this

/-- **The blobs of a walk that ends at a leaf are accepted**, if the leaf can be read back. -/
theorem verifyLoop_of_walkPath {last : Option Ref} (hw : WalkPath h key nid r path last) {q : Ref}
    (he : last = some q) (hr : Represents sha store h t r) (hle : nid.depth + path.length = len) :
    ∃ leaf bl, Tree.follow radix key t nid.depth = some leaf ∧ (h.node q).peekItem = some leaf.item ∧
      path.mapM (blobOf h) = some bl ∧ bl.length = path.length ∧
      verifyLoop sha key len bl nid.depth (treeHash sha t) = .ok (decide (Readable leaf.type leaf.item)) := by
  induction hw generalizing t with
  | @leaf nid r hin =>
    obtain ⟨leaf, cw, rfl, hn⟩ := hr.leaf_inv hin
    obtain rfl : r = q := some.inj he
    have hbl : blobOf h ⟨r, nid⟩ = some (serializeLeafForWire leaf.type leaf.item) := by
      rw [blobOf, hn]
      rfl
    refine ⟨leaf, [serializeLeafForWire leaf.type leaf.item], rfl, by rw [hn]; rfl, by simp [hbl], rfl, ?_⟩
    by_cases hrd : Readable leaf.type leaf.item
    · obtain ⟨item', hi, hy⟩ := makeFromWire_leaf sha hrd
      have hh : computeLeafHash sha leaf.type item' = treeHash sha (.leaf leaf) :=
        congrArg sha hy
      simp only [length_singleton] at hle
      rw [verifyLoop_leaf hi]
      simp [hh, hle, hrd]
    · obtain ⟨e, hi⟩ := makeFromWire_leaf_refused sha hrd
      rw [verifyLoop_refused (.inr ⟨e, hi⟩), decide_eq_false hrd]
  | empty => cases he
  | @step nid ci r c slots hash path last hin hb hid hp ih =>
    obtain ⟨ch, rfl, hs⟩ := hr.inner_inv hin
    obtain ⟨hd, hc⟩ := depth_of_getChildNodeId hid
    rw [length_cons] at hle
    obtain ⟨leaf, bl, hf, him, ho, hl, hv⟩ := ih he (hs.loaded hb).2 (by omega)
    rw [hc] at hf hv
    have hne : setBranches slots ≠ [] := by
      have hm := mem_setBranches.mpr (show slots (key.nibble nid.depth) ≠ none by rw [hb]; exact some_ne_none _)
      exact ne_nil_of_mem hm
    obtain ⟨bytes, hy, hi⟩ := makeFromWire_inner sha hs.hashesSet hne
    have hbl : blobOf h ⟨r, nid⟩ = some bytes := by
      obtain ⟨nh, cw, g, hn⟩ := hin
      rw [blobOf, hn]
      exact congrArg Except.toOption hy
    refine ⟨leaf, bytes :: bl, hf, him, by simp [hbl, ho], by simp [hl], ?_⟩
    have hh : SHAMapTreeNode.computeInnerHash sha (bareSlots slots) = treeHash sha (.inner ch) := by
      rw [← hs.computeInnerHash_eq]
      simp only [SHAMapTreeNode.computeInnerHash, setBranches_bareSlots, slotHash_bareSlots]
    rw [verifyLoop_inner hi hh hd, slotHash_bareSlots, hs.slotHash_eq]
    exact hv

theorem mapM_reverse {f : NodePathEntry → Option Blob} {l : List NodePathEntry} {bs : List Blob}
    (h : l.mapM f = some bs) : l.reverse.mapM f = some bs.reverse := by
  induction l generalizing bs with
  | nil =>
    cases h
    rfl
  | cons e l ih =>
    simp only [mapM_cons, bind_eq_bind, bind_eq_some_iff] at h
    obtain ⟨b, hb, bs', hs, he⟩ := h
    cases he
    simp [ih hs, hb]

variable (sha) in
/-- What asking a complete map for the path of a key should give: no path for a key that is not there, and for
one that is there a path that is accepted, unless its leaf cannot be read back. -/
def ProofPathFor (t : MapTree) (rootHash key : Uint256) (r : Option (List Blob)) : Prop :=
  match Tree.lookup radix key t 0 with
  | none => r = none
  | some leaf => ∃ path, r = some path ∧
      verifyProofPath sha rootHash key path = .ok (decide (Readable leaf.type leaf.item))

variable {root : Ref} {fetch : Fetch} {backed : Bool}

theorem wp_getProofPathBacked (hM : CompleteMap sha store h root t)
    (hb : ∀ hash, store hash ≠ none → backed) (hf : FetchRight sha store h fetch) (key : Uint256) :
    wp (getProofPathBacked root key backed fetch) (fun r _ => ProofPathFor sha t (h.node root).hash key r) ⊥ ⊥ h := by
  have hs := wp_and (walkLoop_spec key backed fetch (leafDepth + 1) root .root h)
    (walkLoop_total key (hf.rightPart hb) (show t.Bounded radix SHAMapNodeId.root.depth from hM.bounded) (by decide)
      hM.represents.rightPart.shows)
  simp only [getProofPathBacked, walkTowardsKeyWithPath, wp_bind]
  refine wp_mono hs ?_ (fun _ _ h => h.2) fun _ h => h.2
  rintro ⟨last, path⟩ h' ⟨⟨hw, hfe⟩, -⟩
  obtain ⟨hr, -⟩ := hM.represents.fetches hf hfe
  have hh : (h.node root).hash = treeHash sha t := hM.represents.hash_eq
  cases last with
  | none =>
    have ho : Tree.follow radix key t 0 = none := follow_of_walkPath_none hw rfl hr
    have hn : Tree.lookup radix key t 0 = none := by
      rw [Tree.lookup_eq_follow, ho]
      rfl
    simp [finalizeProofPath, ProofPathFor, hn]
  | some q =>
    obtain ⟨leaf, bl, ho, hi, hbl, he, hv⟩ := verifyLoop_of_walkPath hw rfl hr rfl
    have ho : Tree.follow radix key t 0 = some leaf := ho
    have he : bl.length = path.length := he
    by_cases hk : leaf.item.key = key
    · have hl : Tree.lookup radix key t 0 = some leaf := by
        rw [Tree.lookup_eq_follow, ho]
        exact filter_eq_some_iff.mpr ⟨rfl, decide_eq_true hk⟩
      simp only [finalizeProofPath, wp_bind, wp_read, hi, hk, ne_eq, not_true, if_false, wp_pure,
        ProofPathFor, hl, mapM_reverse hbl]
      refine ⟨bl.reverse, rfl, ?_⟩
      have hle : 0 + path.length ≤ leafDepth + 1 := hw.length_le
      have hp : path ≠ [] := by
        rintro rfl
        cases hw
      have hne : path.length ≠ 0 := fun h0 => hp (length_eq_zero_iff.mp h0)
      rw [verifyProofPath, length_reverse, he, if_neg (by unfold leafDepth at hle; omega), reverse_reverse, hh]
      rwa [show SHAMapNodeId.root.depth = 0 from rfl, Nat.zero_add] at hv
    · have hn : Tree.lookup radix key t 0 = none := by
        rw [Tree.lookup_eq_follow, ho]
        exact filter_eq_none_iff.mpr fun a ha => by cases ha; exact ne_true_of_eq_false (decide_eq_false hk)
      simp [finalizeProofPath, ProofPathFor, hn, hi, hk]

/-- **A complete map gives an accepted path for each of its keys** whose leaf can be read back, and no path for
any other key: backed by a callback that finds the right nodes, or loaded. -/
theorem getProofPath_complete (hM : CompleteMap sha store h root t)
    (hb : ∀ hash, store hash ≠ none → backed = true) (hf : FetchRight sha store h fetch) (key : Uint256) :
    wp (getProofPathBacked root key backed fetch)
        (fun r _ => ProofPathFor sha t (h.node root).hash key r) (fun _ _ => False) (fun _ => False) h ∧
      ((∀ hash, store hash = none) → wp (getProofPath root key : HeapM TraversalError _)
        (fun r _ => ProofPathFor sha t (h.node root).hash key r) (fun _ _ => False) (fun _ => False) h) := by
  refine ⟨wp_getProofPathBacked hM hb hf key, fun hl => ?_⟩
  have hf : FetchRight sha store h noFetch := fun _ hash u hu => by
    rw [hl hash] at hu
    cases hu
  have hn : wp (getProofPathBacked root key false noFetch) _ _ _ h :=
    wp_getProofPathBacked hM (fun hash he => absurd (hl hash) he) hf key
  simp only [getProofPath, wp_bind, wp_attempt, wp_pure]
  exact wp_noError hn (fun _ _ h => h)

end

/-! ### Small maps -/

/-- A map with one leaf below the root, and what SHA-512 makes of its two nodes. -/
structure SmallMap where
  item : SHAMapItem
  leafHash : SHAMapHash
  rootHash : SHAMapHash
  leafHash_ne : leafHash ≠ 0
  rootHash_ne : rootHash ≠ 0
  hash_ne : leafHash ≠ rootHash

namespace SmallMap

variable (m : SmallMap)

def leaf : Leaf := ⟨.accountState, m.item⟩

def branch : Branch := m.item.key.nibble 0

def leafBytes : List UInt8 := serializeLeafWithPrefix .accountState m.item

def rootBytes : List UInt8 := innerBytes fun b => if b = m.branch then m.leafHash else 0

/-- SHA-512 on the bytes of the map. -/
def sha512Half (bytes : List UInt8) : Uint256 :=
  if bytes = m.leafBytes then m.leafHash else if bytes = m.rootBytes then m.rootHash else 0

def tree : MapTree := .inner (Tree.single m.branch (.leaf m.leaf))

def slots : Branch → Option Slot := fun b => if b = m.branch then some ⟨m.leafHash, some 1⟩ else none

/-- The root is node `0`, the leaf node `1`. -/
def heap : Heap where
  next := 2
  node := fun r => if r = 0 then ⟨m.rootHash, 0, .inner 0 m.slots⟩ else ⟨m.leafHash, 0, .leaf .accountState m.item⟩
  calls := 0

/-- The proof path of the leaf. -/
def path : List Blob :=
  [serializeLeafForWire .accountState m.item,
    m.leafHash.data ++ [UInt8.ofNat m.branch.val] ++ [wireTypeCompressedInner]]

theorem sha512Half_leaf : m.sha512Half m.leafBytes = m.leafHash := if_pos rfl

theorem sha512Half_root : m.sha512Half m.rootBytes = m.rootHash := by
  have hn : m.rootBytes ≠ m.leafBytes := (serializeLeafWithPrefix_ne_innerBytes _ _ _).symm
  rw [sha512Half, if_neg hn, if_pos rfl]

theorem single_apply (b : Branch) :
    Tree.single m.branch (.leaf m.leaf) b = if b = m.branch then .leaf m.leaf else .empty := by
  rw [Tree.single, Function.update_apply]

theorem treeHash_child (b : Branch) :
    treeHash m.sha512Half (Tree.single m.branch (.leaf m.leaf) b) = if b = m.branch then m.leafHash else 0 := by
  rw [single_apply]
  split
  · exact m.sha512Half_leaf
  · rfl

theorem not_all_empty : ¬ ∀ b, Tree.single m.branch (.leaf m.leaf) b = .empty := Tree.single_ne_empty _ _

theorem treeHash_tree : treeHash m.sha512Half m.tree = m.rootHash := by
  rw [tree, treeHash_inner _ m.not_all_empty]
  simp only [treeHash_child]
  exact m.sha512Half_root

theorem complete : CompleteMap m.sha512Half (fun _ => none) m.heap 0 m.tree where
  represents := by
    refine ⟨0, 0, m.slots, congrArg (fun x => (⟨x, 0, _⟩ : SHAMapTreeNode)) m.treeHash_tree.symm, fun b => ?_⟩
    rw [treeHash_child, single_apply]
    by_cases hb : b = m.branch
    · simp only [if_pos hb, slots]
      exact .inr ⟨some 1, rfl, nofun, m.leafHash_ne, .inr ⟨1, rfl, 0,
        congrArg (fun x => (⟨x, 0, .leaf .accountState m.item⟩ : SHAMapTreeNode)) m.sha512Half_leaf.symm⟩⟩
    · simp [if_neg hb, slots]
  placed := by
    intro b
    rw [single_apply]
    split
    · next hb =>
      refine ⟨trivial, ?_⟩
      rintro _ rfl
      exact hb.symm
    · exact ⟨trivial, fun a ha => absurd ha (Tree.not_mem_empty a)⟩
  bounded := by
    refine ⟨by decide, fun b => ?_⟩
    rw [single_apply]
    split <;> trivial

theorem collisionFree : CollisionFree m.sha512Half {m.leafBytes, m.rootBytes} where
  inj := by
    rintro x (rfl | rfl) y (rfl | rfl) h
    · rfl
    · rw [sha512Half_leaf, sha512Half_root] at h
      exact absurd h m.hash_ne
    · rw [sha512Half_leaf, sha512Half_root] at h
      exact absurd h.symm m.hash_ne
    · rfl
  ne_zero := by
    rintro x (rfl | rfl)
    · rw [sha512Half_leaf]
      exact m.leafHash_ne
    · rw [sha512Half_root]
      exact m.rootHash_ne

theorem tree_hashedIn : HashedIn m.sha512Half {m.leafBytes, m.rootBytes} m.tree := by
  refine ⟨fun _ => .inr ?_, fun b => ?_⟩
  · simp only [treeHash_child]
    rfl
  · rw [single_apply]
    split
    · exact .inl rfl
    · trivial

theorem setBranches_slots : setBranches m.slots = [m.branch] := by
  have hf : ∀ c : Branch, (finRange 16).filter (fun b => decide (b = c)) = [c] := by decide
  rw [setBranches, ← hf m.branch]
  refine filter_congr fun b _ => ?_
  by_cases hb : b = m.branch <;> simp [slots, hb]

theorem path_hashedIn : PathHashedIn m.sha512Half {m.leafBytes, m.rootBytes} m.path := by
  intro blob hbl n hn
  simp only [path, mem_cons, not_mem_nil, or_false] at hbl
  rcases hbl with rfl | rfl
  · by_cases hr : Readable .accountState m.item
    · obtain ⟨item', hf, hy⟩ := makeFromWire_leaf m.sha512Half hr
      rw [hf] at hn
      cases hn
      exact .inl hy
    · obtain ⟨e, hf⟩ := makeFromWire_leaf_refused m.sha512Half hr
      rw [hf] at hn
      cases hn
  · have hs : HashesSet m.slots := by
      intro b slot hl
      by_cases hb : b = m.branch
      · rw [slots, if_pos hb] at hl
        cases hl
        exact m.leafHash_ne
      · rw [slots, if_neg hb] at hl
        cases hl
    have hl : slotHash m.slots = fun b => if b = m.branch then m.leafHash else 0 := by
      funext b
      by_cases hb : b = m.branch
      · rw [slotHash_some (show m.slots b = some ⟨m.leafHash, some 1⟩ from if_pos hb), if_pos hb]
      · rw [slotHash_none (show m.slots b = none from if_neg hb), if_neg hb]
    obtain ⟨bytes, hy, ht⟩ := makeFromWire_inner m.sha512Half hs (by rw [setBranches_slots]; simp)
    have hw : bytes = m.leafHash.data ++ [UInt8.ofNat m.branch.val] ++ [wireTypeCompressedInner] := by
      rw [serializeInnerForWire, setBranches_slots, if_neg (by simp), if_pos (by simp), compressedInnerBytes,
        setBranches_slots, hl] at hy
      simpa using (ok.inj hy).symm
    rw [hw] at ht
    rw [ht] at hn
    have ha : SHAMapTreeNode.bytes (innerNode m.sha512Half (bareSlots m.slots) none) = m.rootBytes :=
      congrArg innerBytes ((slotHash_bareSlots m.slots).trans hl)
    rw [← some.inj (ok.inj (ok.inj hn)), ha]
    exact .inr rfl

theorem mem_tree {other : Leaf} (h : other ∈ m.tree) : other = m.leaf := (Tree.mem_single.mp h).symm

end SmallMap

/-- A small map under an ordinary key. -/
def sampleMap : SmallMap where
  item := twelveBytes (.ofFirst 1)
  leafHash := sampleLeafHash
  rootHash := sampleRootHash
  leafHash_ne := by decide
  rootHash_ne := by decide
  hash_ne := by decide

/-- A small map under the zero key. -/
def zeroKeyMap : SmallMap where
  item := twelveBytes 0
  leafHash := ⟨[0xF1, 0x80, 0x35, 0xF4, 0x82, 0x3E, 0x21, 0xF0, 0xC9, 0xB4, 0xA9, 0x10, 0x3F, 0x16, 0x7B, 0xE6,
    0xBF, 0xAE, 0xEE, 0x4D, 0x83, 0x18, 0xC3, 0xAB, 0x20, 0x75, 0x85, 0x48, 0x19, 0xA2, 0x0A, 0x09], rfl⟩
  rootHash := ⟨[0xA8, 0xEC, 0x87, 0x45, 0x9A, 0xD4, 0x1F, 0x47, 0x7F, 0xFE, 0x1B, 0x3B, 0x8F, 0x6A, 0x9F, 0x55,
    0x9E, 0x4E, 0x1C, 0x3F, 0x07, 0xC5, 0xD5, 0x33, 0xAE, 0xAE, 0xFE, 0x32, 0x99, 0x17, 0x93, 0x45], rfl⟩
  leafHash_ne := by decide
  rootHash_ne := by decide
  hash_ne := by decide

/-- Another key below the branch of the small map's leaf. -/
def otherKey : Uint256 := .ofFirst 2

/-- A path for the only leaf of a map is accepted for another key below the same branch. -/
theorem verifyProofPath_other_key :
    ¬ ∀ (sha : List UInt8 → Uint256) (S : Set (List UInt8)) (store : SHAMapHash → Option MapTree) (h : Heap)
      (root : Ref) (t : MapTree), CompleteMap sha store h root t → CollisionFree sha S →
      HashedIn sha S t → ∀ (key : Uint256) (path : List Blob), PathHashedIn sha S path →
      verifyProofPath sha (h.node root).hash key path = .ok true → ∃ leaf ∈ t, leaf.item.key = key := by
  intro hc
  have hv : verifyProofPath sampleMap.sha512Half (sampleMap.heap.node 0).hash otherKey sampleMap.path = .ok true := by
    decide +kernel
  obtain ⟨leaf, hl, hk⟩ := hc _ _ _ _ _ _ sampleMap.complete sampleMap.collisionFree
    sampleMap.tree_hashedIn otherKey _ sampleMap.path_hashedIn hv
  rw [sampleMap.mem_tree hl] at hk
  exact absurd hk (by decide)

/-- The path of the leaf of the small map leads to that leaf. -/
theorem verifyProofPath_sound_sample :
    ∃ leaf ∈ sampleMap.tree, Tree.follow radix sampleMap.item.key sampleMap.tree 0 = some leaf ∧
      (∃ blob rest item, sampleMap.path = blob :: rest ∧
        makeFromWire sampleMap.sha512Half blob = .ok (.ok (some (freshLeaf sampleMap.sha512Half leaf.type item))) ∧
        serializeLeafWithPrefix leaf.type item = serializeLeafWithPrefix leaf.type leaf.item) ∧
      ((∃ other ∈ sampleMap.tree, other.item.key = sampleMap.item.key) ↔ leaf.item.key = sampleMap.item.key) :=
  verifyProofPath_sound sampleMap.complete sampleMap.collisionFree sampleMap.tree_hashedIn sampleMap.path_hashedIn
    (by decide +kernel)

/-- The path made for an account-state leaf under the zero key is refused. -/
theorem getProofPath_zero_key :
    ¬ ∀ (sha : List UInt8 → Uint256) (store : SHAMapHash → Option MapTree) (h : Heap) (root : Ref) (t : MapTree)
      (backed : Bool) (fetch : Fetch) (key : Uint256), CompleteMap sha store h root t →
      (∀ hash, store hash ≠ none → backed = true) → FetchRight sha store h fetch →
      (∃ leaf ∈ t, leaf.item.key = key) → wp (getProofPathBacked root key backed fetch)
        (fun r _ => ∃ path, r = some path ∧ verifyProofPath sha (h.node root).hash key path = .ok true)
        (fun _ _ => False) (fun _ => False) h := by
  intro hc
  have hw := hc zeroKeyMap.sha512Half (fun _ => none) zeroKeyMap.heap 0 zeroKeyMap.tree false noFetch 0
    zeroKeyMap.complete (fun _ h => absurd rfl h) (fun _ _ _ h => by cases h) ⟨zeroKeyMap.leaf, Tree.mem_single.mpr rfl, rfl⟩
  have hs : wp (getProofPathBacked 0 0 false noFetch) _ _ _ zeroKeyMap.heap :=
    wp_getProofPathBacked zeroKeyMap.complete (fun _ h => absurd rfl h) (fun _ _ _ h => by cases h) 0
  obtain ⟨_, _, -, hm, path, rfl, ha⟩ := returns_of_wp
    (wp_mono (wp_and hs hw) (fun _ _ h => h) (fun _ _ h => h.1) fun _ h => h.1)
  obtain ⟨path', hp, hr⟩ := hm
  rw [← some.inj hp, ha] at hr
  -- the codec refuses an account-state leaf under the zero key
  exact absurd (ok.inj hr) (by decide)

/-- The path of the small map's leaf is made and accepted. -/
theorem getProofPath_complete_sample : wp (getProofPathBacked 0 sampleMap.item.key false noFetch)
        (fun r _ => ProofPathFor sampleMap.sha512Half sampleMap.tree sampleMap.rootHash sampleMap.item.key r)
        (fun _ _ => False) (fun _ => False) sampleMap.heap :=
  (getProofPath_complete sampleMap.complete (fun _ h => absurd rfl h) (fun _ _ _ h => by cases h)
    sampleMap.item.key).1

end Xrpld.SHAMap
