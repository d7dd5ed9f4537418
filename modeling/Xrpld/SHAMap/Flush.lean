import Xrpld.SHAMap.Mutation

/-!
# Flushing a tree

`flush_dirty`, `try_flush_dirty` and `try_flush_dirty_detached` of `xrpl/shamap/mutation.rs`. The nodes that
are not shared are hashed from the leaves up, given up and handed to a writer, which says which node to keep
in the place of each. The first two work on the nodes the tree owns, the last on copies of them.

## The model

* A writer may look at all nodes, answer differently each time, and fail. `flush_dirty` is `try_flush_dirty`
  with a writer that never fails, and `unshare` the same without a writer (`tryWalkSubtreeImpl_none`).
* The stack of the walk is the recursion here: `levels` is how deep it goes.
* The two walks differ in how they take a node they have come to: `pre_flush_node` copies it unless the tree
  owns it, `clone_with_cowid` always. `flushNode` is the walk for any way to take a node.
-/

namespace Xrpld.SHAMap

section

variable (sha512Half : Sha) {ε : Type}

/-! ### Flushing in place -/

/-- What a writer answers: the node to keep, or an error. -/
abbrev Writer (ε : Type) := Heap → Ref → Except ε Ref

def tryMaybeWriteNode (writer : Option (Writer ε)) (node : Ref) : HeapM ε Ref :=
  match writer with
  | none => return node
  | some write => do
    let h ← Prog.read
    Prog.update fun h => { h with calls := h.calls + 1 }
    match write h node with
    | .ok kept => return kept
    | .error e => Prog.fail e

/-- A child that the tree owns by now: an inner node is walked over, a leaf hashed and written. -/
def tryFlushChild (writer : Option (Writer ε)) (walk : Ref → HeapM ε (Ref × ℕ)) (child : Ref) : HeapM ε (Ref × ℕ) := do
  let m ← deref child
  if m.isInner then walk child
  else do
    flushLeaf sha512Half child
    return (← tryMaybeWriteNode writer child, 1)

/-- The loop of `try_walk_subtree_impl` over the branches of one node. -/
def tryWalkBranches (writer : Option (Writer ε)) (walk : Ref → HeapM ε (Ref × ℕ)) (owner : ℕ) (node : Ref) :
    List Branch → HeapM ε ℕ
  | [] => return 0
  | b :: bs => do
    let n ← deref node
    match n.getChild b with
    | none => tryWalkBranches writer walk owner node bs
    | some child => do
      let m ← deref child
      if m.cowid = 0 then tryWalkBranches writer walk owner node bs
      else do
        let child ← preFlushNode child owner
        let (child, flushed) ← tryFlushChild sha512Half writer walk child
        shareChildAt node b child
        return flushed + (← tryWalkBranches writer walk owner node bs)

/-- The loop of `try_walk_subtree_impl` for one inner node and what is below it. -/
def tryWalkNode (writer : Option (Writer ε)) (owner : ℕ) : ℕ → Ref → HeapM ε (Ref × ℕ)
  | 0, _ => abort .outOfFuel
  | levels + 1, node => do
    let flushed ← tryWalkBranches sha512Half writer (tryWalkNode writer owner levels) owner node (List.finRange 16)
    updateHashDeep sha512Half node
    let n ← deref node
    store node n.unshare
    return (← tryMaybeWriteNode writer node, flushed + 1)

def tryWalkSubtreeImpl (writer : Option (Writer ε)) (levels : ℕ) (root : Ref) (owner : ℕ) : HeapM ε (Ref × ℕ) := do
  let n ← deref root
  if n.cowid = 0 then return (root, 0)
  else if n.isLeaf then do
    let root ← preFlushNode root owner
    flushLeaf sha512Half root
    return (← tryMaybeWriteNode writer root, 1)
  else if n.isEmpty then return (← allocate (SHAMapTreeNode.newInner 0), 1)
  else do
    let node ← preFlushNode root owner
    tryWalkNode sha512Half writer owner levels node

def tryFlushDirty (write : Writer ε) (levels : ℕ) : Prog Fault Memory ε ℕ := do
  let s ← Prog.read
  let (root, count) ← onHeap (tryWalkSubtreeImpl sha512Half (some write) levels s.tree.root s.tree.cowid)
  setRoot root
  return count

def flushDirty (write : Heap → Ref → Ref) (levels : ℕ) : Prog Fault Memory ε ℕ :=
  tryFlushDirty sha512Half (fun h node => .ok (write h node)) levels

/-! ### The walk -/

/-- The loop over the branches of one node, for a way to take a child. -/
def flushBranches (take : Ref → HeapM ε Ref) (writer : Option (Writer ε)) (walk : Ref → HeapM ε (Ref × ℕ)) (node : Ref) :
    List Branch → HeapM ε ℕ
  | [] => return 0
  | b :: bs => do
    let n ← deref node
    match n.getChild b with
    | none => flushBranches take writer walk node bs
    | some child => do
      let m ← deref child
      if m.cowid = 0 then flushBranches take writer walk node bs
      else do
        let child ← take child
        let (child, flushed) ← tryFlushChild sha512Half writer walk child
        shareChildAt node b child
        return flushed + (← flushBranches take writer walk node bs)

/-- The walk over one inner node and what is below it. -/
def flushNode (take : Ref → HeapM ε Ref) (writer : Option (Writer ε)) : ℕ → Ref → HeapM ε (Ref × ℕ)
  | 0, _ => abort .outOfFuel
  | levels + 1, node => do
    let flushed ← flushBranches sha512Half take writer (flushNode take writer levels) node (List.finRange 16)
    updateHashDeep sha512Half node
    let n ← deref node
    store node n.unshare
    return (← tryMaybeWriteNode writer node, flushed + 1)

theorem tryWalkBranches_eq (wr : Option (Writer ε)) (walk : Ref → HeapM ε (Ref × ℕ)) (ow : ℕ) (node : Ref)
    (bs : List Branch) : tryWalkBranches sha512Half wr walk ow node bs =
      flushBranches sha512Half (fun ch => preFlushNode ch ow) wr walk node bs := by
  induction bs with
  | nil => rfl
  | cons b bs ih =>
    rw [tryWalkBranches, flushBranches]
    congr 1
    funext n
    cases n.getChild b with
    | none => exact ih
    | some ch => simp only [ih]

theorem tryWalkNode_eq (wr : Option (Writer ε)) (ow lv : ℕ) : tryWalkNode sha512Half wr ow lv =
      flushNode sha512Half (fun ch => preFlushNode ch ow) wr lv := by
  induction lv with
  | zero => rfl
  | succ lv ih =>
    funext node
    rw [tryWalkNode, flushNode, ih, tryWalkBranches_eq]

/-! ### Flushing a copy -/

/-- `clone_with_cowid` of a node of the heap. -/
def cloneNode (owner : ℕ) (node : Ref) : HeapM ε Ref := do
  let n ← deref node
  allocate (← Prog.lift (n.cloneWithCowid owner))

def tryWalkSubtreeDetachedImpl (writer : Option (Writer ε)) (levels : ℕ) (root : Ref) (owner : ℕ) :
    HeapM ε (Ref × ℕ) := do
  let n ← deref root
  if n.cowid = 0 then return (root, 0)
  else do
    let root ← cloneNode owner root
    let m ← deref root
    if m.isLeaf then do
      flushLeaf sha512Half root
      return (← tryMaybeWriteNode writer root, 1)
    else if m.isEmpty then return (← allocate (SHAMapTreeNode.newInner 0), 1)
    else flushNode sha512Half (cloneNode owner) writer levels root

/-- `try_flush_dirty_detached`: the tree is not changed, a flushed one is returned. -/
def MutableTree.tryFlushDirtyDetached (tree : MutableTree) (write : Writer ε) (levels : ℕ) :
    HeapM ε (MutableTree × ℕ) := do
  let (root, count) ← tryWalkSubtreeDetachedImpl sha512Half (some write) levels tree.root tree.cowid
  return (⟨root, tree.cowid⟩, count)

/-! ### Without a writer -/

theorem tryFlushChild_none (walk : Ref → HeapM ε ℕ) (ch : Ref) :
    tryFlushChild sha512Half none (fun r => do return (r, ← walk r)) ch =
      (do return (ch, ← flushChild sha512Half walk ch)) := by
  simp only [tryFlushChild, flushChild, Prog.bind_assoc_eq]
  congr 1
  funext m
  split
  · rfl
  · simp only [tryMaybeWriteNode, Prog.bind_assoc_eq, pure_bind_eq]

theorem tryWalkBranches_none (walk : Ref → HeapM ε ℕ) (ow : ℕ) (node : Ref) (bs : List Branch) :
    tryWalkBranches sha512Half none (fun r => do return (r, ← walk r)) ow node bs =
      walkBranches sha512Half walk ow node bs := by
  induction bs with
  | nil => rfl
  | cons b bs ih =>
    rw [tryWalkBranches, walkBranches]
    congr 1
    funext n
    cases n.getChild b with
    | none => exact ih
    | some ch => simp only [ih, tryFlushChild_none, Prog.bind_assoc_eq, pure_bind_eq]

theorem tryWalkNode_none (ow lv : ℕ) (node : Ref) : tryWalkNode (ε := ε) sha512Half none ow lv node =
      (do return (node, ← walkNode sha512Half ow lv node)) := by
  induction lv generalizing node with
  | zero => rfl
  | succ lv ih =>
    have hw : tryWalkNode (ε := ε) sha512Half none ow lv =
        fun r => do return (r, ← walkNode sha512Half ow lv r) := funext ih
    simp only [tryWalkNode, walkNode, hw, tryWalkBranches_none, tryMaybeWriteNode, Prog.bind_assoc_eq, pure_bind_eq]

/-- **Flushing without a writer is hashing the tree.** -/
theorem tryWalkSubtreeImpl_none (lv : ℕ) (root : Ref) (ow : ℕ) :
    tryWalkSubtreeImpl (ε := ε) sha512Half none lv root ow = walkSubtreeImpl sha512Half lv root ow := by
  simp only [tryWalkSubtreeImpl, walkSubtreeImpl, tryWalkNode_none, tryMaybeWriteNode, pure_bind_eq]

end

end Xrpld.SHAMap
