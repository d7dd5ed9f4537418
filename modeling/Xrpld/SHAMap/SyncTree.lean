import Xrpld.SHAMap.History

/-!
# Trees that are synchronized

`SyncTree` of `xrpl/shamap/sync.rs`: a root, and what is known about the map below it. A ledger
keeps its maps in such trees, and makes the state map of the next ledger from its own by
`share_root_snapshot`.

## The model

* A call works on the nodes in the heap; of the tree itself it returns the new value.
* `recompute_hashes_recursive` goes down the loaded nodes; `levels` is how deep it may go.
* What is left out: the flag that says that a map is complete, and the reports of missing nodes.
-/

namespace Xrpld.SHAMap

inductive SyncState where
  | modifying | immutable | synching | invalid
  deriving DecidableEq

inductive SHAMapType where
  | transaction | state | free
  deriving DecidableEq

structure SyncTree where
  root : Ref
  mapType : SHAMapType
  backed : Bool
  ledgerSeq : ℕ
  state : SyncState
  deriving DecidableEq

section

variable (sha512Half : Sha) {ε : Type}

/-- The loop of `recompute_hashes_recursive` over the branches of a node. -/
def recomputeBranches (recompute : Ref → HeapM ε Unit) (node : Ref) : List Branch → HeapM ε Unit
  | [] => return ()
  | b :: bs => do
    let n ← deref node
    match n.getChild b with
    | none => recomputeBranches recompute node bs
    | some child => do
      let m ← deref child
      Prog.when (m.hash = 0) (recompute child)
      recomputeBranches recompute node bs

def recomputeHashesRecursive : ℕ → Ref → HeapM ε Unit
  | 0, _ => abort .outOfFuel
  | levels + 1, node => do
    let n ← deref node
    if n.isInner then do
      recomputeBranches (recomputeHashesRecursive levels) node (List.finRange 16)
      updateHashDeep sha512Half node
    else Prog.when (n.hash = 0) (store node (n.updateHash sha512Half))

namespace SyncTree

def shareRootSnapshot (tree : SyncTree) : HeapM ε SyncTree := do
  let n ← deref tree.root
  Prog.when (decide (n.hash = 0) && n.isInner) (store tree.root (n.updateHash sha512Half))
  return { tree with state := .modifying }

def hash (levels : ℕ) (tree : SyncTree) : HeapM ε SHAMapHash := do
  let n ← deref tree.root
  if n.hash ≠ 0 then return n.hash
  else do
    recomputeHashesRecursive sha512Half levels tree.root
    let n ← deref tree.root
    return n.hash

end SyncTree

end

end Xrpld.SHAMap
