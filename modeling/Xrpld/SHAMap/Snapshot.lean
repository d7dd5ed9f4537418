import Xrpld.SHAMap.FailedMutation

/-!
# Two trees over one heap

`mutable_snapshot` of `xrpl/shamap/mutation.rs` makes a second tree from a first one: every node that
is loaded is copied, and the copies are hashed and given up at once. From then on the two trees
are changed and flushed each on its own.

## The model

* `levels` is how deep the recursions go, `turns` how many nodes a delete looks at below one node.
* `Trees` is the heap with the two trees. A call is made on one of them; what it has changed when it
  returns an error stays changed.
-/

namespace Xrpld.SHAMap

section

variable (sha512Half : Sha) {ε : Type}

/-! ### Snapshots -/

/-- The loop of `clone_loaded_subtree_as_shareable` over the branches of a node. -/
def cloneBranches (clone : Ref → HeapM ε Ref) (node cloned : Ref) : List Branch → HeapM ε Unit
  | [] => return ()
  | b :: bs => do
    let n ← deref node
    match n.getChild b with
    | none => cloneBranches clone node cloned bs
    | some child => do
      let clonedChild ← clone child
      setChildAt cloned b (some clonedChild)
      cloneBranches clone node cloned bs

/-- The copy of a node: an inner node gets copies of its children, and both are hashed. -/
def fillClone (clone : Ref → HeapM ε Ref) (node cloned : Ref) : HeapM ε Unit := do
  let m ← deref cloned
  if m.isInner then do
    cloneBranches clone node cloned (List.finRange 16)
    updateHashDeep sha512Half cloned
  else store cloned (m.updateHash sha512Half)

def cloneLoadedSubtreeAsShareable (cowid : ℕ) : ℕ → Ref → HeapM ε Ref
  | 0, _ => abort .outOfFuel
  | levels + 1, node => do
    let n ← deref node
    let cloned ← allocate (← Prog.lift (n.cloneWithCowid cowid))
    fillClone sha512Half (cloneLoadedSubtreeAsShareable cowid levels) node cloned
    let m ← deref cloned
    store cloned m.unshare
    return cloned

def MutableTree.mutableSnapshot (tree : MutableTree) (levels nextCowid : ℕ) : HeapM ε MutableTree := do
  Prog.check (decide (tree.cowid < nextCowid)) (.assertion "mutable snapshots must advance cowid")
  return ⟨← cloneLoadedSubtreeAsShareable sha512Half nextCowid levels tree.root, nextCowid⟩

/-! ### Calls on two trees -/

/-- A call that changes or flushes a tree. -/
inductive TreeCall (ε : Type) where
  | addItem (type : LeafType) (item : SHAMapItem)
  | updateItem (type : LeafType) (item : SHAMapItem)
  | deleteItem (key : Uint256)
  | unshare
  | tryFlushDirty (write : Writer ε)

/-- The call. -/
def TreeCall.run (turns levels : ℕ) : TreeCall ε → Prog Fault Memory (MutationError ⊕ ε) Unit
  | .addItem type item => do
    let _ ← Prog.mapErr .inl (SHAMap.addItem sha512Half type item)
    return ()
  | .updateItem type item => do
    let _ ← Prog.mapErr .inl (SHAMap.updateItem sha512Half type item)
    return ()
  | .deleteItem key => do
    let _ ← Prog.mapErr .inl (SHAMap.deleteItem sha512Half turns key)
    return ()
  | .unshare => do
    let _ ← unshareTree sha512Half levels
    return ()
  | .tryFlushDirty write => do
    let _ ← Prog.mapErr .inr (SHAMap.tryFlushDirty sha512Half write levels)
    return ()

end

/-- The tree a snapshot was made of, or the snapshot. -/
inductive Side where
  | original
  | snapshot
  deriving DecidableEq

/-- The other one. -/
def Side.other : Side → Side
  | .original => .snapshot
  | .snapshot => .original

/-- The nodes and the two trees. -/
structure Trees where
  heap : Heap
  tree : Side → MutableTree

namespace Trees

/-- The heap with one of the trees. -/
def memory (side : Side) (s : Trees) : Memory := ⟨s.heap, s.tree side⟩

/-- The same, put back. -/
def put (side : Side) (m : Memory) (s : Trees) : Trees := ⟨m.heap, Function.update s.tree side m.tree⟩

end Trees

section

variable (sha512Half : Sha) {ε : Type}

/-- A call on one of the trees, whatever it returns. -/
def TreeCall.runOn (turns levels : ℕ) (side : Side) (call : TreeCall ε) : Prog Fault Trees Empty Unit := do
  let _ ← Prog.zoom (Trees.memory side) (Trees.put side) (Prog.attempt (call.run sha512Half turns levels))
  return ()

/-- Calls on the two trees, one after another. -/
def runTreeCalls (turns levels : ℕ) : List (Side × TreeCall ε) → Prog Fault Trees Empty Unit :=
  forEach fun (side, call) => call.runOn sha512Half turns levels side

end

/-! ### What is seen through a tree -/

/-- The item that `find_key` finds. -/
def MutableTree.findItem (tree : MutableTree) (key : Uint256) : HeapM TraversalError (Option SHAMapItem) := do
  match ← tree.findKey key with
  | none => return none
  | some leaf =>
    let n ← deref leaf
    return n.peekItem

/-- What looking for a key through a tree gives: an item or none, an error, or a panic. -/
def MutableTree.look (tree : MutableTree) (h : Heap) (key : Uint256) :
    Except Fault (Except TraversalError (Option SHAMapItem)) :=
  (tree.findItem key h).map Prod.fst

/-- **The same is seen through a tree**: for every key, and the root hash, the one the root has as well as the one it is
given when the tree is hashed. -/
structure SameView (sha512Half : List UInt8 → Uint256) (tree tree' : MutableTree) (h h' : Heap) : Prop where
  look : ∀ key, tree'.look h' key = tree.look h key
  hash : (h'.node tree'.root).hash = (h.node tree.root).hash
  hashBelow : ∀ n, hashBelow sha512Half h' n tree'.root = hashBelow sha512Half h n tree.root

end Xrpld.SHAMap
