import Xrpld.SHAMap.Search

/-!
# Changing a map

`MutableTree` of `xrpl/shamap/mutation.rs`. A tree owns the nodes that carry its `cowid`
and changes them in place; any other node is first copied (`unshareNode`). The nodes from
the place of a change up to the root then point to the new ones (`dirtyUp`), and their
hashes are cleared until the tree is next hashed (`unshare`).

## The model

* The state is the heap with the tree's root and `cowid`: what a call has changed when it
  returns an error stays changed.
* The targets of a call are leaves, so their type is a `LeafType`; the source asserts that
  it is not that of an inner node.
* A loop over the path from its end is a recursion that does the rest of the path first.
* `only_below_loaded_leaf` and `only_below_leaf_with_fetch` go down a chain of nodes, which a
  callback may make as long as it likes. `turns` is how many nodes they visit before the
  model gives up.
* The stack of `walk_subtree_impl` is the recursion of `walkNode`; `levels` is how deep it goes.
* The calls that walk with a callback and those that do not are one definition, but for the
  end of `delete_item`, which the two write differently.
-/

namespace Xrpld.SHAMap

variable {ε : Type} {F : Fault → Prop}

structure MutableTree where
  root : Ref
  cowid : ℕ
  deriving DecidableEq

/-- `MutationError`, as far as the calls on a tree return it. -/
inductive MutationError where
  | traversal (e : TraversalError)
  | rootMustBeInner
  | missingExactLeaf (key : Uint256)
  | crossTypeChange (requested existing : SHAMapNodeType)
  deriving DecidableEq

/-- The nodes and the tree. -/
structure Memory where
  heap : Heap
  tree : MutableTree

/-- A call on the tree. -/
abbrev TreeM (α : Type) := Prog Fault Memory MutationError α

/-- A program on the nodes. -/
def onHeap {ε α : Type} : HeapM ε α → Prog Fault Memory ε α := Prog.zoom Memory.heap fun h s => { s with heap := h }

theorem wp_onHeap {α : Type} {p : HeapM ε α} {Q : α → Memory → Prop} {E : ε → Memory → Prop} {s : Memory} : wp (onHeap p) Q E F s ↔
      wp p (fun a h => Q a ⟨h, s.tree⟩) (fun e h => E e ⟨h, s.tree⟩) F s.heap := wp_zoom ..

@[simp] theorem wp_onHeap_deref {Q : SHAMapTreeNode → Memory → Prop} {E : ε → Memory → Prop} {s : Memory} (r : Ref) : wp (onHeap (deref r)) Q E F s ↔ Q (s.heap.node r) s := Iff.rfl

/-- The assignment to `self.root`. -/
def setRoot {ε : Type} (root : Ref) : Prog Fault Memory ε Unit :=
  Prog.update fun s => { s with tree := { s.tree with root := root } }

/-- `set_child` on the node of a name. -/
def setChildAt {ε : Type} (node : Ref) (b : Branch) (child : Option Ref) : HeapM ε Unit := do
  let n ← deref node
  store node (← Prog.lift (n.setChild b child))

/-- `share_child` on the node of a name. -/
def shareChildAt {ε : Type} (node : Ref) (b : Branch) (child : Ref) : HeapM ε Unit := do
  let n ← deref node
  store node (← Prog.lift (n.shareChild b child))

/-! ### Paths -/

def unshareNode (node : Ref) (nodeId : SHAMapNodeId) : TreeM Ref := do
  let s ← Prog.read
  let n := s.heap.node node
  if s.tree.cowid < n.cowid then abort (.assertion "node valid for cowid")
  else if n.cowid = s.tree.cowid then return node
  else
    let cloned ← Prog.lift (n.cloneWithCowid s.tree.cowid)
    let r ← onHeap (allocate cloned)
    if nodeId.isRoot then
      setRoot r
      return r
    else return r

def dirtyUp (target : Uint256) : List NodePathEntry → Ref → TreeM Ref
  | [], child => return child
  | entry :: path, child => do
    let child ← dirtyUp target path child
    let branch ← Prog.lift (selectBranch entry.nodeId target)
    let node ← unshareNode entry.node entry.nodeId
    onHeap (setChildAt node branch (some child))
    return node

/-- `walk_towards_key_with_path` from the tree's root. -/
def walkTree (target : Uint256) (backed : Bool) (fetch : Fetch) : TreeM (Option Ref × List NodePathEntry) := do
  let s ← Prog.read
  Prog.mapErr .traversal (onHeap (walkTowardsKeyWithPath s.tree.root target backed fetch))

/-! ### Adding an item -/

section

variable (sha512Half : Sha)

/-- `new_leaf`, with the tree's `cowid`. -/
def newLeafNode (type : LeafType) (item : SHAMapItem) : TreeM Ref := do
  let s ← Prog.read
  let leaf ← Prog.lift (SHAMapTreeNode.newLeaf sha512Half type item s.tree.cowid)
  onHeap (allocate leaf)

/-- `new_inner`, with the tree's `cowid`. -/
def newInnerNode : TreeM Ref := do
  let s ← Prog.read
  onHeap (allocate (SHAMapTreeNode.newInner s.tree.cowid))

variable (path : List NodePathEntry)

def addIntoEmptyBranch (target : Uint256) (type : LeafType) (item : SHAMapItem) :
    TreeM Bool := do
  match path.getLast? with
  | none => Prog.fail .rootMustBeInner
  | some parentEntry =>
    let branch ← Prog.lift (selectBranch parentEntry.nodeId target)
    let parent ← unshareNode parentEntry.node parentEntry.nodeId
    let leaf ← newLeafNode sha512Half type item
    onHeap (setChildAt parent branch (some leaf))
    setRoot (← dirtyUp target path.dropLast parent)
    return true

/-- The loop of `add_with_leaf_split`: inner nodes until the two keys part. -/
def splitLoop (type : LeafType) (item existing : SHAMapItem) :
    ℕ → List NodePathEntry → SHAMapNodeId → Ref → TreeM Bool
  | 0, _, _, _ => abort .outOfFuel
  | n + 1, graftStack, nodeId, splitNode => do
    let newBranch ← Prog.lift (selectBranch nodeId item.key)
    let oldBranch ← Prog.lift (selectBranch nodeId existing.key)
    if newBranch ≠ oldBranch then
      let new ← newLeafNode sha512Half type item
      onHeap (setChildAt splitNode newBranch (some new))
      let old ← newLeafNode sha512Half type existing
      onHeap (setChildAt splitNode oldBranch (some old))
      setRoot (← dirtyUp item.key graftStack splitNode)
      return true
    else
      match nodeId.getChildNodeId newBranch with
      | .error _ => abort (.expect "split branches must remain within SHAMap depth bounds")
      | .ok childId =>
        let next ← newInnerNode
        splitLoop type item existing n (graftStack ++ [⟨splitNode, nodeId⟩]) childId next

def addWithLeafSplit (leaf : Ref) (type : LeafType) (item : SHAMapItem) :
    TreeM Bool := do
  match path.getLast? with
  | none => Prog.fail .rootMustBeInner
  | some leafEntry =>
    let n ← onHeap (deref leaf)
    match n.peekItem with
    | none => Prog.fail (.missingExactLeaf item.key)
    | some existing =>
      if existing.key = item.key then return false
      else if n.getType ≠ .leaf type then Prog.fail (.crossTypeChange (.leaf type) n.getType)
      else
        let splitNode ← newInnerNode
        splitLoop sha512Half type item existing (leafDepth + 1) path.dropLast leafEntry.nodeId splitNode

/-- The common body of `add_item` and `add_item_with_fetch`. -/
def addItemWalk (backed : Bool) (fetch : Fetch) (type : LeafType) (item : SHAMapItem) : TreeM Bool := do
  let (terminal, path) ← walkTree item.key backed fetch
  match terminal with
  | none => addIntoEmptyBranch sha512Half path item.key type item
  | some leaf => addWithLeafSplit sha512Half path leaf type item

def addItem (type : LeafType) (item : SHAMapItem) : TreeM Bool := addItemWalk sha512Half false noFetch type item

def addItemWithFetch (type : LeafType) (item : SHAMapItem) (fetch : Fetch) : TreeM Bool :=
  addItemWalk sha512Half true fetch type item

/-! ### Replacing an item -/

/-- The end of `update_item`, once the leaf with the item's key is found. -/
def replaceItem (leafEntry : NodePathEntry) (leaf : Ref) (item : SHAMapItem) :
    TreeM Bool := do
  let leaf ← unshareNode leaf leafEntry.nodeId
  let n ← onHeap (deref leaf)
  let (changed, n') ← Prog.lift (n.setItem sha512Half item)
  onHeap (store leaf n')
  if changed then
    setRoot (← dirtyUp item.key path.dropLast leaf)
    return true
  else return true

/-- The common body of `update_item` and `update_item_with_fetch`. -/
def updateItemWalk (backed : Bool) (fetch : Fetch) (type : LeafType) (item : SHAMapItem) : TreeM Bool := do
  let (terminal, path) ← walkTree item.key backed fetch
  match terminal, path.getLast? with
  | some leaf, some leafEntry =>
    let n ← onHeap (deref leaf)
    match n.peekItem with
    | none => Prog.fail (.missingExactLeaf item.key)
    | some existing =>
      if existing.key ≠ item.key then Prog.fail (.missingExactLeaf item.key)
      else if n.getType ≠ .leaf type then Prog.fail (.crossTypeChange (.leaf type) n.getType)
      else replaceItem sha512Half path leafEntry leaf item
  | _, _ => Prog.fail (.missingExactLeaf item.key)

def updateItem (type : LeafType) (item : SHAMapItem) : TreeM Bool :=
  updateItemWalk sha512Half false noFetch type item

def updateItemWithFetch (type : LeafType) (item : SHAMapItem) (fetch : Fetch) : TreeM Bool :=
  updateItemWalk sha512Half true fetch type item

end

/-! ### Deleting an item -/

/-- `select_only_branch`: the first branch that is set. -/
def selectOnlyBranch (n : SHAMapTreeNode) : Option Branch :=
  (List.finRange 16).find? fun b => !n.isEmptyBranch b

/-- The scan of one node in `only_below_loaded_leaf`: its one child, if that is loaded. -/
def onlyChild (n : SHAMapTreeNode) : List Branch → Option Ref → Option Ref
  | [], next => next
  | b :: bs, next =>
    if n.isEmptyBranch b then onlyChild n bs next
    else
      match n.getChild b with
      | none => none
      | some child => if next.isSome then none else onlyChild n bs (some child)

def onlyBelowLoadedLeaf {ε : Type} : ℕ → Ref → HeapM ε (Option Ref)
  | 0, _ => abort .outOfFuel
  | turns + 1, node => do
    let n ← deref node
    if n.isInner then
      match onlyChild n (List.finRange 16) none with
      | none => return none
      | some child => onlyBelowLoadedLeaf turns child
    else return some node

def onlyBelowLeafWithFetch (fetch : Fetch) : ℕ → Ref → HeapM MutationError (Option Ref)
  | 0, _ => abort .outOfFuel
  | turns + 1, node => do
    let n ← deref node
    if n.isInner then
      match selectOnlyBranch n with
      | none => return none
      | some b =>
        if n.branchCount ≠ 1 then return none
        else
          match n.getChild b with
          | some child => onlyBelowLeafWithFetch fetch turns child
          | none =>
            match ← callFetch fetch (n.getChildHash b) with
            | none => Prog.fail (.traversal (.missingNode (n.getChildHash b)))
            | some child => onlyBelowLeafWithFetch fetch turns child
    else return some node

/-- The item and type of the leaf a chain ends in. -/
def soleItem (message : String) (n : SHAMapTreeNode) : Run (LeafType × SHAMapItem) :=
  match n.body with
  | .inner .. => .error (.expect message)
  | .leaf type item => .ok (type, item)

section

variable (sha512Half : Sha)

/-- What `delete_item` does with a node that has one branch left. -/
def collapseLoaded (turns : ℕ) (node : Ref) : TreeM (Option Ref) := do
  match ← onHeap (onlyBelowLoadedLeaf turns node) with
  | none => return some node
  | some leaf =>
    let n ← onHeap (deref node)
    match selectOnlyBranch n with
    | none => abort (.expect "single-branch inner nodes must expose one branch index")
    | some b =>
      let sole ← onHeap (deref leaf)
      let (type, item) ← Prog.lift (soleItem "collapsed sole leaf should carry an item" sole)
      onHeap (setChildAt node b none)
      return some (← newLeafNode sha512Half type item)

/-- What `delete_item_with_fetch` does with a node that has one branch left. -/
def collapseWithFetch (fetch : Fetch) (turns : ℕ) (node : Ref) : TreeM (Option Ref) := do
  match ← onHeap (onlyBelowLeafWithFetch fetch turns node) with
  | none => return some node
  | some leaf =>
    let sole ← onHeap (deref leaf)
    let (type, item) ← Prog.lift (soleItem "leaf must have item" sole)
    return some (← newLeafNode sha512Half type item)

end

/-- The turn of the loop of `delete_item` for a node that is not the root. -/
def deleteStep (collapse : Ref → TreeM (Option Ref)) (node : Ref) : TreeM (Option Ref) := do
  let n ← onHeap (deref node)
  match n.branchCount with
  | 0 => return none
  | 1 => collapse node
  | _ => return some node

/-- The loop of `delete_item`: what the node above is to point to. -/
def deleteLoop (collapse : Ref → TreeM (Option Ref)) (target : Uint256) :
    List NodePathEntry → TreeM (Option Ref)
  | [] => return none
  | entry :: path => do
    let prevNode ← deleteLoop collapse target path
    let node ← unshareNode entry.node entry.nodeId
    let branch ← Prog.lift (selectBranch entry.nodeId target)
    onHeap (setChildAt node branch prevNode)
    if entry.nodeId.isRoot then
      setRoot node
      return none
    else deleteStep collapse node

/-- The common body of `delete_item` and `delete_item_with_fetch`. -/
def deleteItemWalk (backed : Bool) (fetch : Fetch) (collapse : Ref → TreeM (Option Ref)) (target : Uint256) :
    TreeM Bool := do
  let (leaf, path) ← walkTree target backed fetch
  match leaf with
  | none => return false
  | some leaf =>
    let n ← onHeap (deref leaf)
    match n.peekItem with
    | none => return false
    | some existing =>
      if existing.key ≠ target then return false
      else
        let _ ← deleteLoop collapse target path.dropLast
        return true

section

variable (sha512Half : Sha)

def deleteItem (turns : ℕ) (target : Uint256) : TreeM Bool :=
  deleteItemWalk false noFetch (collapseLoaded sha512Half turns) target

def deleteItemWithFetch (turns : ℕ) (target : Uint256) (fetch : Fetch) : TreeM Bool :=
  deleteItemWalk true fetch (collapseWithFetch sha512Half fetch turns) target

/-! ### Hashing a tree -/

def preFlushNode (node : Ref) (owner : ℕ) : HeapM ε Ref := do
  let n ← deref node
  if n.cowid = owner then return node
  else allocate (← Prog.lift (n.cloneWithCowid owner))

/-- Hash a leaf and give it up. -/
def flushLeaf (leaf : Ref) : HeapM ε Unit := do
  let n ← deref leaf
  store leaf (n.updateHash sha512Half).unshare

/-- A child that the tree owns by now: an inner node is walked over, a leaf hashed. -/
def flushChild (walk : Ref → HeapM ε ℕ) (child : Ref) : HeapM ε ℕ := do
  let m ← deref child
  if m.isInner then walk child
  else
    flushLeaf sha512Half child
    return 1

/-- The loop of `walk_subtree_impl` over the branches of one node, from a branch on: how many nodes were
hashed. -/
def walkBranches (walk : Ref → HeapM ε ℕ) (owner : ℕ) (node : Ref) : List Branch → HeapM ε ℕ
  | [] => return 0
  | b :: bs => do
    let n ← deref node
    match n.getChild b with
    | none => walkBranches walk owner node bs
    | some child =>
      let m ← deref child
      if m.cowid = 0 then walkBranches walk owner node bs
      else
        let child ← preFlushNode child owner
        let flushed ← flushChild sha512Half walk child
        shareChildAt node b child
        return flushed + (← walkBranches walk owner node bs)

/-- The loop of `walk_subtree_impl` for one inner node and what is below it. -/
def walkNode (owner : ℕ) : ℕ → Ref → HeapM ε ℕ
  | 0, _ => abort .outOfFuel
  | levels + 1, node => do
    let flushed ← walkBranches sha512Half (walkNode owner levels) owner node (List.finRange 16)
    updateHashDeep sha512Half node
    let n ← deref node
    store node n.unshare
    return flushed + 1

/-- `walk_subtree_impl` without a writer. -/
def walkSubtreeImpl (levels : ℕ) (root : Ref) (owner : ℕ) : HeapM ε (Ref × ℕ) := do
  let n ← deref root
  if n.cowid = 0 then return (root, 0)
  else if n.isLeaf then
    let root ← preFlushNode root owner
    flushLeaf sha512Half root
    return (root, 1)
  else if n.isEmpty then return (← allocate (SHAMapTreeNode.newInner 0), 1)
  else
    let node ← preFlushNode root owner
    let flushed ← walkNode sha512Half owner levels node
    return (node, flushed)

/-- `unshare`: hash the tree. -/
def unshareTree (levels : ℕ) : Prog Fault Memory ε ℕ := do
  let s ← Prog.read
  let (root, count) ← onHeap (walkSubtreeImpl sha512Half levels s.tree.root s.tree.cowid)
  setRoot root
  return count

end

def MutableTree.findKey (tree : MutableTree) (key : Uint256) : HeapM TraversalError (Option Ref) :=
  SHAMap.findKey tree.root key false noFetch

end Xrpld.SHAMap
