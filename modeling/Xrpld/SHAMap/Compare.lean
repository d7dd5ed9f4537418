import Xrpld.SHAMap.Search

/-!
# Comparing two maps

`compare` of `xrpl/shamap/compare.rs`: which keys have different items in two maps. The two trees are
walked side by side, and where the hashes of two branches agree nothing below them is looked at.

## The model

* The nodes of both trees are in one heap, so they may share some. The two callbacks are told apart.
* `differences` and `max_count` are kept beside the heap. A `Delta` is its entries in the order they
  were put in.
* The stacks are lists with their top first. The loops take the number of `turns` they may make, and
  `ensure_loaded_hashes` the number of `levels` it may go down.
-/

namespace Xrpld.SHAMap

/-- `DeltaItem`: the item on the left and on the right. -/
abbrev DeltaItem := Option SHAMapItem × Option SHAMapItem

abbrev Delta := List (Uint256 × DeltaItem)

/-- `entry(key).or_insert(item)`. -/
def Delta.orInsert (delta : Delta) (key : Uint256) (item : DeltaItem) : Delta :=
  if key ∈ delta.map Prod.fst then delta else delta ++ [(key, item)]

/-- What a comparison works on. -/
structure Comparison where
  heap : Heap
  differences : Delta
  maxCount : ℤ

/-- A part of a comparison. -/
abbrev CompareM (α : Type) := Prog Fault Comparison TraversalError α

/-- A program over the heap as a part of a comparison. -/
def withHeap {α : Type} (p : HeapM TraversalError α) : CompareM α :=
  Prog.zoom Comparison.heap (fun heap s => { s with heap }) p

/-- `i32::MIN`. -/
def i32Min : ℤ := -2 ^ 31

/-- `record_difference`: whether more may be recorded. -/
def recordDifference (key : Uint256) (item : DeltaItem) : CompareM Bool := do
  let s ← Prog.read
  if s.maxCount = i32Min then abort .overflow
  else do
    Prog.update fun s => { s with differences := s.differences.orInsert key item, maxCount := s.maxCount - 1 }
    return decide (0 < s.maxCount - 1)

/-- The panic of a leaf without an item. -/
def leafWithoutItem : Fault := .expect "leaf nodes should carry an item"

/-- The panic of a branch without a child. -/
def branchWithoutChild : Fault := .expect "non-empty branches should resolve to a child or error"

/-- The panic of a walk without an item to compare with. -/
def walkWithoutItem : Fault := .expect "a non-empty comparison branch should keep its leaf"

/-- An entry as the first map has it, or the other one. -/
def deltaItem (isFirstMap : Bool) (item other : Option SHAMapItem) : DeltaItem :=
  if isFirstMap then (item, other) else (other, item)

/-- A child that is there, loaded. -/
def descendExpect (node : Ref) (b : Branch) (backed : Bool) (fetch : Fetch) : CompareM Ref := do
  match ← withHeap (descendThrow node b backed fetch) with
  | none => abort branchWithoutChild
  | some child => return child

section

variable (backed : Bool) (fetch : Fetch)

/-- The loop of `walk_branch` over the branches of a node. -/
def pushChildren (node : Ref) : List Branch → List Ref → CompareM (List Ref)
  | [], nodeStack => return nodeStack
  | b :: bs, nodeStack => do
    let n ← withHeap (deref node)
    if n.isEmptyBranch b then pushChildren node bs nodeStack
    else do
      let child ← descendExpect node b backed fetch
      pushChildren node bs (child :: nodeStack)

/-- The loop of `walk_branch`: nothing when no more may be recorded, else whether the item of the other
map was met. -/
def walkBranchLoop (otherMapItem : Option SHAMapItem) (isFirstMap : Bool) :
    ℕ → Bool → List Ref → CompareM (Option Bool)
  | 0, _, _ => abort .outOfFuel
  | _ + 1, emptyBranch, [] => return some emptyBranch
  | turns + 1, emptyBranch, node :: nodeStack => do
    let n ← withHeap (deref node)
    if n.isInner then do
      let nodeStack ← pushChildren backed fetch node (List.finRange 16) nodeStack
      walkBranchLoop otherMapItem isFirstMap turns emptyBranch nodeStack
    else
      match n.peekItem with
      | none => abort leafWithoutItem
      | some item =>
        if emptyBranch then do
          if ← recordDifference item.key (deltaItem isFirstMap (some item) none) then
            walkBranchLoop otherMapItem isFirstMap turns true nodeStack
          else return none
        else
          match otherMapItem with
          | none => abort walkWithoutItem
          | some otherItem =>
            if item.key ≠ otherItem.key then do
              if ← recordDifference item.key (deltaItem isFirstMap (some item) none) then
                walkBranchLoop otherMapItem isFirstMap turns false nodeStack
              else return none
            else if item.data ≠ otherItem.data then do
              if ← recordDifference item.key (deltaItem isFirstMap (some item) (some otherItem)) then
                walkBranchLoop otherMapItem isFirstMap turns true nodeStack
              else return none
            else walkBranchLoop otherMapItem isFirstMap turns true nodeStack

/-- `walk_branch`: all that is below a node, against one item of the other map or none. -/
def walkBranch (turns : ℕ) (node : Ref) (otherMapItem : Option SHAMapItem) (isFirstMap : Bool) : CompareM Bool := do
  match ← walkBranchLoop backed fetch otherMapItem isFirstMap turns otherMapItem.isNone [node] with
  | none => return false
  | some true => return true
  | some false =>
    match otherMapItem with
    | none => abort walkWithoutItem
    | some otherItem => recordDifference otherItem.key (deltaItem isFirstMap none (some otherItem))

end

/-- `compare` at two leaves. -/
def compareLeaves (leftItem rightItem : SHAMapItem) : CompareM Bool :=
  if leftItem.key = rightItem.key then
    if leftItem.data ≠ rightItem.data then recordDifference leftItem.key (some leftItem, some rightItem)
    else return true
  else do
    if ← recordDifference leftItem.key (some leftItem, none) then
      recordDifference rightItem.key (none, some rightItem)
    else return false

section

variable (leftBacked : Bool) (leftFetch : Fetch) (rightBacked : Bool) (rightFetch : Fetch) (turns : ℕ)

/-- The loop of `compare` over the branches of two inner nodes: the new stack, or nothing when no more may be
recorded. -/
def compareBranches (left right : Ref) :
    List Branch → List (Ref × Ref) → CompareM (Option (List (Ref × Ref)))
  | [], stack => return some stack
  | b :: bs, stack => do
    let l ← withHeap (deref left)
    let r ← withHeap (deref right)
    if l.getChildHash b = r.getChildHash b then compareBranches left right bs stack
    else if r.isEmptyBranch b then do
      let leftChild ← descendExpect left b leftBacked leftFetch
      if ← walkBranch leftBacked leftFetch turns leftChild none true then compareBranches left right bs stack
      else return none
    else if l.isEmptyBranch b then do
      let rightChild ← descendExpect right b rightBacked rightFetch
      if ← walkBranch rightBacked rightFetch turns rightChild none false then compareBranches left right bs stack
      else return none
    else do
      let leftChild ← descendExpect left b leftBacked leftFetch
      let rightChild ← descendExpect right b rightBacked rightFetch
      compareBranches left right bs ((leftChild, rightChild) :: stack)

/-- `compare` at two nodes. -/
def comparePair (left right : Ref) (stack : List (Ref × Ref)) : CompareM (Option (List (Ref × Ref))) := do
  let l ← withHeap (deref left)
  let r ← withHeap (deref right)
  match l.peekItem, r.peekItem with
  | some leftItem, some rightItem => return if ← compareLeaves leftItem rightItem then some stack else none
  | none, some rightItem =>
    return if ← walkBranch leftBacked leftFetch turns left (some rightItem) true then some stack else none
  | some leftItem, none =>
    return if ← walkBranch rightBacked rightFetch turns right (some leftItem) false then some stack else none
  | none, none => compareBranches leftBacked leftFetch rightBacked rightFetch turns left right (List.finRange 16) stack

/-- The loop of `compare` over its stack. -/
def compareLoop : ℕ → List (Ref × Ref) → CompareM Bool
  | 0, _ => abort .outOfFuel
  | _ + 1, [] => return true
  | fuel + 1, (left, right) :: stack => do
    match ← comparePair leftBacked leftFetch rightBacked rightFetch turns left right stack with
    | none => return false
    | some stack => compareLoop fuel stack

end

section

variable (sha512Half : Sha) {ε : Type}

def ensureLoadedHashes : ℕ → Ref → HeapM ε Unit
  | 0, _ => abort .outOfFuel
  | levels + 1, node => do
    let n ← deref node
    if n.hash ≠ 0 then return ()
    else if n.isInner then do
      forEach (fun b => do
        let n ← deref node
        if n.isEmptyBranch b then return ()
        else whenSome (n.getChild b) (ensureLoadedHashes levels)) (List.finRange 16)
      updateHashDeep sha512Half node
    else store node (n.updateHash sha512Half)

protected def compare (levels turns : ℕ) (leftRoot rightRoot : Ref) (leftBacked : Bool) (leftFetch : Fetch)
    (rightBacked : Bool) (rightFetch : Fetch) : CompareM Bool := do
  withHeap (ensureLoadedHashes sha512Half levels leftRoot)
  withHeap (ensureLoadedHashes sha512Half levels rightRoot)
  let l ← withHeap (deref leftRoot)
  let r ← withHeap (deref rightRoot)
  if l.hash = r.hash then return true
  else compareLoop leftBacked leftFetch rightBacked rightFetch turns turns [(leftRoot, rightRoot)]

end

end Xrpld.SHAMap
