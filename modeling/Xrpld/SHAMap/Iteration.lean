import Xrpld.SHAMap.Search

/-!
# Items in the order of their keys

`xrpl/shamap/iteration.rs`: the first item of a map and the next one after it, the closest items above and
below an identifier, and the items after an identifier up to a limit.

## The model

A cursor is a stack of the nodes from the root down. It is a list whose first element was pushed last,
so `walk_towards_key_with_path` gives it in reverse. When a call returns an error, what the source has
pushed until then is not told.

`extreme_below` goes down at most 64 levels. The seeking loop of `iterate_from` has no bound of its own: it is
given turns. `visitItems` is the loop in which `tx_snapshot` follows the items.
-/

namespace Xrpld.SHAMap

/-- The nodes of a cursor, the deepest first. -/
abbrev Stack := List NodePathEntry

/-- The branches `start..16`. -/
def branchesFrom (start : ℕ) : List Branch := (List.finRange 16).filter fun b => start ≤ b.val

/-- The branches `(0..stop).rev()`. -/
def branchesDownFrom (stop : ℕ) : List Branch := ((List.finRange 16).filter fun b => b.val < stop).reverse

variable (backed : Bool) (fetch : Fetch)

/-- The child of the first branch that is not empty, and its position. -/
def firstChildIn (node : Ref) (nodeId : SHAMapNodeId) :
    List Branch → HeapM TraversalError (Option (Ref × SHAMapNodeId))
  | [] => return none
  | branch :: branches => do
    let n ← deref node
    if n.isEmptyBranch branch then firstChildIn node nodeId branches
    else
      match ← descendThrow node branch backed fetch with
      | none => abort (.expect "non-empty branches should resolve to a child or error")
      | some child =>
        match nodeId.getChildNodeId branch with
        | .error _ => abort (.expect "branch selection must stay within SHAMap depth bounds")
        | .ok childId => return some (child, childId)

def nextChildInOrder (node : Ref) (nodeId : SHAMapNodeId) : HeapM TraversalError (Option (Ref × SHAMapNodeId)) :=
  firstChildIn backed fetch node nodeId (branchesFrom 0)

def previousChildInOrder (node : Ref) (nodeId : SHAMapNodeId) : HeapM TraversalError (Option (Ref × SHAMapNodeId)) :=
  firstChildIn backed fetch node nodeId (branchesDownFrom 16)

/-- `extreme_below`: the leaf, if there is one, and the stack it is on. -/
def extremeBelow (forward : Bool) :
    ℕ → Ref → SHAMapNodeId → Stack → HeapM TraversalError (Option Ref × Stack)
  | 0, _, _, _ => abort .outOfFuel
  | n + 1, node, nodeId, stack => do
    let nd ← deref node
    if nd.isLeaf then return (some node, ⟨node, nodeId⟩ :: stack)
    else
      match ← (if forward then nextChildInOrder backed fetch node nodeId
          else previousChildInOrder backed fetch node nodeId) with
      | none => return (none, ⟨node, nodeId⟩ :: stack)
      | some (child, childId) => extremeBelow forward n child childId (⟨node, nodeId⟩ :: stack)

variable (root : Ref)

def firstBelow (rootId : SHAMapNodeId) (stack : Stack) : HeapM TraversalError (Option Ref × Stack) :=
  extremeBelow backed fetch true (leafDepth + 1) root rootId stack

def lastBelow (rootId : SHAMapNodeId) (stack : Stack) : HeapM TraversalError (Option Ref × Stack) :=
  extremeBelow backed fetch false (leafDepth + 1) root rootId stack

/-- `peek_first_item`: the stack that was there is cleared. -/
def peekFirstItem : HeapM TraversalError (Option Ref × Stack) := do
  let (leaf, stack) ← firstBelow backed fetch root .root []
  if leaf.isNone then return (leaf, []) else return (leaf, stack)

/-- The loop of `peek_next_item`. -/
def peekNextLoop (id : Uint256) : Stack → HeapM TraversalError (Option Ref × Stack)
  | [] => return (none, [])
  | entry :: stack => do
    let n ← deref entry.node
    if n.isInner then
      let branch ← Prog.lift (selectBranch entry.nodeId id)
      match ← firstChildIn backed fetch entry.node entry.nodeId (branchesFrom (branch.val + 1)) with
      | some (child, childId) => firstBelow backed fetch child childId (entry :: stack)
      | none => peekNextLoop id stack
    else abort (.assertion "non-leaf stack entries must be inner")

def peekNextItem (id : Uint256) : Stack → HeapM TraversalError (Option Ref × Stack)
  | [] => abort (.assertion "peek_next_item requires a non-empty stack from peek_first_item")
  | entry :: stack => do
    let n ← deref entry.node
    if n.isLeaf then peekNextLoop backed fetch id stack
    else abort (.assertion "peek_next_item expects the stack to end with a leaf")

/-- The loop of `upper_bound`. -/
def upperBoundLoop (id : Uint256) : Stack → HeapM TraversalError (Option Ref)
  | [] => return none
  | entry :: stack => do
    let n ← deref entry.node
    if n.isLeaf then
      if n.peekItem.any fun item => id < item.key then return some entry.node else upperBoundLoop id stack
    else
      let branch ← Prog.lift (selectBranch entry.nodeId id)
      match ← firstChildIn backed fetch entry.node entry.nodeId (branchesFrom (branch.val + 1)) with
      | some (child, childId) => do
        let (leaf, _) ← firstBelow backed fetch child childId []
        return leaf
      | none => upperBoundLoop id stack

def upperBound (id : Uint256) : HeapM TraversalError (Option Ref) := do
  let (_, path) ← walkTowardsKeyWithPath root id backed fetch
  upperBoundLoop backed fetch id path.reverse

/-- The loop of `lower_bound`. -/
def lowerBoundLoop (id : Uint256) : Stack → HeapM TraversalError (Option Ref)
  | [] => return none
  | entry :: stack => do
    let n ← deref entry.node
    if n.isLeaf then
      if n.peekItem.any fun item => item.key < id then return some entry.node else lowerBoundLoop id stack
    else
      let branch ← Prog.lift (selectBranch entry.nodeId id)
      match ← firstChildIn backed fetch entry.node entry.nodeId (branchesDownFrom branch.val) with
      | some (child, childId) => do
        let (leaf, _) ← lastBelow backed fetch child childId []
        return leaf
      | none => lowerBoundLoop id stack

def lowerBound (id : Uint256) : HeapM TraversalError (Option Ref) := do
  let (_, path) ← walkTowardsKeyWithPath root id backed fetch
  lowerBoundLoop backed fetch id path.reverse

/-! ### Iterating from an identifier -/

/-- The seeking loop of `iterate_from_inner`: the first leaf after `start`, and the stack that ends with it. A child
without leaves is left on the stack. -/
def seekLoop (start : Uint256) : ℕ → Stack → HeapM TraversalError (Option (Ref × Stack))
  | 0, _ => abort .outOfFuel
  | _ + 1, [] => return none
  | turns + 1, entry :: stack => do
    let n ← deref entry.node
    if n.isLeaf then
      if n.peekItem.any fun item => start < item.key then return some (entry.node, entry :: stack)
      else seekLoop start turns stack
    else
      let branch ← Prog.lift (selectBranch entry.nodeId start)
      match ← firstChildIn backed fetch entry.node entry.nodeId (branchesFrom (branch.val + 1)) with
      | none => seekLoop start turns stack
      | some (child, childId) =>
        match ← firstBelow backed fetch child childId (entry :: stack) with
        | (some leaf, stack) => return some (leaf, stack)
        | (none, stack) => seekLoop start turns stack

/-- The key of a leaf: `peek_item().expect(..).key()`. -/
def leafKey (leaf : Ref) : HeapM TraversalError Uint256 := do
  let n ← deref leaf
  match n.peekItem with
  | none => abort (.expect "a leaf node must always carry an item")
  | some item => return item.key

/-- The collecting loop of `iterate_from_inner`: up to so many leaves after the one on the stack. -/
def collectLoop : ℕ → Uint256 → Stack → HeapM TraversalError (List Ref)
  | 0, _, _ => return []
  | n + 1, currentKey, stack => do
    match ← peekNextItem backed fetch currentKey stack with
    | (none, _) => return []
    | (some leaf, stack) => do
      let key ← leafKey leaf
      let rest ← collectLoop n key stack
      return leaf :: rest

def iterateFromInner (turns : ℕ) (root : Ref) (start : Uint256) (limit : ℕ) : HeapM TraversalError (List Ref) := do
  let (_, path) ← walkTowardsKeyWithPath root start backed fetch
  match ← seekLoop backed fetch start turns path.reverse with
  | none => return []
  | some (firstLeaf, stack) => do
    let key ← leafKey firstLeaf
    let rest ← collectLoop backed fetch (limit - 1) key stack
    return firstLeaf :: rest

def iterateFrom (turns : ℕ) (root : Ref) (start : Uint256) (limit : ℕ) : HeapM TraversalError (List Ref) :=
  if limit = 0 then return [] else iterateFromInner backed fetch turns root start limit

/-! ### Following the items -/

/-- Follow the items after the one on the stack until there is none. -/
def visitLoop : ℕ → Option Ref → Stack → HeapM TraversalError (List Ref)
  | 0, _, _ => abort .outOfFuel
  | _ + 1, none, _ => return []
  | turns + 1, some leaf, stack => do
    let key ← leafKey leaf
    let (next, stack) ← peekNextItem backed fetch key stack
    let rest ← visitLoop turns next stack
    return leaf :: rest

/-- Follow `peek_first_item` and `peek_next_item`, as `tx_snapshot` does. -/
def visitItems (turns : ℕ) (root : Ref) : HeapM TraversalError (List Ref) := do
  let (first, stack) ← peekFirstItem backed fetch root
  visitLoop backed fetch turns first stack

end Xrpld.SHAMap
