import Xrpld.Lib.Prog
import Xrpld.SHAMap.NodeId

/-!
# Nodes

`xrpl/shamap/tree_node.rs` and `item.rs`. Nodes are shared by reference and changed in
place, so they live in a heap and are named by `Ref`. A node belongs to the tree whose
copy-on-write id it carries (`cowid`); `0` says that it is shared.

## The model

* The branches of an inner node are `slots`: a branch that is set has the hash of its
  child, and the child itself when it is loaded. The source packs the slots of the
  branches that are set into an array of 2, 4, 6 or 16 entries.
* A leaf always has an item; the source takes it away only when the node is destroyed.
* SHA-512 is the `sha2` crate's: its first 32 bytes are the parameter `sha512Half`.
* An assertion, an `expect` or an index out of bounds that fails is a `Fault`.
-/

namespace Xrpld.SHAMap

open Function (update update_self update_of_ne)

/-- `BRANCH_FACTOR` branches. -/
abbrev Branch := Fin 16

/-! ### Items -/

/-- `megabytes(16)`: the most bytes an item may have. -/
def maxItemBytes : ℕ := 16 * 1024 * 1024

/-- `MIN_SHAMAP_ITEM_BYTES`: the fewest bytes the item of a leaf may have. -/
def minItemBytes : ℕ := 12

structure SHAMapItem where
  key : Uint256
  data : List UInt8
  size_le : data.length ≤ maxItemBytes
  deriving DecidableEq

namespace SHAMapItem

def new (key : Uint256) (data : List UInt8) : Run SHAMapItem :=
  if h : data.length ≤ maxItemBytes then .ok ⟨key, data, h⟩
  else .error (.assertion "SHAMapItem data must not exceed 16 MB")

def size (item : SHAMapItem) : ℕ := item.data.length

end SHAMapItem

/-- An item of twelve bytes. -/
def twelveBytes (key : Uint256) : SHAMapItem := ⟨key, List.replicate 12 7, by decide⟩

/-- The leaf types of `SHAMapNodeType`. -/
inductive LeafType where
  | transactionNm
  | transactionMd
  | accountState
  deriving DecidableEq

inductive SHAMapNodeType where
  | inner
  | leaf (type : LeafType)
  deriving DecidableEq

/-! ### Hashes -/

/-- `HASH_PREFIX_INNER_NODE`, most significant byte first. -/
def hashPrefixInnerNode : List UInt8 := [0x4D, 0x49, 0x4E, 0x00]

/-- `HASH_PREFIX_TRANSACTION_ID`, `HASH_PREFIX_TX_NODE` and `HASH_PREFIX_LEAF_NODE`. -/
def LeafType.hashPrefix : LeafType → List UInt8
  | .transactionNm => [0x54, 0x58, 0x4E, 0x00]
  | .transactionMd => [0x53, 0x4E, 0x44, 0x00]
  | .accountState => [0x4D, 0x4C, 0x4E, 0x00]

/-- The bytes of a leaf without prefix or type: a plain transaction leaves its key out. -/
def leafPayload (type : LeafType) (item : SHAMapItem) : List UInt8 :=
  match type with
  | .transactionNm => item.data
  | .transactionMd | .accountState => item.data ++ item.key.data

/-- `serialize_leaf_with_prefix`: the bytes a leaf's hash is of. -/
def serializeLeafWithPrefix (type : LeafType) (item : SHAMapItem) : List UInt8 :=
  type.hashPrefix ++ leafPayload type item

/-- The bytes an inner node's hash is of. -/
def innerBytes (childHash : Branch → SHAMapHash) : List UInt8 :=
  hashPrefixInnerNode ++ (List.finRange 16).flatMap fun b => (childHash b).data

section

variable (sha512Half : Sha)

def computeLeafHash (type : LeafType) (item : SHAMapItem) : SHAMapHash :=
  sha512Half (serializeLeafWithPrefix type item)

end

/-! ### Nodes -/

/-- The name of a node. -/
abbrev Ref := ℕ

/-- A branch that is set. -/
structure Slot where
  hash : SHAMapHash
  /-- The child, when it is loaded. -/
  child : Option Ref
  deriving DecidableEq

/-- What the branches of a node have. -/
abbrev Slots := Branch → Option Slot

/-- What is particular to an inner node, and to a leaf. -/
inductive NodeBody where
  | inner (fullBelowGen : ℕ) (slots : Branch → Option Slot)
  | leaf (type : LeafType) (item : SHAMapItem)
  deriving DecidableEq

structure SHAMapTreeNode where
  hash : SHAMapHash
  cowid : ℕ
  body : NodeBody
  deriving DecidableEq

/-- The hash stored for a branch, zero where there is none. -/
def slotHash (slots : Branch → Option Slot) (b : Branch) : SHAMapHash :=
  match slots b with
  | none => 0
  | some slot => slot.hash

theorem slotHash_none {sl : Slots} {b : Branch} (h : sl b = none) : slotHash sl b = 0 := by
  rw [slotHash, h]

theorem slotHash_some {sl : Slots} {b : Branch} {slot : Slot} (h : sl b = some slot) : slotHash sl b = slot.hash := by
  rw [slotHash, h]

/-- The branches that are set. -/
def setBranches (slots : Branch → Option Slot) : List Branch :=
  (List.finRange 16).filter fun b => (slots b).isSome

theorem mem_setBranches {sl : Slots} {b : Branch} : b ∈ setBranches sl ↔ sl b ≠ none := by
  simp [setBranches, Option.isSome_iff_ne_none]

variable (n : SHAMapTreeNode)

namespace SHAMapTreeNode

def isInner : Bool :=
  match n.body with
  | .inner .. => true
  | .leaf .. => false

def isLeaf : Bool := !n.isInner

def getType : SHAMapNodeType :=
  match n.body with
  | .inner .. => .inner
  | .leaf type _ => .leaf type

/-- The slots of an inner node; a leaf has none set. -/
def slots : Branch → Option Slot :=
  match n.body with
  | .inner _ slots => slots
  | .leaf .. => fun _ => none

variable (b : Branch)

def isEmptyBranch : Bool := n.isInner && (n.slots b).isNone

def branchCount : ℕ := (setBranches n.slots).length

def isEmpty : Bool := n.isInner && n.branchCount == 0

def getChildHash : SHAMapHash := slotHash n.slots b

def getChild : Option Ref := (n.slots b).bind Slot.child

def peekItem : Option SHAMapItem :=
  match n.body with
  | .inner .. => none
  | .leaf _ item => some item

def newInner (cowid : ℕ) : SHAMapTreeNode := ⟨0, cowid, .inner 0 fun _ => none⟩

/-- The panic of a leaf whose item is too short. -/
def shortItem : Fault := .assertion "SHAMap leaf item payload below minimum size"

def newLeafWithHash (type : LeafType) (item : SHAMapItem) (cowid : ℕ) (hash : SHAMapHash) :
    Run SHAMapTreeNode :=
  if minItemBytes ≤ item.size then .ok ⟨hash, cowid, .leaf type item⟩ else .error shortItem

def cloneWithCowid (cowid : ℕ) : Run SHAMapTreeNode :=
  match n.body with
  | .leaf type item => newLeafWithHash type item cowid n.hash
  | .inner fullBelowGen slots => .ok ⟨n.hash, cowid, .inner fullBelowGen slots⟩

/-- The panic of a node that is changed although it is shared. -/
def sharedInner : Fault := .assertion "owned inner nodes must have a non-zero cowid"

/-- The panic of a leaf used as an inner node. -/
def innerOnLeaf : Fault := .assertion "inner operation on leaf"

/-- `set_child`: the hash of the branch and of the node are cleared. -/
def setChild (child : Option Ref) : Run SHAMapTreeNode :=
  if n.cowid = 0 then .error sharedInner
  else
    match n.body with
    | .leaf .. => .error innerOnLeaf
    | .inner fullBelowGen slots =>
      .ok ⟨0, n.cowid, .inner fullBelowGen (update slots b (child.map fun r => ⟨0, some r⟩))⟩

/-- `share_child`: the child of a branch that is set. -/
def shareChild (child : Ref) : Run SHAMapTreeNode :=
  if n.cowid = 0 then .error sharedInner
  else
    match n.body with
    | .leaf .. => .error innerOnLeaf
    | .inner fullBelowGen slots =>
      match slots b with
      | none => .error (.expect "branch must already exist")
      | some slot =>
        .ok ⟨n.hash, n.cowid, .inner fullBelowGen (update slots b (some ⟨slot.hash, some child⟩))⟩

def unshare : SHAMapTreeNode := { n with cowid := 0 }

def isFullBelow (generation : ℕ) : Bool :=
  match n.body with
  | .inner fullBelowGen _ => fullBelowGen == generation
  | .leaf .. => false

def setFullBelowGen (generation : ℕ) : SHAMapTreeNode :=
  match n.body with
  | .inner _ slots => { n with body := .inner generation slots }
  | .leaf .. => n

variable (sha512Half : Sha)

def newLeaf (type : LeafType) (item : SHAMapItem) (cowid : ℕ) : Run SHAMapTreeNode :=
  newLeafWithHash type item cowid (computeLeafHash sha512Half type item)

def computeInnerHash (slots : Branch → Option Slot) : SHAMapHash :=
  if (setBranches slots).isEmpty then 0 else sha512Half (innerBytes (slotHash slots))

def updateHash : SHAMapTreeNode :=
  match n.body with
  | .inner _ slots => { n with hash := computeInnerHash sha512Half slots }
  | .leaf type item => { n with hash := computeLeafHash sha512Half type item }

/-- `set_item`: whether the hash changed. -/
def setItem (item : SHAMapItem) : Run (Bool × SHAMapTreeNode) :=
  match n.body with
  | .inner .. => .error (.assertion "leaf operation on inner")
  | .leaf type _ =>
    if n.cowid = 0 then .error (.assertion "owned leaf nodes must have a non-zero cowid")
    else
      let next := computeLeafHash sha512Half type item
      .ok (decide (n.hash ≠ next), ⟨next, n.cowid, .leaf type item⟩)

end SHAMapTreeNode

/-! ### The heap -/

/-- The nodes in memory. -/
structure Heap where
  /-- The next name to give. -/
  next : Ref
  node : Ref → SHAMapTreeNode
  /-- How often the fetch callback has been called, so that it may answer differently each time. -/
  calls : ℕ

variable (h : Heap)

namespace Heap

/-- Replace a node. -/
def set (r : Ref) (n : SHAMapTreeNode) : Heap := { h with node := update h.node r n }

/-- Add a node. -/
def alloc (n : SHAMapTreeNode) : Heap :=
  { h with next := h.next + 1, node := update h.node h.next n }

@[simp] theorem node_set_self (r : Ref) (n : SHAMapTreeNode) : (h.set r n).node r = n :=
  update_self ..

theorem node_set_of_ne {h : Heap} {r q : Ref} (hq : q ≠ r) (n : SHAMapTreeNode) : (h.set r n).node q = h.node q :=
  update_of_ne hq ..

@[simp] theorem node_alloc_next (n : SHAMapTreeNode) : (h.alloc n).node h.next = n :=
  update_self ..

theorem node_alloc_of_lt {h : Heap} {q : Ref} (hq : q < h.next) (n : SHAMapTreeNode) : (h.alloc n).node q = h.node q :=
  update_of_ne (Nat.ne_of_lt hq) ..

end Heap

export Heap (node_set_self node_set_of_ne node_alloc_next node_alloc_of_lt)

/-- A program over the heap. -/
abbrev HeapM (ε α : Type) := Prog Fault Heap ε α

section

variable {ε : Type}

/-- The node of a name. -/
def deref (r : Ref) : HeapM ε SHAMapTreeNode := do
  return (← Prog.read).node r

/-- A new node. -/
def allocate : HeapM ε Ref := do
  let h ← Prog.read
  Prog.update (·.alloc n)
  return h.next

/-- Store a node under its name. -/
def store (r : Ref) (n : SHAMapTreeNode) : HeapM ε Unit := Prog.update (·.set r n)

/-- `canonicalize_child`: the child already there, or the given one once it is put there. -/
def canonicalizeChild (parent : Ref) (b : Branch) (node : Ref) : HeapM ε Ref := do
  let p ← deref parent
  let n ← deref node
  if n.hash ≠ p.getChildHash b then
    abort (.assertion "canonicalized node hash must match the stored branch hash")
  else
    match p.body with
    | .leaf .. => abort SHAMapTreeNode.innerOnLeaf
    | .inner fullBelowGen slots =>
      match slots b with
      | none => abort (.expect "branch must already exist")
      | some slot =>
        match slot.child with
        | some old => return old
        | none =>
          store parent
            ⟨p.hash, p.cowid, .inner fullBelowGen (update slots b (some ⟨slot.hash, some node⟩))⟩
          return node

/-- The slots with the hashes of the loaded children. -/
def refreshSlots (slots : Branch → Option Slot) : Branch → Option Slot := fun b =>
  (slots b).map fun slot =>
    match slot.child with
    | none => slot
    | some c => ⟨(h.node c).hash, some c⟩

def updateHashDeep (sha512Half : List UInt8 → Uint256) (r : Ref) : HeapM ε Unit := do
  let h ← Prog.read
  let n := h.node r
  match n.body with
  | .leaf .. => abort SHAMapTreeNode.innerOnLeaf
  | .inner fullBelowGen slots =>
    let slots := refreshSlots h slots
    store r ⟨SHAMapTreeNode.computeInnerHash sha512Half slots, n.cowid, .inner fullBelowGen slots⟩

end

end Xrpld.SHAMap
