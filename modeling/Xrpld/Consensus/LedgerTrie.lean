import Xrpld.Basics.Uint256

/-!
# The ancestry trie of ledgers

`LedgerTrie` of `xrpld/consensus/model/ledger_trie.rs`: a compressed trie of the ledgers that
validators have validated. A node stands for a span of the ancestry of a ledger; it counts the
support for the last ledger of its span (`tipSupport`), and for that ledger and all that descend
from it (`branchSupport`).

## The model

* Nodes live in an arena: `node i` for `i < size`. A node that was removed stays there, not `live`.
* Sequence numbers are natural numbers; the counters are `u32`, and an addition or a subtraction
  that leaves their range stops the call (`Fault.overflow`).
* A loop over the arena makes no more turns than there are nodes. That this is enough is part of
  what is proved of a reachable trie.
* `BTreeMap` is an ordered map.
-/

namespace Xrpld.Consensus

open Std (ExtTreeMap)

/-- `TrieLedger`: a ledger and its ancestry. -/
class TrieLedger (L : Type) (Id : outParam Type) where
  /-- The ledger that prefixes all others. -/
  genesis : L
  seq : L → ℕ
  /-- The id of the ancestor at a sequence number. -/
  ancestor : L → ℕ → Id
  /-- The first sequence number at which two ledgers disagree, or one past the lower of theirs. -/
  mismatch : L → L → ℕ

open TrieLedger

/-- An addition of `u32`. -/
def addU32 (a b : ℕ) : Run ℕ := if a + b < 2 ^ 32 then .ok (a + b) else .error .overflow

/-- A subtraction of `u32`. -/
def subU32 (a b : ℕ) : Run ℕ := if b ≤ a then .ok (a - b) else .error .overflow

/-! ### Spans -/

structure SpanTip (L Id : Type) where
  seq : ℕ
  id : Id
  ledger : L

/-- `Span`: the ancestors of a ledger from `start` to before `stop`. -/
structure Span (L : Type) where
  start : ℕ
  stop : ℕ
  ledger : L

section

variable {L Id : Type} [TrieLedger L Id]

def SpanTip.ancestor (tip : SpanTip L Id) (s : ℕ) : Id := TrieLedger.ancestor tip.ledger s

namespace Span

def genesis : Span L := ⟨seq (TrieLedger.genesis : L), seq (TrieLedger.genesis : L) + 1, TrieLedger.genesis⟩

def fromLedger (ledger : L) (start : ℕ) : Span L := ⟨start, seq ledger + 1, ledger⟩

omit [TrieLedger L Id] in
def clamp (span : Span L) (val : ℕ) : ℕ := min (max val span.start) span.stop

omit [TrieLedger L Id] in
def sub (span : Span L) (lo hi : ℕ) : Option (Span L) :=
  let newFrom := span.clamp lo
  let newTo := span.clamp hi
  if newFrom < newTo then some ⟨newFrom, newTo, span.ledger⟩ else none

/-- `from`. -/
def fromSpot (span : Span L) (spot : ℕ) : Option (Span L) := span.sub spot span.stop

def before (span : Span L) (spot : ℕ) : Option (Span L) := span.sub span.start spot

def startId (span : Span L) : Id := ancestor span.ledger span.start

def diff (span : Span L) (other : L) : ℕ := span.clamp (mismatch span.ledger other)

def tip (span : Span L) : SpanTip L Id := ⟨span.stop - 1, ancestor span.ledger (span.stop - 1), span.ledger⟩

def merge (a b : Span L) : Span L :=
  if a.stop < b.stop then ⟨min a.start b.start, b.stop, b.ledger⟩ else ⟨min a.start b.start, a.stop, a.ledger⟩

end Span

end

/-! ### The trie -/

structure Node (L : Type) where
  span : Span L
  tipSupport : ℕ
  branchSupport : ℕ
  children : List ℕ
  parent : Option ℕ
  live : Bool

structure LedgerTrie (L : Type) where
  size : ℕ
  node : ℕ → Node L
  /-- The tip support at each sequence number. -/
  seqSupport : ExtTreeMap ℕ ℕ

section

variable {L Id : Type}

def Node.fromSpan (span : Span L) : Node L := ⟨span, 0, 0, [], none, true⟩

def Node.root [TrieLedger L Id] : Node L := .fromSpan Span.genesis

namespace LedgerTrie

abbrev root : ℕ := 0

/-- `new`. No other name is that of a node. -/
def new [TrieLedger L Id] : LedgerTrie L := ⟨1, fun i => { Node.root with live := i == root }, ∅⟩

/-- Change a node. -/
def modify (t : LedgerTrie L) (i : ℕ) (f : Node L → Node L) : LedgerTrie L :=
  { t with node := Function.update t.node i (f (t.node i)) }

def alloc (t : LedgerTrie L) (n : Node L) : LedgerTrie L :=
  { t with size := t.size + 1, node := Function.update t.node t.size n }

def eraseChild (t : LedgerTrie L) (parent child : ℕ) : LedgerTrie L :=
  (t.modify parent fun n => { n with children := n.children.filter (· != child) }).modify child
    fun n => { n with live := false }

/-- The children of a node that are live. -/
def liveChildren (t : LedgerTrie L) (i : ℕ) : List ℕ := (t.node i).children.filter fun c => (t.node c).live

variable [TrieLedger L Id]

/-- The loop over children of `find`: the first one that agrees with the ledger further than `pos`. -/
def findChild (t : LedgerTrie L) (ledger : L) (pos : ℕ) : List ℕ → Option (ℕ × ℕ)
  | [] => none
  | child :: children =>
    if !(t.node child).live then findChild t ledger pos children
    else if pos < (t.node child).span.diff ledger then some (child, (t.node child).span.diff ledger)
    else findChild t ledger pos children

/-- The loop of `find`. -/
def findLoop (t : LedgerTrie L) (ledger : L) : ℕ → ℕ → ℕ → Run (ℕ × ℕ)
  | 0, _, _ => .error .outOfFuel
  | turns + 1, curr, pos =>
    if pos = (t.node curr).span.stop then
      match t.findChild ledger pos (t.node curr).children with
      | none => .ok (curr, pos)
      | some (child, childPos) => findLoop t ledger turns child childPos
    else .ok (curr, pos)

def find (t : LedgerTrie L) (ledger : L) : Run (ℕ × ℕ) :=
  t.findLoop ledger t.size root ((t.node root).span.diff ledger)

def findByLedgerId [DecidableEq Id] (t : LedgerTrie L) (ledgerId : Id) : Option ℕ :=
  (List.range t.size).find? fun i => (t.node i).live && (t.node i).span.tip.id = ledgerId

omit [TrieLedger L Id] in
/-- Change the branch support of a node and of all above it, by `u32` arithmetic. -/
def climb (op : ℕ → Run ℕ) : ℕ → Option ℕ → LedgerTrie L → Run (LedgerTrie L)
  | _, none, t => .ok t
  | 0, some _, _ => .error .outOfFuel
  | turns + 1, some i, t => do
    let support ← op (t.node i).branchSupport
    climb op turns (t.node i).parent (t.modify i fun n => { n with branchSupport := support })

omit [TrieLedger L Id] in
/-- The part of `insert` for the rest of the span of `loc` from where the ledger leaves it. -/
def splitSuffix (t : LedgerTrie L) (loc : ℕ) (head : Option (Span L)) : Option (Span L) → Run (LedgerTrie L)
  | none => .ok t
  | some oldSuffix =>
    let n := t.node loc
    let fresh := t.size
    let t := t.alloc ⟨oldSuffix, n.tipSupport, n.branchSupport, n.children, some loc, true⟩
    let t := n.children.foldl (fun t child => t.modify child fun n => { n with parent := some fresh }) t
    match head with
    | none => .error (.expect "prefix must exist when old_suffix exists")
    | some span => .ok (t.modify loc fun n => { n with span := span, children := [fresh], tipSupport := 0 })

omit [TrieLedger L Id] in
/-- The part of `insert` for the rest of the ledger's own span: the node to support, and the trie. -/
def addSuffix (t : LedgerTrie L) (loc : ℕ) : Option (Span L) → ℕ × LedgerTrie L
  | none => (loc, t)
  | some newSuffix =>
    (t.size, (t.alloc { Node.fromSpan newSuffix with parent := some loc }).modify loc
      fun n => { n with children := n.children ++ [t.size] })

def insert (t : LedgerTrie L) (ledger : L) (count : ℕ) : Run (LedgerTrie L) := do
  let (loc, diffSeq) ← t.find ledger
  let span := (t.node loc).span
  let newSuffix := (Span.fromLedger ledger 0).fromSpot diffSeq
  let t ← t.splitSuffix loc (span.before diffSeq) (span.fromSpot diffSeq)
  let (incNode, t) := t.addSuffix loc newSuffix
  let tipSupport ← addU32 (t.node incNode).tipSupport count
  let t := t.modify incNode fun n => { n with tipSupport := tipSupport }
  let t ← climb (addU32 · count) t.size (some incNode) t
  let support ← addU32 (t.seqSupport[seq ledger]?.getD 0) count
  return { t with seqSupport := t.seqSupport.insert (seq ledger) support }

/-- The loop of `remove` that takes out and merges nodes without support of their own. -/
def compress : ℕ → ℕ → LedgerTrie L → Run (LedgerTrie L)
  | 0, _, _ => .error .outOfFuel
  | turns + 1, loc, t =>
    if (t.node loc).tipSupport = 0 ∧ loc ≠ root then
      match (t.node loc).parent with
      | none => .error (.expect "non-root node must have a parent")
      | some parent =>
        match t.liveChildren loc with
        | [] => compress turns parent (t.eraseChild parent loc)
        | [child] =>
          let merged := Span.merge (t.node loc).span (t.node child).span
          let t := t.modify child fun n => { n with span := merged, parent := some parent }
          let t := t.modify parent fun n => { n with children := n.children ++ [child] }
          compress turns parent (t.eraseChild parent loc)
        | _ => .ok t
    else .ok t

/-- The part of `remove` for the support at a sequence number. -/
def lowerSeq (support : ExtTreeMap ℕ ℕ) (ledgerSeq count : ℕ) : Run (ExtTreeMap ℕ ℕ) :=
  match support[ledgerSeq]? with
  | none => .ok support
  | some old => do
    let left ← subU32 old count
    return if left = 0 then support.erase ledgerSeq else support.insert ledgerSeq left

/-- `remove`: whether support was taken away. -/
def remove [DecidableEq Id] (t : LedgerTrie L) (ledgerId : Id) (ledgerSeq count : ℕ) : Run (Bool × LedgerTrie L) :=
  match t.findByLedgerId ledgerId with
  | none => .ok (false, t)
  | some loc =>
    if (t.node loc).tipSupport = 0 then .ok (false, t)
    else do
      let count := min count (t.node loc).tipSupport
      let t := t.modify loc fun n => { n with tipSupport := n.tipSupport - count }
      let support ← lowerSeq t.seqSupport ledgerSeq count
      let t := { t with seqSupport := support }
      let t ← climb (subU32 · count) t.size (some loc) t
      let t ← compress t.size loc t
      return (true, t)

def tipSupport [DecidableEq Id] (t : LedgerTrie L) (ledgerId : Id) : ℕ :=
  match t.findByLedgerId ledgerId with
  | none => 0
  | some i => (t.node i).tipSupport

def branchSupport [DecidableEq Id] (t : LedgerTrie L) (ledger : L) : Run ℕ :=
  match t.findByLedgerId (ancestor ledger (seq ledger)) with
  | some i => .ok (t.node i).branchSupport
  | none => do
    let (loc, diffSeq) ← t.find ledger
    return if seq ledger < diffSeq ∧ seq ledger < (t.node loc).span.stop then (t.node loc).branchSupport else 0

omit [TrieLedger L Id] in
def isEmpty (t : LedgerTrie L) : Bool := (t.node root).branchSupport == 0

/-! ### The preferred ledger -/

/-- The first loop of a turn of `get_preferred`: the support below a sequence number is uncommitted. -/
def takeBelow (bound : ℕ) : ℕ → List (ℕ × ℕ) → Run (ℕ × List (ℕ × ℕ))
  | uncommitted, [] => .ok (uncommitted, [])
  | uncommitted, (s, support) :: rest =>
    if s < bound then do
      let uncommitted ← addU32 uncommitted support
      takeBelow bound uncommitted rest
    else .ok (uncommitted, (s, support) :: rest)

/-- The second loop: how far along a span its support outweighs what is uncommitted. -/
def walkSpan (stop branch : ℕ) : ℕ → ℕ → List (ℕ × ℕ) → Run (ℕ × ℕ × List (ℕ × ℕ))
  | nextSeq, uncommitted, [] =>
    if nextSeq < stop ∧ uncommitted < branch then .ok (stop, uncommitted, []) else .ok (nextSeq, uncommitted, [])
  | nextSeq, uncommitted, (s, support) :: rest =>
    if nextSeq < stop ∧ uncommitted < branch then
      if s < stop then do
        let uncommitted ← addU32 uncommitted support
        walkSpan stop branch (s + 1) uncommitted rest
      else .ok (stop, uncommitted, (s, support) :: rest)
    else .ok (nextSeq, uncommitted, (s, support) :: rest)

/-- What children are ordered by: their branch support, then the id they start with. -/
def rank (t : LedgerTrie L) (i : ℕ) : ℕ ×ₗ Id := toLex ((t.node i).branchSupport, (t.node i).span.startId)

/-- The best child of a node, and its margin. -/
def bestChild [LinearOrder Id] (t : LedgerTrie L) (i : ℕ) : Run (Option (ℕ × ℕ)) :=
  match t.liveChildren i with
  | [] => .ok none
  | [child] => .ok (some (child, (t.node child).branchSupport))
  | children =>
    match children.insertionSort fun a b => t.rank b ≤ t.rank a with
    | first :: second :: _ => do
      let margin ← subU32 (t.node first).branchSupport (t.node second).branchSupport
      if (t.node second).span.startId < (t.node first).span.startId then
        return some (first, ← addU32 margin 1)
      else return some (first, margin)
    | _ => .error .indexOutOfBounds

/-- The loop of `get_preferred`. -/
def preferredLoop [LinearOrder Id] (t : LedgerTrie L) (largestIssued : ℕ) :
    ℕ → ℕ → ℕ → List (ℕ × ℕ) → Run (Option (SpanTip L Id))
  | 0, _, _, _ => .error .outOfFuel
  | turns + 1, curr, uncommitted, support => do
    let span := (t.node curr).span
    let (uncommitted, support) ← takeBelow (max (span.start + 1) largestIssued) uncommitted support
    let (nextSeq, uncommitted, support) ←
      walkSpan span.stop (t.node curr).branchSupport (span.start + 1) uncommitted support
    if nextSeq < span.stop then return (span.before nextSeq).map Span.tip
    else
      match ← t.bestChild curr with
      | none => return some span.tip
      | some (best, margin) =>
        if uncommitted < margin ∨ uncommitted = 0 then preferredLoop t largestIssued turns best uncommitted support
        else return some span.tip

def getPreferred [LinearOrder Id] (t : LedgerTrie L) (largestIssued : ℕ) : Run (Option (SpanTip L Id)) :=
  if t.isEmpty then .ok none else t.preferredLoop largestIssued t.size root 0 t.seqSupport.toList

/-! ### The check -/

omit [TrieLedger L Id] in
/-- The sum over the children of a node in `check_invariants`, unless one of them has another parent. -/
def checkChildren (t : LedgerTrie L) (curr : ℕ) : List ℕ → ℕ → Run (Option ℕ)
  | [], support => .ok (some support)
  | child :: children, support =>
    if (t.node child).parent ≠ some curr then .ok none
    else do
      let support ← addU32 support (t.node child).branchSupport
      checkChildren t curr children support

omit [TrieLedger L Id] in
/-- The support that `check_invariants` expects at the tip of a node. -/
def expectTip (n : Node L) (expected : ExtTreeMap ℕ ℕ) : Run (ExtTreeMap ℕ ℕ) :=
  if n.tipSupport = 0 then .ok expected
  else do
    let support ← addU32 (expected[n.span.stop - 1]?.getD 0) n.tipSupport
    return expected.insert (n.span.stop - 1) support

omit [TrieLedger L Id] in
/-- The loop of `check_invariants`; the top of the stack is its head. -/
def checkLoop (t : LedgerTrie L) : ℕ → List ℕ → ExtTreeMap ℕ ℕ → Run Bool
  | _, [], expected => .ok (decide (expected.toList = t.seqSupport.toList))
  | 0, _ :: _, _ => .error .outOfFuel
  | turns + 1, curr :: stack, expected =>
    let n := t.node curr
    if !n.live ∧ curr ≠ root then checkLoop t turns stack expected
    else if curr ≠ root ∧ n.tipSupport = 0 ∧ (t.liveChildren curr).length < 2 then .ok false
    else do
      let expected ← expectTip n expected
      match ← checkChildren t curr (t.liveChildren curr) n.tipSupport with
      | none => return false
      | some support =>
        if support ≠ n.branchSupport then return false
        else checkLoop t turns ((t.liveChildren curr).reverse ++ stack) expected

omit [TrieLedger L Id] in
def checkInvariants (t : LedgerTrie L) : Run Bool := t.checkLoop t.size [root] ∅

end LedgerTrie

end

end Xrpld.Consensus
