import Xrpld.Lib.TreeMap
import Xrpld.SHAMap.TreeNode

/-!
# Looking for missing nodes

`MissingNodeContinuation` of `xrpl/shamap/sync.rs`: a walk over a tree that is still being
fetched. It can be stopped and taken up again, and never waits: a child that is not there
becomes a read to be made, a read that fails becomes a request to the network, and when a
node arrives the parents that wait for it are looked at again.

## The model

* The state is the heap, the plan, and what the resident lookup was told (`marked`). No node is
  made here; a node that a lookup, a read or a peer brings is a name in the heap.
* A callback answers each call as it likes: its answer depends on the number of calls made so
  far (`Heap.calls`). `is_full_below` may also depend on what has been marked.
* Names stand for addresses, so that `deferred_resumes` is taken up in the order of names.
* `stack` has its top first.
* `turns` bounds the loop of `advance_with_budget`, which the source leaves to the tree.
* The counters of `stats` are left out: nothing reads them.
-/

namespace Xrpld.SHAMap

open Std (ExtTreeMap ExtTreeSet)

/-! ### Data -/

structure MissingNodeScanState where
  node : Ref
  nodeId : SHAMapNodeId
  firstChild : ℕ
  currentChild : ℕ
  fullBelow : Bool

structure DeferredResume where
  node : Ref
  nodeId : SHAMapNodeId

structure PendingDeferredFetch where
  parent : Ref
  parentId : SHAMapNodeId
  branch : Branch
  hash : SHAMapHash
  ledgerSeq : ℕ

structure ReadNeed where
  hash : SHAMapHash
  ledgerSeq : ℕ
  nodeId : SHAMapNodeId
  branch : Branch

structure PendingReadEdges where
  need : ReadNeed
  edges : List PendingDeferredFetch

inductive MissingNodeReadOutcome where
  | found (node : Ref)
  | miss
  | rejected
  | cancelled

inductive MissingNodeReadApply where
  | applied (attachedEdges missingEdges : ℕ)
  | requeued
  | cancelled
  | stalePlan
  | hashMismatch
  | unknownRead
  deriving DecidableEq

/-- A node to ask the network for. -/
abbrev Candidate := SHAMapNodeId × Uint256

inductive MissingNodeAdvance where
  | ready
  | needsReads (reads : List ReadNeed)
  | needsNetwork (candidates : List Candidate)
  | complete
  | invalid

structure MissingNodeContinuationBounds where
  maxPendingHashes : ℕ
  maxPendingEdges : ℕ
  maxPendingEdgeBytes : ℕ

/-- The greatest `usize`. -/
def usizeMax : ℕ := 2 ^ 64 - 1

/-- The greatest `i32`. -/
def i32Max : ℤ := 2 ^ 31 - 1

/-- `can_retain_edge`, where an edge takes `edgeBytes`. -/
def MissingNodeContinuationBounds.canRetainEdge (bounds : MissingNodeContinuationBounds)
    (edgeBytes pendingHashes pendingEdges : ℕ) : Bool :=
  decide (pendingHashes ≤ bounds.maxPendingHashes) && decide (pendingEdges ≤ bounds.maxPendingEdges) &&
    decide (min (pendingEdges * edgeBytes) usizeMax ≤ bounds.maxPendingEdgeBytes)

structure MissingNodeContinuation where
  planId : ℕ
  root : Ref
  generation : ℕ
  ledgerSeq : ℕ
  backed : Bool
  maxMissing : ℤ
  remaining : ℤ
  missingHashes : ExtTreeSet SHAMapHash
  missingNodes : List Candidate
  unannouncedNetwork : List Candidate
  stack : List MissingNodeScanState
  pendingByHash : ExtTreeMap SHAMapHash PendingReadEdges
  pendingNetworkByHash : ExtTreeMap SHAMapHash (List PendingDeferredFetch)
  unannouncedReads : ExtTreeSet SHAMapHash
  deferredResumes : ExtTreeMap Ref DeferredResume
  bounds : MissingNodeContinuationBounds
  pendingEdgeLimitReached : Bool
  invalid : Bool

/-- The nodes, the plan, and the hashes that the resident lookup was told to be full below. -/
structure SyncMemory where
  heap : Heap
  plan : MissingNodeContinuation
  marked : List SHAMapHash

/-- A call on the plan; no call returns an error. -/
abbrev PlanM (α : Type) := Prog Fault SyncMemory Empty α

/-- The callbacks of a call: `MissingNodeResidentLookup`, `next_first_child` and `should_yield`. -/
structure Callbacks where
  loadResident : ℕ → SHAMapHash → ℕ → Option Ref
  isFullBelow : ℕ → List SHAMapHash → SHAMapHash → Bool
  nextFirstChild : ℕ → UInt8
  shouldYield : ℕ → Bool

/-- A program on the nodes. -/
def onNodes {α : Type} : HeapM Empty α → PlanM α := Prog.zoom SyncMemory.heap fun h s => { s with heap := h }

/-- Call a callback. -/
def ask {α : Type} (answer : ℕ → α) : PlanM α := do
  let s ← Prog.read
  Prog.update fun s => { s with heap := { s.heap with calls := s.heap.calls + 1 } }
  return answer s.heap.calls

variable (plan : MissingNodeContinuation)

/-- Put a plan in the place of the plan. -/
def setPlan : PlanM Unit := Prog.update fun s => { s with plan := plan }

/-! ### Queries and bookkeeping -/

variable (state : MissingNodeScanState)

namespace MissingNodeContinuation

def isComplete : Bool :=
  !plan.invalid && plan.stack.isEmpty && plan.pendingByHash.isEmpty && plan.missingHashes.isEmpty &&
    plan.deferredResumes.isEmpty && plan.unannouncedNetwork.isEmpty

/-- How many edges wait for reads. -/
def retainedEdges : ℕ :=
  (plan.pendingByHash.toList.map fun entry => entry.2.edges.length).sum

def recordMissingChild (parentId : SHAMapNodeId) (branch : Branch)
    (childHash : SHAMapHash) : Run MissingNodeContinuation :=
  if plan.remaining ≤ 0 ∨ childHash ∈ plan.missingHashes then .ok plan
  else
    match parentId.getChildNodeId branch with
    | .error _ => .error (.expect "branch selection must stay within SHAMap depth bounds")
    | .ok childId =>
      .ok { plan with
        missingHashes := plan.missingHashes.insert childHash
        missingNodes := plan.missingNodes ++ [(childId, childHash)]
        remaining := plan.remaining - 1 }

/-- Record a missing child, and announce it to the network if it is new: whether it is. -/
def recordCandidate (parentId : SHAMapNodeId) (branch : Branch)
    (childHash : SHAMapHash) (message : String) : Run (Bool × MissingNodeContinuation) := do
  let recorded ← plan.recordMissingChild parentId branch childHash
  if recorded.missingNodes.length = plan.missingNodes.length then .ok (false, recorded)
  else
    match recorded.missingNodes.getLast? with
    | none => .error (.expect message)
    | some candidate =>
      .ok (true, { recorded with unannouncedNetwork := recorded.unannouncedNetwork ++ [candidate] })

def takeUnannouncedReads (maxNewReads : ℕ) :
    List ReadNeed × MissingNodeContinuation :=
  if maxNewReads = 0 then ([], plan)
  else
    let hashes := plan.unannouncedReads.toList.take maxNewReads
    (hashes.filterMap fun hash => plan.pendingByHash[hash]?.map PendingReadEdges.need,
      { plan with unannouncedReads := hashes.foldl ExtTreeSet.erase plan.unannouncedReads })

def rearmPendingReads : MissingNodeContinuation :=
  let unannounced := plan.pendingByHash.keys.foldl ExtTreeSet.insert plan.unannouncedReads
  { plan with
    unannouncedReads := unannounced
    pendingEdgeLimitReached := plan.pendingEdgeLimitReached && unannounced.isEmpty }

def takeUnannouncedNetwork : List Candidate × MissingNodeContinuation :=
  (plan.unannouncedNetwork, { plan with unannouncedNetwork := [] })

def restoreUnannouncedNetwork (candidates : List Candidate) :
    MissingNodeContinuation :=
  { plan with
    unannouncedNetwork := candidates.foldl (fun queued candidate =>
      if queued.any fun other => other.2 == candidate.2 then queued else queued ++ [candidate]) plan.unannouncedNetwork }

def retryNetworkCandidate (hash : SHAMapHash) : Run (Bool × MissingNodeContinuation) :=
  match plan.pendingNetworkByHash[hash]?.bind List.head? with
  | none => .ok (false, plan)
  | some edge =>
    match edge.parentId.getChildNodeId edge.branch with
    | .error _ => .error (.expect "retained pending edge must have a child id")
    | .ok nodeId => .ok (true, { plan with unannouncedNetwork := plan.unannouncedNetwork ++ [(nodeId, hash)] })

def retainNetworkHashes (hashes : List SHAMapHash) : MissingNodeContinuation :=
  { plan with pendingNetworkByHash := plan.pendingNetworkByHash.filter fun hash _ => hash ∈ hashes }

/-- The edge from the node of a scan state through a branch. -/
def edgeAt (branch : Branch) (childHash : SHAMapHash) :
    PendingDeferredFetch := ⟨state.node, state.nodeId, branch, childHash, plan.ledgerSeq⟩

/-- Add an edge unless it is there. -/
def addEdge (edges : List PendingDeferredFetch) (edge : PendingDeferredFetch) : List PendingDeferredFetch :=
  if edges.any fun current => current.parent == edge.parent && current.branch == edge.branch && current.hash == edge.hash
  then edges else edges ++ [edge]

/-- A child that is asked of the network already: one more edge waits for it. -/
def awaitNetwork (branch : Branch)
    (childHash : SHAMapHash) : Run MissingNodeContinuation := do
  let edges := addEdge (plan.pendingNetworkByHash[childHash]?.getD []) (plan.edgeAt state branch childHash)
  let plan := { plan with pendingNetworkByHash := plan.pendingNetworkByHash.insert childHash edges }
  let (_, plan) ← plan.recordCandidate state.nodeId branch childHash "recorded network candidate must exist"
  return plan

/-- A child that is to be read: one more edge waits for it, if there is room for it. -/
def awaitRead (edgeBytes : ℕ) (state : MissingNodeScanState) (branch : Branch)
    (childHash : SHAMapHash) (retained : ℕ) : Option (ℕ × MissingNodeContinuation) :=
  let isNew := plan.pendingByHash[childHash]?.isNone
  let pendingHashes := plan.pendingByHash.size + if isNew then 1 else 0
  let pendingEdges := min (retained + 1) usizeMax
  if !plan.bounds.canRetainEdge edgeBytes pendingHashes pendingEdges then none
  else
    let pending := plan.pendingByHash[childHash]?.getD ⟨⟨childHash, plan.ledgerSeq, state.nodeId, branch⟩, []⟩
    let edges := addEdge pending.edges (plan.edgeAt state branch childHash)
    some (if edges.length = pending.edges.length then retained else pendingEdges,
      { plan with
        unannouncedReads := if isNew then plan.unannouncedReads.insert childHash else plan.unannouncedReads
        pendingByHash := plan.pendingByHash.insert childHash { pending with edges := edges } })

end MissingNodeContinuation

/-! ### A new plan -/

def pushScanState (nextFirstChild : ℕ → UInt8) (node : Ref) (nodeId : SHAMapNodeId) : PlanM Unit := do
  let first ← ask nextFirstChild
  Prog.update fun s => { s with plan := { s.plan with stack := ⟨node, nodeId, first.toNat, 0, true⟩ :: s.plan.stack } }

/-- The plan of `new_with_bounds`, before its root is pushed. -/
def MissingNodeContinuation.blank (planId : ℕ) (root : Ref) (maxMissing : ℤ) (backed : Bool) (ledgerSeq generation : ℕ)
    (bounds : MissingNodeContinuationBounds) : MissingNodeContinuation :=
  ⟨planId, root, generation, ledgerSeq, backed, maxMissing, maxMissing, ∅, [], [], [], ∅, ∅, ∅, ∅, bounds, false, false⟩

/-- `new_with_bounds`, in the place of the plan of the state. -/
def newWithBounds (edgeBytes planId : ℕ) (root : Ref) (maxMissing : ℤ) (backed : Bool) (ledgerSeq generation : ℕ)
    (bounds : MissingNodeContinuationBounds) (nextFirstChild : ℕ → UInt8) : PlanM Unit := do
  let n ← onNodes (deref root)
  if n.hash = 0 then abort (.assertion "missing-node continuations require a non-zero root hash")
  else if maxMissing ≤ 0 then
    abort (.assertion "missing-node continuations require a positive missing-node bound")
  else if bounds.maxPendingHashes = 0 ∨ bounds.maxPendingEdges = 0 ∨ bounds.maxPendingEdgeBytes < edgeBytes then
    abort (.assertion "missing-node continuation retained-edge bounds must admit one edge")
  else
    setPlan (.blank planId root maxMissing backed ledgerSeq generation bounds)
    if n.isInner && !n.isFullBelow generation then pushScanState nextFirstChild root .root
    else return ()

def beginReplyScan (edgeBytes : ℕ) (nextFirstChild : ℕ → UInt8) : PlanM Unit := do
  let s ← Prog.read
  let plan := s.plan
  if plan.invalid then return ()
  else
    newWithBounds edgeBytes plan.planId plan.root plan.maxMissing plan.backed plan.ledgerSeq plan.generation plan.bounds
      nextFirstChild
    Prog.update fun s => { s with
      plan := { s.plan with
        pendingByHash := plan.pendingByHash
        pendingNetworkByHash := plan.pendingNetworkByHash
        unannouncedReads := plan.unannouncedReads } }

/-! ### Advancing -/

def attachOrDescend (cb : Callbacks) (child : Ref) (childId : SHAMapNodeId) : PlanM Unit := do
  let s ← Prog.read
  let n := s.heap.node child
  if n.isInner then
    if n.isFullBelow s.plan.generation then return ()
    else pushScanState cb.nextFirstChild child childId
  else return ()

/-- `mark_full_below` of the resident lookup, or `set_full_below_gen` when the tree is not backed. -/
def markFullBelow (node : Ref) : PlanM Unit := do
  let s ← Prog.read
  let n := s.heap.node node
  onNodes (store node (n.setFullBelowGen s.plan.generation))
  if s.plan.backed then Prog.update fun s => { s with marked := n.hash :: s.marked }
  else return ()

/-- The end of a scan: the node is marked, or its parent cannot be. -/
def popState (rest : List MissingNodeScanState) : PlanM Unit := do
  let s ← Prog.read
  if state.fullBelow then
    setPlan { s.plan with stack := rest }
    markFullBelow state.node
  else
    setPlan { s.plan with
      stack := match rest with
        | [] => []
        | parent :: rest => { parent with fullBelow := false } :: rest }

/-- How a turn of the loop ends. -/
inductive Turn where
  /-- It goes on, with so many branches looked at and so many edges retained. -/
  | next (branchSteps retained : ℕ)
  | stop
  | invalid

/-- The branch that a scan looks at next. -/
def MissingNodeScanState.branch : Branch :=
  ⟨(state.firstChild + state.currentChild) % 16, Nat.mod_lt _ (by decide)⟩

section

variable (edgeBytes : ℕ)

/-- A turn of the loop from where the child is neither missing nor full below. The state on top of the stack has been
moved on. -/
def scanChild (cb : Callbacks) (state : MissingNodeScanState) (rest : List MissingNodeScanState) (branch : Branch)
    (childHash : SHAMapHash) (childId : SHAMapNodeId) (branchSteps retained : ℕ) : PlanM Turn := do
  let s ← Prog.read
  let broken := { s.plan with stack := { state with fullBelow := false } :: rest }
  if childHash ∈ s.plan.pendingNetworkByHash then
    setPlan (← Prog.lift (broken.awaitNetwork state branch childHash))
    return .next branchSteps retained
  else
    match (s.heap.node state.node).getChild branch with
    | some child =>
      attachOrDescend cb child childId
      return .next branchSteps retained
    | none =>
      match ← ask fun n => cb.loadResident n childHash s.plan.ledgerSeq with
      | some child =>
        if (s.heap.node child).hash ≠ childHash then
          setPlan { s.plan with invalid := true }
          return .invalid
        else
          let child ← onNodes (canonicalizeChild state.node branch child)
          attachOrDescend cb child childId
          return .next branchSteps retained
      | none =>
        match broken.awaitRead edgeBytes state branch childHash retained with
        | some (retained, plan) =>
          setPlan plan
          return .next branchSteps retained
        | none =>
          -- the cursor goes back to this branch
          setPlan { s.plan with
            stack := { state with currentChild := state.currentChild - 1, fullBelow := false } :: rest
            pendingEdgeLimitReached := true }
          return .stop

/-- A turn of the loop that looks at a branch. -/
def scanBranch (cb : Callbacks) (state : MissingNodeScanState) (rest : List MissingNodeScanState)
    (branchSteps retained : ℕ) : PlanM Turn := do
  let s ← Prog.read
  let branch := state.branch
  let n := s.heap.node state.node
  let state := { state with currentChild := state.currentChild + 1 }
  let childHash := n.getChildHash branch
  setPlan { s.plan with stack := state :: rest }
  if n.isEmptyBranch branch then return .next (branchSteps + 1) retained
  else if childHash ∈ s.plan.missingHashes then
    setPlan { s.plan with stack := { state with fullBelow := false } :: rest }
    return .next (branchSteps + 1) retained
  else
    let full ← if s.plan.backed then ask fun n => cb.isFullBelow n s.marked childHash else pure false
    if full then return .next (branchSteps + 1) retained
    else
      match state.nodeId.getChildNodeId branch with
      | .error _ => abort (.expect "branch selection must stay within SHAMap depth bounds")
      | .ok childId => scanChild edgeBytes cb state rest branch childHash childId (branchSteps + 1) retained

/-- The loop of `advance_with_budget`: whether it has met no invalid node. -/
def advanceLoop (cb : Callbacks) (maxBranchSteps : ℕ) : ℕ → ℕ → ℕ → PlanM Bool
  | 0, _, _ => abort .outOfFuel
  | turns + 1, branchSteps, retained => do
    let s ← Prog.read
    match s.plan.stack with
    | [] => return true
    | state :: rest =>
      if maxBranchSteps ≤ branchSteps ∨ s.plan.remaining ≤ 0 then return true
      else if ← ask cb.shouldYield then return true
      else if 16 ≤ state.currentChild then
        popState state rest
        advanceLoop cb maxBranchSteps turns branchSteps retained
      else
        match ← scanBranch edgeBytes cb state rest branchSteps retained with
        | .next branchSteps retained => advanceLoop cb maxBranchSteps turns branchSteps retained
        | .stop => return true
        | .invalid => return false

def enqueueDeferredResumes (cb : Callbacks) : List DeferredResume → PlanM Unit
  | [] => return ()
  | resume :: resumes => do
    attachResume resume
    enqueueDeferredResumes cb resumes
where
  /-- One of them. -/
  attachResume (resume : DeferredResume) : PlanM Unit := do
    let s ← Prog.read
    if (s.heap.node resume.node).isFullBelow s.plan.generation then return ()
    else pushScanState cb.nextFirstChild resume.node resume.nodeId

/-- `activate_deferred_resumes`, when the stack is empty. -/
def activateDeferredResumes (cb : Callbacks) : PlanM Unit := do
  let s ← Prog.read
  if s.plan.stack.isEmpty && !s.plan.deferredResumes.isEmpty then
    setPlan { s.plan with deferredResumes := ∅ }
    enqueueDeferredResumes cb (s.plan.deferredResumes.toList.map Prod.snd)
  else return ()

/-- The answer of `advance_with_budget` after its loop. -/
def advanceAnswer (maxNewReads : ℕ) : PlanM MissingNodeAdvance := do
  let s ← Prog.read
  let (reads, plan) := s.plan.takeUnannouncedReads maxNewReads
  setPlan plan
  if !reads.isEmpty then return .needsReads reads
  else
    let scanFinished := decide (plan.remaining ≤ 0) ||
      (plan.stack.isEmpty && plan.deferredResumes.isEmpty && plan.unannouncedReads.isEmpty)
    if plan.pendingByHash.isEmpty && scanFinished && !plan.unannouncedNetwork.isEmpty then
      setPlan { plan with unannouncedNetwork := [] }
      return .needsNetwork plan.unannouncedNetwork
    else if plan.invalid then return .invalid
    else if plan.isComplete then return .complete
    else return .ready

def advanceWithBudget (turns maxBranchSteps maxNewReads : ℕ) (cb : Callbacks) : PlanM MissingNodeAdvance := do
  let s ← Prog.read
  if s.plan.invalid then return .invalid
  else
    activateDeferredResumes cb
    let s ← Prog.read
    if ← advanceLoop edgeBytes cb maxBranchSteps turns 0 s.plan.retainedEdges then advanceAnswer maxNewReads
    else return .invalid

end

/-! ### Results -/

/-- Attach a node to edges: the parents to look at again. -/
def attachEdges (node : Ref) : List PendingDeferredFetch → ExtTreeMap Ref DeferredResume →
    PlanM (ExtTreeMap Ref DeferredResume)
  | [], resumes => return resumes
  | edge :: edges, resumes => do
    let _ ← onNodes (canonicalizeChild edge.parent edge.branch node)
    attachEdges node edges (resumes.insertIfNew edge.parent ⟨edge.parent, edge.parentId⟩)

/-- `deferred_resumes.extend`. -/
def extendResumes (resumes more : ExtTreeMap Ref DeferredResume) : ExtTreeMap Ref DeferredResume :=
  more.toList.foldl (fun map entry => map.insert entry.1 entry.2) resumes

/-- Attach a node to edges, and have their parents looked at again. -/
def attachAndResume (node : Ref) (edges : List PendingDeferredFetch) : PlanM MissingNodeReadApply := do
  let resumes ← attachEdges node edges ∅
  Prog.update fun s => { s with
    plan := { s.plan with deferredResumes := extendResumes s.plan.deferredResumes resumes } }
  return .applied edges.length 0

/-- The loop over the edges of a read that found nothing: whether a candidate was recorded. -/
def missEdges (heap : Heap) (hash : SHAMapHash) : List PendingDeferredFetch → Bool → ℕ → MissingNodeContinuation →
    Run (ℕ × MissingNodeContinuation)
  | [], _, missing, plan => .ok (missing, plan)
  | edge :: edges, recorded, missing, plan =>
    if ((heap.node edge.parent).getChild edge.branch).isSome then missEdges heap hash edges recorded missing plan
    else do
      let plan := { plan with
        pendingNetworkByHash := plan.pendingNetworkByHash.insert hash
          (plan.pendingNetworkByHash[hash]?.getD [] ++ [edge]) }
      if recorded then missEdges heap hash edges true missing plan
      else
        let (new, plan) ← plan.recordCandidate edge.parentId edge.branch hash
          "recorded missing child must be available for network admission"
        missEdges heap hash edges true (if new then 1 else missing) plan

def applyReadResult (planId : ℕ) (hash : SHAMapHash) (outcome : MissingNodeReadOutcome) :
    PlanM MissingNodeReadApply := do
  let s ← Prog.read
  if planId ≠ s.plan.planId then return .stalePlan
  else
    match s.plan.pendingByHash[hash]? with
    | none => return .unknownRead
    | some pending =>
      let taken := { s.plan with
        pendingByHash := s.plan.pendingByHash.erase hash
        pendingEdgeLimitReached := false
        unannouncedReads := s.plan.unannouncedReads.erase hash }
      match outcome with
      | .rejected | .cancelled =>
        setPlan { taken with
          pendingByHash := taken.pendingByHash.insert hash pending
          unannouncedReads := taken.unannouncedReads.insert hash }
        return .requeued
      | .found node =>
        if (s.heap.node node).hash ≠ hash then
          setPlan { taken with invalid := true }
          return .hashMismatch
        else
          setPlan taken
          attachAndResume node pending.edges
      | .miss =>
        let (missing, plan) ← Prog.lift (missEdges s.heap hash pending.edges false 0 taken)
        setPlan plan
        return .applied 0 missing

def applyNetworkNode (planId : ℕ) (hash : SHAMapHash) (node : Ref) : PlanM MissingNodeReadApply := do
  let s ← Prog.read
  if planId ≠ s.plan.planId then return .stalePlan
  else if (s.heap.node node).hash ≠ hash then
    setPlan { s.plan with invalid := true }
    return .hashMismatch
  else
    match s.plan.pendingNetworkByHash[hash]? with
    | none => return .unknownRead
    | some edges =>
      setPlan { s.plan with
        pendingNetworkByHash := s.plan.pendingNetworkByHash.erase hash
        pendingEdgeLimitReached := false
        missingHashes := s.plan.missingHashes.erase hash
        missingNodes := s.plan.missingNodes.filter fun candidate => candidate.2 != hash
        remaining := min (min (s.plan.remaining + 1) i32Max) s.plan.maxMissing }
      attachAndResume node edges

/-- The loop of `apply_known_network_node`, with so many levels to go to the position of the node. -/
def knownLoop (planId : ℕ) (nodeId : SHAMapNodeId) (hash : SHAMapHash) (node : Ref) :
    ℕ → Ref → SHAMapNodeId → PlanM MissingNodeReadApply
  | 0, _, _ => return .unknownRead
  | levels + 1, current, currentId => do
    let s ← Prog.read
    let n := s.heap.node current
    if !n.isInner then return .hashMismatch
    else
      let branch ← Prog.lift (selectBranch currentId nodeId.id)
      if n.isEmptyBranch branch then return .hashMismatch
      else
        match currentId.getChildNodeId branch with
        | .error _ => abort (.expect "peer node position must stay within SHAMap bounds")
        | .ok childId =>
          if childId = nodeId then
            if n.getChildHash branch ≠ hash then return .hashMismatch
            else if hash ∈ s.plan.pendingNetworkByHash then applyNetworkNode planId hash node
            else
              match n.getChild branch with
              | some existing =>
                if (s.heap.node existing).hash = hash then return .applied 0 0 else return .hashMismatch
              | none =>
                let _ ← onNodes (canonicalizeChild current branch node)
                Prog.update fun s => { s with
                  plan := { s.plan with
                    deferredResumes := s.plan.deferredResumes.insert current ⟨current, currentId⟩ } }
                return .applied 1 0
          else
            match n.getChild branch with
            | none => return .unknownRead
            | some child => knownLoop planId nodeId hash node levels child childId

def applyKnownNetworkNode (planId : ℕ) (nodeId : SHAMapNodeId) (hash : SHAMapHash) (node : Ref) :
    PlanM MissingNodeReadApply := do
  let s ← Prog.read
  if planId ≠ s.plan.planId then return .stalePlan
  else if (s.heap.node node).hash ≠ hash ∨ nodeId.isRoot then
    setPlan { s.plan with invalid := decide ((s.heap.node node).hash ≠ hash) }
    return .hashMismatch
  else knownLoop planId nodeId hash node nodeId.depth s.plan.root .root

/-! ### Calls -/

/-- A call on a plan. -/
inductive PlanCall where
  | advance (turns maxBranchSteps maxNewReads : ℕ) (cb : Callbacks)
  | readResult (planId : ℕ) (hash : SHAMapHash) (outcome : MissingNodeReadOutcome)
  | networkNode (planId : ℕ) (hash : SHAMapHash) (node : Ref)
  | knownNetworkNode (planId : ℕ) (nodeId : SHAMapNodeId) (hash : SHAMapHash) (node : Ref)
  | replyScan (nextFirstChild : ℕ → UInt8)
  | takeReads (maxNewReads : ℕ)
  | rearmReads
  | takeNetwork
  | restoreNetwork (candidates : List Candidate)
  | retryNetwork (hash : SHAMapHash)
  | retainNetwork (hashes : List SHAMapHash)

/-- Make a call: what it answers, if it is an advance. -/
def PlanCall.run (edgeBytes : ℕ) : PlanCall → PlanM (Option MissingNodeAdvance)
  | .advance turns maxBranchSteps maxNewReads cb => do
    return some (← advanceWithBudget edgeBytes turns maxBranchSteps maxNewReads cb)
  | .readResult planId hash outcome => do
    let _ ← applyReadResult planId hash outcome
    return none
  | .networkNode planId hash node => do
    let _ ← applyNetworkNode planId hash node
    return none
  | .knownNetworkNode planId nodeId hash node => do
    let _ ← applyKnownNetworkNode planId nodeId hash node
    return none
  | .replyScan nextFirstChild => do
    beginReplyScan edgeBytes nextFirstChild
    return none
  | .takeReads maxNewReads => do
    let s ← Prog.read
    setPlan (s.plan.takeUnannouncedReads maxNewReads).2
    return none
  | .rearmReads => do
    let s ← Prog.read
    setPlan s.plan.rearmPendingReads
    return none
  | .takeNetwork => do
    let s ← Prog.read
    setPlan s.plan.takeUnannouncedNetwork.2
    return none
  | .restoreNetwork candidates => do
    let s ← Prog.read
    setPlan (s.plan.restoreUnannouncedNetwork candidates)
    return none
  | .retryNetwork hash => do
    let s ← Prog.read
    let (_, plan) ← Prog.lift (s.plan.retryNetworkCandidate hash)
    setPlan plan
    return none
  | .retainNetwork hashes => do
    let s ← Prog.read
    setPlan (s.plan.retainNetworkHashes hashes)
    return none

end Xrpld.SHAMap
