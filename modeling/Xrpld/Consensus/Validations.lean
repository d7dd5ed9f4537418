import Xrpld.Lib.Prog
import Xrpld.Consensus.TrieRemove

/-!
# Tracking validations

`Validations` of `xrpld/consensus/rcl_support/validations.rs`: the current validation of each node,
the ledger that each node supports in the ancestry trie, and the ledgers that nodes wait for while
they are acquired.

## The model

* A call is a program on `Inner`. The times of a call are given to it: `now` is the network time of
  the adaptor in seconds, `instant` the local clock.
* The adaptor answers `acquire` by the number of times it was asked. The iteration order of a hash
  map or hash set is any order at all, also by the number of times it was asked for.
* Sequence numbers are natural numbers, times are seconds.
-/

namespace Xrpld.Consensus

open Std (ExtTreeMap ExtTreeSet)
open TrieLedger

/-! ### Parameters and validations -/

structure ValidationParms where
  validationCurrentWall : ℕ := 5 * 60
  validationCurrentLocal : ℕ := 3 * 60
  validationCurrentEarly : ℕ := 3 * 60
  validationSetExpires : ℕ := 10 * 60
  validationFreshness : ℕ := 20

structure SeqEnforcer where
  seq : ℕ := 0
  when : Option ℕ := none

def SeqEnforcer.tryAdvance (e : SeqEnforcer) (now s : ℕ) (p : ValidationParms) : Bool × SeqEnforcer :=
  let e := match e.when with
    | some w => if w + p.validationSetExpires < now then { e with seq := 0 } else e
    | none => e
  if s ≤ e.seq then (false, e) else (true, ⟨s, some now⟩)

def isCurrent (p : ValidationParms) (now signTime seenTime : ℕ) : Bool :=
  decide ((now : ℤ) - p.validationCurrentEarly < signTime) && decide (signTime < now + p.validationCurrentWall) &&
    (seenTime == 0 || decide (seenTime < now + p.validationCurrentLocal))

inductive ValStatus where
  | current | stale | badSeq | multiple | conflicting
  deriving DecidableEq

/-- `ValidationT`. -/
structure Validation (Id : Type) where
  ledgerId : Id
  seq : ℕ
  signTime : ℕ
  seenTime : ℕ
  trusted : Bool
  full : Bool
  cookie : ℕ

/-- A ledger that is waited for: its sequence number and its id, in the order of the code's map. -/
abbrev LedgerKey (Id : Type) := ℕ ×ₗ Id

/-- The ledger that a validation is for. -/
def Validation.ledgerKey {Id : Type} (v : Validation Id) : LedgerKey Id := toLex (v.seq, v.ledgerId)

structure AgedMap (K V : Type) [Ord K] where
  entries : ExtTreeMap K V
  lastTouched : ExtTreeMap K ℕ

namespace AgedMap

variable {K V : Type} [LinearOrder K]

def touch (m : AgedMap K V) (now : ℕ) (key : K) : AgedMap K V :=
  { m with lastTouched := m.lastTouched.insert key now }

/-- `get_or_insert_with`, and what is done with the entry. -/
def modify (m : AgedMap K V) (key : K) (now : ℕ) (default : V) (f : V → V) : AgedMap K V :=
  ⟨m.entries.insert key (f (m.entries[key]?.getD default)), m.lastTouched.insert key now⟩

/-- `expire`; no caller names entries to keep. -/
def expire (m : AgedMap K V) (now expiresAfter : ℕ) : AgedMap K V :=
  let expired := (m.lastTouched.toList.filter fun e => expiresAfter ≤ now - e.2).map Prod.fst
  ⟨expired.foldl ExtTreeMap.erase m.entries, expired.foldl ExtTreeMap.erase m.lastTouched⟩

end AgedMap

/-! ### The state -/

section

variable {N L Id : Type} [LinearOrder N] [TrieLedger L Id] [LinearOrder Id]

/-- `ValidationRecoveryProvenance`. -/
structure Provenance (N Id : Type) [Ord N] where
  key : LedgerKey Id
  nodes : ExtTreeSet N

structure Inner (N L Id : Type) [LinearOrder N] [LinearOrder Id] where
  current : ExtTreeMap N (Validation Id)
  localSeqEnforcer : SeqEnforcer
  seqEnforcers : ExtTreeMap N SeqEnforcer
  byLedger : AgedMap Id (ExtTreeMap N (Validation Id))
  bySequence : AgedMap ℕ (ExtTreeMap N (Validation Id))
  keep : Option (ℕ × ℕ)
  nextKeepRefresh : Option ℕ
  trie : LedgerTrie L
  lastLedger : ExtTreeMap N L
  acquiring : ExtTreeMap (LedgerKey Id) (ExtTreeSet N)
  validationRecoveryAnchor : Option (Provenance N Id)
  validationRecoveryCandidate : Option (Provenance N Id)
  /-- How often the adaptor or an iteration order was asked for. -/
  calls : ℕ

/-- `ValidationsAdaptor::acquire`, and the orders of iteration. -/
structure ValidationsAdaptor (N L Id : Type) where
  acquire : ℕ → Id → Option L
  order : ℕ → List N → List N
  order_perm : ∀ n nodes, (order n nodes).Perm nodes

/-- A call. -/
abbrev ValM (N L Id : Type) [LinearOrder N] [LinearOrder Id] (α : Type) := Prog Fault (Inner N L Id) Empty α

namespace Inner

def new : Inner N L Id where
  current := ∅
  localSeqEnforcer := {}
  seqEnforcers := ∅
  byLedger := ⟨∅, ∅⟩
  bySequence := ⟨∅, ∅⟩
  keep := none
  nextKeepRefresh := none
  trie := .new
  lastLedger := ∅
  acquiring := ∅
  validationRecoveryAnchor := none
  validationRecoveryCandidate := none
  calls := 0

/-- Ask for an answer that may be another one each time. -/
def ask {α : Type} (answer : ℕ → α) : ValM N L Id α := do
  let s ← Prog.read
  Prog.update fun s => { s with calls := s.calls + 1 }
  return answer s.calls

/-! ### Recovery -/

/-- The nodes of two sets. -/
def extend (nodes more : ExtTreeSet N) : ExtTreeSet N := more.toList.foldl ExtTreeSet.insert nodes

def observeValidationRecovery (s : Inner N L Id) : Option (Provenance N Id) → Inner N L Id
  | none => { s with validationRecoveryCandidate := none }
  | some observed =>
    match s.validationRecoveryAnchor with
    | none => { s with validationRecoveryAnchor := some observed }
    | some anchor =>
      if anchor.key = observed.key then
        { s with validationRecoveryAnchor := some { anchor with nodes := extend anchor.nodes observed.nodes } }
      else
        match s.validationRecoveryCandidate with
        | none => { s with validationRecoveryCandidate := some observed }
        | some candidate =>
          if candidate.key = observed.key then
            { s with validationRecoveryCandidate := some { candidate with nodes := extend candidate.nodes observed.nodes } }
          else { s with validationRecoveryCandidate := some observed }

/-- Whether a slot is for a ledger. -/
def isFor (slot : Option (Provenance N Id)) (key : LedgerKey Id) : Bool := slot.any fun p => p.key = key

def takeValidationRecoveryNodes (s : Inner N L Id) (key : LedgerKey Id) : ExtTreeSet N × Inner N L Id :=
  if isFor s.validationRecoveryAnchor key then
    ((s.validationRecoveryAnchor.map Provenance.nodes).getD ∅,
      { s with
        validationRecoveryAnchor := s.validationRecoveryCandidate
        validationRecoveryCandidate := none })
  else if isFor s.validationRecoveryCandidate key then
    ((s.validationRecoveryCandidate.map Provenance.nodes).getD ∅, { s with validationRecoveryCandidate := none })
  else (∅, s)

def pruneValidationRecoverySigner (s : Inner N L Id) (key : LedgerKey Id) (nodeId : N) : Inner N L Id :=
  let prune := Option.map fun p : Provenance N Id => { p with nodes := p.nodes.erase nodeId }
  if isFor s.validationRecoveryAnchor key then { s with validationRecoveryAnchor := prune s.validationRecoveryAnchor }
  else if isFor s.validationRecoveryCandidate key then
    { s with validationRecoveryCandidate := prune s.validationRecoveryCandidate }
  else s

/-- The slot that is for a ledger, and the slots that are left. -/
def takeExact (proofs : List (Provenance N Id)) (key : LedgerKey Id) : Option (Provenance N Id) × List (Provenance N Id) :=
  match proofs.findIdx? fun p => p.key = key with
  | none => (none, proofs)
  | some i => (proofs[i]?, proofs.eraseIdx i)

def reconcileValidationRecoveryLatch (s : Inner N L Id) (actualAnchor actualCandidate : Option (LedgerKey Id)) :
    Inner N L Id :=
  let proofs := s.validationRecoveryAnchor.toList ++ s.validationRecoveryCandidate.toList
  let (anchor, proofs) := match actualAnchor with
    | none => (none, proofs)
    | some key => takeExact proofs key
  let candidate := match actualCandidate with
    | none => none
    | some key => if actualAnchor = some key then none else (takeExact proofs key).1
  { s with validationRecoveryAnchor := anchor, validationRecoveryCandidate := candidate }

/-! ### Support in the trie -/

/-- A node does not wait for a ledger any more. -/
def leave (s : Inner N L Id) (key : LedgerKey Id) (nodeId : N) : Inner N L Id :=
  match s.acquiring[key]? with
  | none => s
  | some waiters =>
    if (waiters.erase nodeId).isEmpty then { s with acquiring := s.acquiring.erase key }
    else { s with acquiring := s.acquiring.insert key (waiters.erase nodeId) }

/-- A node waits for a ledger. -/
def wait (s : Inner N L Id) (key : LedgerKey Id) (nodeId : N) : Inner N L Id :=
  { s with acquiring := s.acquiring.insert key ((s.acquiring[key]?.getD ∅).insert nodeId) }

/-- `self.trie.remove(ledger.id(), ledger.seq(), 1)`. -/
def trieRemove (ledger : L) : ValM N L Id Unit := do
  let s ← Prog.read
  let (_, trie) ← Prog.lift (s.trie.remove (ownId ledger) (seq ledger) 1)
  Prog.update fun s => { s with trie := trie }

/-- `self.trie.insert(&ledger, 1)`. -/
def trieInsert (ledger : L) : ValM N L Id Unit := do
  let s ← Prog.read
  let trie ← Prog.lift (s.trie.insert ledger 1)
  Prog.update fun s => { s with trie := trie }

/-- The ledger that a node supports is taken back. -/
def dropSupport (nodeId : N) : ValM N L Id Unit := do
  let s ← Prog.read
  whenSome s.lastLedger[nodeId]? fun last => do
    Prog.update fun s => { s with lastLedger := s.lastLedger.erase nodeId }
    trieRemove last

def removeTrie (nodeId : N) (val : Validation Id) : ValM N L Id Unit := do
  Prog.update fun s => (s.pruneValidationRecoverySigner val.ledgerKey nodeId).leave val.ledgerKey nodeId
  let s ← Prog.read
  Prog.when (s.lastLedger[nodeId]?.any fun last => ownId last = val.ledgerId) (dropSupport nodeId)

def updateTrieLedger (ledger : L) (nodeId : N) : ValM N L Id Unit := do
  let s ← Prog.read
  Prog.update fun s => { s with lastLedger := s.lastLedger.insert nodeId ledger }
  whenSome s.lastLedger[nodeId]? trieRemove
  trieInsert ledger

variable (ad : ValidationsAdaptor N L Id) (parms : ValidationParms)

/-- One ledger of `check_acquired`. -/
def checkLedger (key : LedgerKey Id) : ValM N L Id Unit := do
  let acquired ← ask fun n => ad.acquire n (ofLex key).2
  whenSome acquired fun ledger => do
    let s ← Prog.read
    let nodes ← ask fun n => ad.order n (s.acquiring[key]?.getD ∅).toList
    forEach (updateTrieLedger ledger) nodes
    Prog.update fun s => { s with acquiring := s.acquiring.erase key }

def checkAcquired : ValM N L Id Unit := do
  let s ← Prog.read
  forEach (checkLedger ad) s.acquiring.keys

/-- A node comes to support the ledger of a validation, or to wait for it. -/
def supportOrWait (nodeId : N) (val : Validation Id) : ValM N L Id Unit := do
  let s ← Prog.read
  if val.ledgerKey ∈ s.acquiring then Prog.update fun s => s.wait val.ledgerKey nodeId
  else
    match ← ask fun n => ad.acquire n val.ledgerId with
    | some ledger => updateTrieLedger ledger nodeId
    | none => Prog.update fun s => s.wait val.ledgerKey nodeId

def updateTrieValidation (nodeId : N) (val : Validation Id) (prior : Option (LedgerKey Id)) : ValM N L Id Unit := do
  Prog.check val.trusted (.assertion "update_trie_validation: input validation must be trusted")
  whenSome prior fun priorKey => Prog.update fun s => s.leave priorKey nodeId
  checkAcquired ad
  supportOrWait ad nodeId val

/-- One stale validation of `current_live`. -/
def evict (nodeId : N) : ValM N L Id Unit := do
  let s ← Prog.read
  whenSome s.current[nodeId]? (removeTrie nodeId)
  Prog.update fun s => { s with current := s.current.erase nodeId }

/-- `current_live`: what is left is in the state. -/
def currentLive (now : ℕ) : ValM N L Id Unit := do
  let s ← Prog.read
  let stale := (s.current.toList.filter fun e => !isCurrent parms now e.2.signTime e.2.seenTime).map Prod.fst
  let stale ← ask fun n => ad.order n stale
  forEach evict stale

def withTrie (now : ℕ) : ValM N L Id Unit := do
  currentLive ad parms now
  checkAcquired ad

/-! ### The calls -/

/-- A node that waited for a ledger, or signed for it, once it is acquired. -/
def acquiredFor (ledger : L) (recoveryNodes : ExtTreeSet N) (nodeId : N) : ValM N L Id Unit := do
  let s ← Prog.read
  let currentIsEligible := s.current[nodeId]?.any fun current =>
    current.trusted && (!recoveryNodes.contains nodeId || (current.full && decide (seq ledger ≤ current.seq)))
  let recoveryDoesNotDowngrade := !recoveryNodes.contains nodeId ||
    s.lastLedger[nodeId]?.all fun resident => decide (seq resident < seq ledger)
  Prog.when (currentIsEligible && recoveryDoesNotDowngrade) (updateTrieLedger ledger nodeId)

def onLedgerAcquired (now : ℕ) (ledger : L) : ValM N L Id Unit := do
  currentLive ad parms now
  let key : LedgerKey Id := toLex (seq ledger, ownId ledger)
  let s ← Prog.read
  let exactNodes := s.acquiring[key]?.getD ∅
  Prog.update fun s => { s with acquiring := s.acquiring.erase key }
  let s ← Prog.read
  let (recoveryNodes, s') := s.takeValidationRecoveryNodes key
  Prog.update fun _ => s'
  let nodes ← ask fun n => ad.order n (extend exactNodes recoveryNodes).toList
  forEach (acquiredFor ledger recoveryNodes) nodes

/-- One node of `on_ledger_unacquired`. -/
def unacquiredFor (nodeId : N) : ValM N L Id Unit := do
  dropSupport nodeId
  let s ← Prog.read
  whenSome s.current[nodeId]? fun current => Prog.when current.trusted (supportOrWait ad nodeId current)

def onLedgerUnacquired (now : ℕ) (ledgerId : Id) : ValM N L Id ℕ := do
  currentLive ad parms now
  let s ← Prog.read
  let affected := (s.lastLedger.toList.filter fun e => ownId e.2 = ledgerId).map Prod.fst
  let affected ← ask fun n => ad.order n affected
  forEach (unacquiredFor ad) affected
  return affected.length

def canValidateSeq (instant s : ℕ) : ValM N L Id Bool := do
  let inner ← Prog.read
  let (valid, enforcer) := inner.localSeqEnforcer.tryAdvance instant s parms
  Prog.update fun inner => { inner with localSeqEnforcer := enforcer }
  return valid

/-- What `add` keeps at the validation's sequence number. -/
def noteSequence (validations : ExtTreeMap N (Validation Id)) (nodeId : N) (val : Validation Id) :
    ExtTreeMap N (Validation Id) :=
  match validations[nodeId]? with
  | none => validations.insert nodeId val
  | some existing =>
    if parms.validationCurrentWall < ((existing.signTime : ℤ) - val.signTime).natAbs ∧ existing.signTime < val.signTime
    then validations.insert nodeId val else validations

/-- Why `add` refuses a validation that is not for a larger sequence number. -/
def refusal (s : Inner N L Id) (nodeId : N) (val : Validation Id) : ValStatus :=
  match s.bySequence.entries[val.seq]?.bind (·[nodeId]?) with
  | none => .badSeq
  | some existing =>
    if existing.seq ≠ val.seq then .badSeq
    else if existing.ledgerId ≠ val.ledgerId then .conflicting
    else if existing.signTime ≠ val.signTime then .conflicting
    else if existing.cookie ≠ val.cookie then .multiple
    else .badSeq

/-- The last part of `add`. -/
def addCurrent (nodeId : N) (val : Validation Id) : ValM N L Id ValStatus := do
  let s ← Prog.read
  match s.current[nodeId]? with
  | none => do
    Prog.when val.trusted (updateTrieValidation ad nodeId val none)
    Prog.update fun s => { s with current := s.current.insert nodeId val }
    return .current
  | some oldVal =>
    if oldVal.signTime < val.signTime then do
      Prog.update fun s => { s with current := s.current.insert nodeId val }
      Prog.when val.trusted (updateTrieValidation ad nodeId val (some oldVal.ledgerKey))
      return .current
    else return .stale

def add (now instant : ℕ) (nodeId : N) (val : Validation Id) : ValM N L Id ValStatus := do
  if !isCurrent parms now val.signTime val.seenTime then return .stale
  else do
    Prog.update fun s => { s with
      bySequence := s.bySequence.modify val.seq instant ∅ fun vs => noteSequence parms vs nodeId val }
    let s ← Prog.read
    let (valid, enforcer) := (s.seqEnforcers[nodeId]?.getD {}).tryAdvance instant val.seq parms
    Prog.update fun s => { s with seqEnforcers := s.seqEnforcers.insert nodeId enforcer }
    if !valid then return s.refusal nodeId val
    else do
      Prog.update fun s => { s with byLedger := s.byLedger.modify val.ledgerId instant ∅ (·.insert nodeId val) }
      addCurrent ad nodeId val

def setSeqToKeep (low high : ℕ) : ValM N L Id Unit := do
  Prog.check (decide (low < high)) (.assertion "set_seq_to_keep: low must be less than high")
  Prog.update fun s => { s with keep := some (low, high) }

/-- The part of `expire` for the range to keep. -/
def refreshKept (instant low high : ℕ) (s : Inner N L Id) : Inner N L Id :=
  if s.nextKeepRefresh.all fun refresh => decide (refresh ≤ instant) then
    let kept := fun seq => decide (low ≤ seq) && decide (seq < high)
    let ledgers := (s.byLedger.entries.toList.filter fun e =>
      ((ad.order s.calls e.2.keys).head?.bind (e.2[·]?)).any fun v => kept v.seq).map Prod.fst
    let sequences := s.bySequence.entries.keys.filter kept
    { s with
      nextKeepRefresh := some (instant + (parms.validationSetExpires - parms.validationFreshness))
      byLedger := ledgers.foldl (AgedMap.touch · instant) s.byLedger
      bySequence := sequences.foldl (AgedMap.touch · instant) s.bySequence }
  else s

def expire (instant : ℕ) : ValM N L Id Unit :=
  Prog.update fun s =>
    let s := match s.keep with
      | none => s
      | some (low, high) => refreshKept ad parms instant low high s
    { s with
      byLedger := s.byLedger.expire instant parms.validationSetExpires
      bySequence := s.bySequence.expire instant parms.validationSetExpires }

/-- One node of `trust_changed`. -/
def trustChangedFor (added removed : List N) (nodeId : N) : ValM N L Id Unit := do
  let s ← Prog.read
  match s.current[nodeId]? with
  | none => if nodeId ∈ added ∨ nodeId ∈ removed then abort (.expect "just updated") else pure ()
  | some v =>
    if nodeId ∈ added then do
      Prog.update fun s => { s with current := s.current.insert nodeId { v with trusted := true } }
      updateTrieValidation ad nodeId { v with trusted := true } none
    else if nodeId ∈ removed then do
      Prog.update fun s => { s with current := s.current.insert nodeId { v with trusted := false } }
      removeTrie nodeId { v with trusted := false }
    else pure ()

/-- A validation of a node whose trust may have changed. -/
def retrust (added removed : List N) (nodeId : N) (v : Validation Id) : Validation Id :=
  if nodeId ∈ added then { v with trusted := true } else if nodeId ∈ removed then { v with trusted := false } else v

def trustChanged (added removed : List N) : ValM N L Id Unit := do
  let s ← Prog.read
  let nodeIds ← ask fun n => ad.order n s.current.keys
  forEach (trustChangedFor ad added removed) nodeIds
  Prog.update fun s => { s with
    byLedger := { s.byLedger with entries := s.byLedger.entries.map fun _ vs => vs.map (retrust added removed) } }

/-! ### The preferred ledger -/

/-- The last of the largest elements of a list, by a rank: `max_by`. -/
def maxBy {α β : Type} [LinearOrder β] (rank : α → β) : List α → Option α
  | [] => none
  | a :: as => some (as.foldl (fun best x => if rank x < rank best then best else x) a)

/-- The ledger that most nodes wait for. -/
def acquiringPreferred (s : Inner N L Id) : Option (ℕ × Id) :=
  (maxBy (fun e : LedgerKey Id × ExtTreeSet N => toLex (e.2.size, (ofLex e.1).2)) s.acquiring.toList).map
    fun e => ofLex e.1

/-- The working ledger that follows from the preferred one and the own one. -/
def workingLedger (preferred : SpanTip L Id) (curr : L) : ℕ × Id :=
  if preferred.seq = seq curr + 1 ∧ preferred.ancestor (seq curr) = ownId curr then (seq curr, ownId curr)
  else if seq curr < preferred.seq then (preferred.seq, preferred.id)
  else if ancestor curr preferred.seq ≠ preferred.id then (preferred.seq, preferred.id)
  else (seq curr, ownId curr)

/-- The preferred ledger of the trie. -/
def triePreferred (now : ℕ) : ValM N L Id (Option (SpanTip L Id)) := do
  withTrie ad parms now
  let s ← Prog.read
  Prog.lift (s.trie.getPreferred s.localSeqEnforcer.seq)

def getPreferred (now : ℕ) (curr : L) : ValM N L Id (Option (ℕ × Id)) := do
  match ← triePreferred ad parms now with
  | none => return (← Prog.read).acquiringPreferred
  | some preferred => return some (workingLedger preferred curr)

/-- Whether a node's current validation is trusted, full and for a ledger. -/
def isExactSigner (s : Inner N L Id) (key : LedgerKey Id) (nodeId : N) : Bool :=
  s.current[nodeId]?.any fun v => v.trusted && v.full && decide (v.ledgerKey = key)

/-- The ledger that a majority of trusted full validations wait for, with their number. -/
def acquiringQuorumCandidate (s : Inner N L Id) : Option (LedgerKey Id × ℕ) :=
  let full := (s.current.toList.filter fun e => e.2.trusted && e.2.full).length
  let backed := s.acquiring.toList.filterMap fun e =>
    let support := (e.2.toList.filter (s.isExactSigner e.1)).length
    if full / 2 < support then some (e.1, support) else none
  maxBy (fun c : LedgerKey Id × ℕ => toLex (c.2, c.1)) backed

/-- The proof of acquisition for the recovery of a ledger. -/
def recoveryProvenance (s : Inner N L Id) (lcl : L) (minSeq : ℕ) (keepsLcl : Bool) : Option (Provenance N Id) :=
  match s.acquiringQuorumCandidate with
  | none => none
  | some (key, _) =>
    if minSeq ≤ (ofLex key).1 ∧ seq lcl < (ofLex key).1 ∧ seq lcl < (ofLex key).1 - 1 ∧ (ofLex key).2 ≠ ownId lcl ∧ keepsLcl
    then some ⟨key, (s.acquiring[key]?.getD ∅).filter (s.isExactSigner key)⟩
    else none

def getPreferredLcl (now : ℕ) (lcl : L) (minSeq : ℕ) (peerCounts : List (Id × ℕ)) : ValM N L Id Id := do
  let triePreferred ← triePreferred ad parms now
  let s ← Prog.read
  let workingPreferred := match triePreferred with
    | some preferred => some (workingLedger preferred lcl)
    | none => s.acquiringPreferred
  let selected := match workingPreferred with
    | some (seq, id) => if minSeq ≤ seq then id else ownId lcl
    | none => ((maxBy (fun e : Id × ℕ => toLex (e.2, e.1)) peerCounts).map Prod.fst).getD (ownId lcl)
  let provenance := s.recoveryProvenance lcl minSeq (triePreferred.isSome && decide (selected = ownId lcl))
  Prog.update fun s => s.observeValidationRecovery provenance
  return selected

end Inner

end

end Xrpld.Consensus
