import Xrpld.SHAMap.ContinuationInvariant

/-!
# The calls on a plan keep the invariant

Each function of `MissingNodeContinuation` is followed through its branches: an advance with its
loop over the stack, and the results of reads and the nodes of peers with their loops over edges.

## What is proved

`wp_advanceWithBudget`, `wp_applyReadResult`, `wp_applyNetworkNode` and
`wp_applyKnownNetworkNode`: the invariant holds after the call if it held before. Two of them
have a condition: a read that found nothing needs room to record the hash, and a node at the
root must not come after an invalid one.
-/

namespace Xrpld.SHAMap

open Std (ExtTreeMap ExtTreeSet)
open List Option Std.ExtTreeMap SHAMapTreeNode MissingNodeContinuation

variable {E : Empty → SyncMemory → Prop} {α β : Type} {ed : List PendingDeferredFetch}
  {e edge : PendingDeferredFetch} {se : MissingNodeScanState} {n rt eb mn mb : ℕ}
  {cb : Callbacks} {id nid ci cu : SHAMapNodeId} {rest stk : List MissingNodeScanState}
  {un ms : ExtTreeSet SHAMapHash} {ns qu : List Candidate} {left : ℤ} {rd : Bool}

section

variable {db : SHAMapHash → Branch → Option SHAMapHash} {kn : Set SHAMapHash} {skip Y : Set SHAMapHash} {h h' : Heap}
  {pl plan' : MissingNodeContinuation} {s s' : SyncMemory} {root r q : Ref} {y z : SHAMapHash} {go : Ref × SHAMapHash} {b : Branch}

/-! ### Callbacks and records -/

variable {F : Fault → Prop}

@[simp] theorem wp_ask {Q : α → SyncMemory → Prop} (an : ℕ → α) :
    wp (ask an) Q E F s ↔ Q (an s.heap.calls) { s with heap := { s.heap with calls := s.heap.calls + 1 } } :=
  Iff.rfl

variable {Q : Unit → SyncMemory → Prop}

@[simp] theorem wp_setPlan : wp (setPlan pl) Q E F s ↔ Q () { s with plan := pl } := Iff.rfl

@[simp] theorem wp_onNodes {Q : α → SyncMemory → Prop} (p : HeapM Empty α) :
    wp (onNodes p) Q E F s ↔
      wp p (fun a h => Q a { s with heap := h }) (fun e h => E e { s with heap := h }) F s.heap :=
  wp_zoom _ _ _

/-- **What a record changes**: the child is among the missing ones if there is room, and none is forgotten. -/
theorem recordCandidate_ok {message : String} {new : Bool}
    (he : pl.recordCandidate id b y message = .ok (new, plan')) :
    ∃ ms ns qu left, plan' = { pl with
        missingHashes := ms, missingNodes := ns, unannouncedNetwork := qu, remaining := left } ∧
      (∀ z ∈ pl.missingHashes, z ∈ ms) ∧ (0 < pl.remaining ∨ y ∈ pl.missingHashes → y ∈ ms) := by
  have hm : ∀ rd, pl.recordMissingChild id b y = .ok rd → ∃ ms ns left,
      rd = { pl with missingHashes := ms, missingNodes := ns, remaining := left } ∧
      (∀ z ∈ pl.missingHashes, z ∈ ms) ∧ (0 < pl.remaining ∨ y ∈ pl.missingHashes → y ∈ ms) := by
    intro rd hr
    rw [recordMissingChild] at hr
    split at hr
    · next hold =>
      cases hr
      refine ⟨_, _, _, rfl, fun z hz => hz, fun hy => ?_⟩
      rcases hold with hold | hold
      · exact hy.resolve_left (by omega)
      · exact hold
    · cases hi : id.getChildNodeId b with
      | error e => rw [hi] at hr; cases hr
      | ok ci =>
        rw [hi] at hr
        cases hr
        exact ⟨_, _, _, rfl, fun z hz => ExtTreeSet.mem_insert.mpr (.inr hz), fun _ => ExtTreeSet.mem_insert_self⟩
  rw [recordCandidate] at he
  cases hr : pl.recordMissingChild id b y with
  | error e => rw [hr] at he; cases he
  | ok rd =>
    obtain ⟨ms, ns, left, rfl, hmi⟩ := hm rd hr
    rw [hr] at he
    dsimp only [bind, Except.bind] at he
    split at he
    · cases he
      exact ⟨_, _, _, _, rfl, hmi⟩
    · split at he
      · cases he
      · cases he
        exact ⟨_, _, _, _, rfl, hmi⟩

/-- An added edge is there, up to its position. -/
theorem mem_addEdge (ed : List PendingDeferredFetch) (edge : PendingDeferredFetch) :
    ∃ e ∈ addEdge ed edge, e.parent = edge.parent ∧ e.branch = edge.branch := by
  rw [addEdge]
  split
  · next ha =>
    obtain ⟨e, he, hq⟩ := any_eq_true.mp ha
    simp only [Bool.and_eq_true, beq_iff_eq] at hq
    exact ⟨e, he, hq.1.1, hq.1.2⟩
  · exact ⟨edge, mem_append_right _ mem_cons_self, rfl, rfl⟩

theorem subset_addEdge (he : e ∈ ed) : e ∈ addEdge ed edge := by
  rw [addEdge]
  split
  · exact he
  · exact mem_append_left _ he

theorem of_mem_addEdge (he : e ∈ addEdge ed edge) : e ∈ ed ∨ e = edge := by
  rw [addEdge] at he
  split at he
  · exact .inl he
  · exact (mem_append.mp he).imp_right mem_singleton.mp

theorem edgesOk_addEdge (hd : ∀ e ∈ ed, EdgeOk db h root y e) (hed : EdgeOk db h root y edge) :
    EdgesOk db h root y (addEdge ed edge) := by
  constructor
  · obtain ⟨e, he, -⟩ := mem_addEdge ed edge
    exact ne_nil_of_mem he
  · intro e he
    rcases of_mem_addEdge he with he | rfl
    · exact hd e he
    · exact hed

/-- One more edge waits for the network, and the child is recorded as there is room. -/
theorem awaitNetwork_ok (ha : pl.awaitNetwork se b y = .ok plan')
    (he : 0 < pl.remaining) :
    ∃ ms ns qu left, plan' = { pl with
        pendingNetworkByHash := pl.pendingNetworkByHash.insert y
          (addEdge (pl.pendingNetworkByHash[y]?.getD []) (pl.edgeAt se b y))
        missingHashes := ms, missingNodes := ns, unannouncedNetwork := qu, remaining := left } ∧
      (∀ z ∈ pl.missingHashes, z ∈ ms) ∧ y ∈ ms := by
  rw [awaitNetwork] at ha
  dsimp only [bind, Except.bind] at ha
  split at ha
  · cases ha
  · next result hr =>
    cases ha
    obtain ⟨ms, ns, qu, left, hq, hold, hn⟩ := recordCandidate_ok hr
    exact ⟨ms, ns, qu, left, hq, hold, hn (.inl he)⟩

/-- One more edge waits for a read. -/
theorem awaitRead_ok (ha : pl.awaitRead eb se b y rt = some (n, plan')) :
    ∃ pd un, plan' = { pl with
        unannouncedReads := un
        pendingByHash := pl.pendingByHash.insert y
          { pd with edges := addEdge pd.edges (pl.edgeAt se b y) } } ∧
      (pl.pendingByHash[y]? = some pd ∨ pl.pendingByHash[y]? = none ∧ pd.edges = []) := by
  obtain ⟨-, he⟩ := ite_none_left_eq_some.mp ha
  obtain ⟨-, rfl⟩ := Prod.mk.inj (some.inj he)
  refine ⟨_, _, rfl, ?_⟩
  cases pl.pendingByHash[y]? with
  | none => exact .inr ⟨rfl, rfl⟩
  | some pd => exact .inl rfl

/-! ### A turn of the loop -/

/-- A child of the branch has been found: it is full, or its scan is begun. -/
theorem wp_attachOrDescend (hs : PlanInv db kn go ∅ s) (hva : s.plan.invalid = false)
    (hsk : s.plan.stack = se :: rest) (hy : db (s.heap.node se.node).hash se.branch = some y)
    (ha : Attaches db {y} s.heap h) (hq : (h.node se.node).getChild se.branch = some q)
    (hQ : ∀ s', PlanInv db kn go ∅ s' → s'.plan.invalid = false → Q () s') :
    wp (attachOrDescend cb q ci) Q E F { s with
      heap := h
      plan := { s.plan with stack := { se with currentChild := se.currentChild + 1 } :: rest } } := by
  have ht : Attached h s.plan.root q :=
    ((hs.stack se (by rw [hsk]; exact mem_cons_self)).1.attaches ha).getChild hq
  have hh : (h.node q).hash = y := by
    have := ha.storedBy.child _ _ _ hq
    rw [ha.hash, hy] at this
    exact (some.inj this).symm
  have hY : ∀ z, db (s.heap.node se.node).hash se.branch = some z → z ∈ ({y} : Set SHAMapHash) := by
    intro z hz
    rw [hy] at hz
    exact (some.inj hz).symm
  -- without a push the child is full
  have hd : Full db kn h s.plan.root y → Q () { s with
      heap := h
      plan := { s.plan with stack := { se with currentChild := se.currentChild + 1 } :: rest } } := by
    intro hf
    refine hQ _ (hs.pass [] hva hsk hY ha (.inl rfl) (fun hb => ⟨hb, ?_⟩) ?_) hva
    · rintro z rfl
      exact .inl hf
    · rintro z rfl
      exact .inl hf
  simp only [attachOrDescend, wp_bind, wp_read, wp_ite, wp_pure, pushScanState, wp_ask, wp_update]
  refine ⟨fun hi => ⟨fun hf => hd ?_, fun _ => ?_⟩, fun hl => hd ?_⟩
  · rw [ha.marks] at hf
    rw [← hh, ha.hash]
    exact (hs.marks q hf).attaches ha
  · have ha' : Attaches db {y} s.heap { h with calls := h.calls + 1 } :=
      ha.trans (Attaches.of_node_eq ha.storedBy rfl)
    refine hQ _ (hs.pass [_] hva hsk hY ha' (.inr ⟨_, rfl, rfl, ht, hi⟩) (fun hb => ⟨hb, ?_⟩) ?_) hva
    · rintro z rfl
      exact .inr ⟨_, rfl, hh⟩
    · rintro z rfl
      exact .inr (.inr ⟨_, rfl, hh⟩)
  · rw [← hh]
    exact full_of_leaf ha.storedBy ht (by simpa using hl)

/-- The full-below cache is sound: what it has is known, or has been marked. -/
def Callbacks.Sound (known : Set SHAMapHash) (cb : Callbacks) : Prop :=
  ∀ n marked y, cb.isFullBelow n marked y = true → y ∈ known ∨ y ∈ marked

/-- What is known is closed under stored hashes. -/
def Closed (stored : SHAMapHash → Branch → Option SHAMapHash) (known : Set SHAMapHash) : Prop :=
  ∀ y ∈ known, ∀ z, Stores stored y z → z ∈ known

section

variable {bs : ℕ}

/-- What holds after a turn. -/
def TurnOk (stored : SHAMapHash → Branch → Option SHAMapHash) (known : Set SHAMapHash) (goal : Ref × SHAMapHash) (turn : Turn)
    (s : SyncMemory) : Prop :=
  PlanInv stored known goal ∅ s ∧ (∀ branchSteps retained, turn = .next branchSteps retained → s.plan.invalid = false)

variable (hs : PlanInv db kn go ∅ s)

include hs

variable (hva : s.plan.invalid = false)

include hva

/-- A child that is asked of the network: it is recorded as missing, as there is room. -/
theorem planInv_awaitNetwork (hr : 0 < s.plan.remaining) (hsk : s.plan.stack = se :: rest)
    (hy : db (s.heap.node se.node).hash se.branch = some y) (ha : Attaches db {y} s.heap h)
    (hw : awaitNetwork
      { s.plan with stack := { se with currentChild := se.currentChild + 1, fullBelow := false } :: rest }
      { se with currentChild := se.currentChild + 1 } se.branch y = .ok pl) :
    PlanInv db kn go ∅ { s with heap := h, plan := pl } ∧ pl.invalid = false := by
  obtain ⟨ms, ns, qu, left, rfl, hold, hn⟩ := awaitNetwork_ok hw hr
  refine ⟨hs.move [] hva hsk (fun z hz => ?_) ha rfl rfl rfl rfl rfl (.inl rfl) (fun hf => ?_) hold
    (fun z pd hp => (hs.reads z pd hp).attaches ha) (fun z ed hp => ?_)
    (fun _ pd _ hp he => ⟨pd, hp, he⟩) ?_, hva⟩
  · rw [hy] at hz
    exact (some.inj hz).symm
  · cases hf
  · rw [ExtTreeMap.getElem?_insert] at hp
    split at hp
    · next hq =>
      cases hp
      cases compare_eq_iff_eq.mp hq
      apply edgesOk_addEdge
      · intro e he
        cases hd : s.plan.pendingNetworkByHash[y]? with
        | none => rw [hd] at he; cases he
        | some ed => rw [hd] at he; exact ((hs.network y ed hd).attaches ha).2 e he
      · exact ⟨(hs.stack se (by rw [hsk]; exact mem_cons_self)).1.attaches ha, by rw [ha.hash]; exact hy⟩
    · exact (hs.network z ed hp).attaches ha
  · rintro z rfl
    exact .inr (.inl hn)

variable (hsk : s.plan.stack = se :: rest)

include hsk

/-- A child that is to be read: an edge waits for it. -/
theorem planInv_awaitRead (hy : db (s.heap.node se.node).hash se.branch = some y)
    (ho : (s.heap.node se.node).getChild se.branch = none) (hw : awaitRead
      { s.plan with stack := { se with currentChild := se.currentChild + 1, fullBelow := false } :: rest } eb
      { se with currentChild := se.currentChild + 1 } se.branch y rt = some (n, pl)) (calls : ℕ) :
    PlanInv db kn go ∅ { s with heap := { s.heap with calls := calls }, plan := pl } ∧ pl.invalid = false := by
  obtain ⟨pd, un, rfl, hpe⟩ := awaitRead_ok hw
  have ha : Attaches db {y} s.heap { s.heap with calls := calls } := Attaches.of_node_eq hs.storedBy rfl
  refine ⟨hs.move [] hva hsk (fun z hz => ?_) ha rfl rfl rfl rfl rfl (.inl rfl) (fun hf => ?_) (fun _ hz => hz)
    (fun z p hp => ?_) (fun z ed hp => (hs.network z ed hp).attaches ha) (fun z p edge hp he => ?_) ?_,
    hva⟩
  · rw [hy] at hz
    exact (some.inj hz).symm
  · cases hf
  · rw [ExtTreeMap.getElem?_insert] at hp
    split at hp
    · next hq =>
      cases hp
      cases compare_eq_iff_eq.mp hq
      apply edgesOk_addEdge
      · intro e he
        rcases hpe with hpe | ⟨-, hn⟩
        · exact ((hs.reads y pd hpe).attaches ha).2 e he
        · rw [hn] at he
          cases he
      · exact ⟨(hs.stack se (by rw [hsk]; exact mem_cons_self)).1.attaches ha, hy⟩
    · exact (hs.reads z p hp).attaches ha
  · rw [ExtTreeMap.getElem?_insert]
    split
    · next hq =>
      cases compare_eq_iff_eq.mp hq
      rcases hpe with hpe | ⟨hpe, -⟩
      · cases some.inj (hpe.symm.trans hp)
        exact ⟨_, rfl, subset_addEdge he⟩
      · cases hpe.symm.trans hp
    · exact ⟨p, hp, he⟩
  · rintro z rfl
    obtain ⟨e, he, hpa, hb⟩ := mem_addEdge pd.edges (s.plan.edgeAt se se.branch z)
    refine .inr (.inr (.inl ⟨_, e, getElem?_insert_self, he, ?_⟩))
    rw [hpa, hb]
    exact ho

omit hsk in
/-- A turn from where the child is neither missing nor full below. -/
theorem wp_scanChild (hr : 0 < s.plan.remaining) (hsk : s.plan.stack = se :: rest)
    (hy : db (s.heap.node se.node).hash se.branch = some y) (n : ℕ) :
    wp (scanChild eb cb { se with currentChild := se.currentChild + 1 } rest se.branch y ci
      bs rt) (TurnOk db kn go) E ⊤ { s with
        heap := { s.heap with calls := n }
        plan := { s.plan with stack := { se with currentChild := se.currentChild + 1 } :: rest } } := by
  have ha : ∀ n, Attaches db {y} s.heap { s.heap with calls := n } := fun _ => Attaches.of_node_eq hs.storedBy rfl
  simp only [scanChild, wp_bind, wp_read, wp_ite]
  refine ⟨fun _ => ?_, fun _ => ?_⟩
  · -- the network is asked already
    cases hw : awaitNetwork
      { s.plan with stack := { se with currentChild := se.currentChild + 1, fullBelow := false } :: rest }
      { se with currentChild := se.currentChild + 1 } se.branch y with
    | error f => exact trivial
    | ok pl =>
      have hn := planInv_awaitNetwork hs hva hr hsk hy (ha n) hw
      exact ⟨hn.1, fun _ _ _ => hn.2⟩
  · cases hc : (s.heap.node se.node).getChild se.branch with
    | some ch =>
      simp only [wp_bind, wp_pure]
      exact wp_attachOrDescend hs hva hsk hy (ha n) hc fun s' hs' hv => ⟨hs', fun _ _ _ => hv⟩
    | none =>
      simp only [wp_bind, wp_ask]
      cases cb.loadResident n y s.plan.ledgerSeq with
      | some ch =>
        simp only [wp_ite, wp_bind, wp_setPlan, wp_pure, wp_onNodes]
        refine ⟨fun _ => ⟨?_, ?_⟩, fun _ => ?_⟩
        · refine hs.invalidate (fun st ht => ?_) fun _ _ hp => hp
          rw [hsk]
          rcases mem_cons.mp ht with rfl | ht
          · exact ⟨se, mem_cons_self, rfl⟩
          · exact ⟨st, mem_cons_of_mem _ ht, rfl⟩
        · intro _ _ h
          cases h
        · refine wp_canonicalizeChild_stored (ha (n + 1)).storedBy hy fun q h' ha' hq => ?_
          exact wp_attachOrDescend hs hva hsk hy ((ha (n + 1)).trans ha') hq fun s' hs' hv => ⟨hs', fun _ _ _ => hv⟩
      | none =>
        cases hw : awaitRead
          { s.plan with stack := { se with currentChild := se.currentChild + 1, fullBelow := false } :: rest }
          eb { se with currentChild := se.currentChild + 1 } se.branch y rt with
        | some result =>
          have hn := planInv_awaitRead hs hva hsk hy hc hw (n + 1)
          exact ⟨hn.1, fun _ _ _ => hn.2⟩
        | none =>
          have hold := hs.scanned hva
          rw [hsk] at hold
          refine ⟨hs.restack (fun st ht => ?_) (fun st ht => ?_) fun _ => ⟨fun h => ?_, hold.2⟩, fun _ _ h => ?_⟩
          · rw [hsk]
            rcases mem_cons.mp ht with rfl | ht
            · exact ⟨se, mem_cons_self, rfl⟩
            · exact ⟨st, mem_cons_of_mem _ ht, rfl⟩
          · rw [hsk] at ht
            rcases mem_cons.mp ht with rfl | ht
            · exact .inr ⟨_, mem_cons_self, rfl, rfl, by simp⟩
            · exact .inr ⟨st, mem_cons_of_mem _ ht, rfl, rfl, le_rfl⟩
          · cases h
          · cases h

omit hsk in
omit hva in
omit hs in
/-- A mark on a node changes nothing else of it. -/
theorem setFullBelowGen_same (n : SHAMapTreeNode) (g : ℕ) :
    (n.setFullBelowGen g).hash = n.hash ∧ (n.setFullBelowGen g).isInner = n.isInner ∧
      (n.setFullBelowGen g).slots = n.slots := by
  cases hb : n.body with
  | leaf type it => simp only [SHAMapTreeNode.setFullBelowGen, hb, and_self]
  | inner g' sl =>
    simp only [SHAMapTreeNode.setFullBelowGen, SHAMapTreeNode.isInner, SHAMapTreeNode.slots, hb, and_self]

/-- A node all of whose branches have been passed is full, if it counts as such. -/
theorem full_of_passed (h16 : 16 ≤ se.currentChild) (hf : se.fullBelow) :
    Full db kn s.heap s.plan.root (s.heap.node se.node).hash := by
  apply AllBelow.of_steps
  · exact .inr ⟨se.node, (hs.stack se (by rw [hsk]; exact mem_cons_self)).1, rfl⟩
  · rintro z ⟨b, hb⟩
    obtain ⟨i, hi, he⟩ := exists_turn se.firstChild b
    have hold := hs.scanned hva
    rw [hsk] at hold
    rw [← show ({ se with currentChild := i } : MissingNodeScanState).branch = b from Fin.ext he] at hb
    rcases hold.1 hf i (by omega) z hb with hz | hz
    · exact hz
    · cases hz

omit hsk in
omit hva in
omit hs in
/-- The scan below a full node needs no exception. -/
theorem StackFull.full_above (hy : Full db kn h root y) (hs : StackFull db kn h root (some y) stk) : StackFull db kn h root none stk := by
  cases stk with
  | nil => trivial
  | cons st rest =>
    refine ⟨fun hf i hi z hz => .inl ?_, hs.2⟩
    rcases hs.1 hf i hi z hz with hz | hz
    · exact hz
    · cases hz
      exact hy

/-- The node on top of the stack is marked and its scan is over. -/
theorem PlanInv.mark (h16 : 16 ≤ se.currentChild)
    (hn : Full db kn s.heap s.plan.root (s.heap.node se.node).hash)
    (hh : ∀ r, (h.node r).hash = (s.heap.node r).hash) (hi : ∀ r, (h.node r).isInner = (s.heap.node r).isInner)
    (hl : ∀ r, (h.node r).slots = (s.heap.node r).slots) (ho : ∀ r ≠ se.node, h.node r = s.heap.node r)
    (marked : List SHAMapHash) (ht : ∀ y ∈ marked, y ∈ s.marked ∨ Full db kn s.heap s.plan.root y) :
    PlanInv db kn go ∅ { heap := h, plan := { s.plan with stack := rest }, marked := marked } := by
  have hc : ∀ r b, (h.node r).getChild b = (s.heap.node r).getChild b := by
    intro r b
    rw [getChild, hl, getChild]
  have hold := hs.scanned hva
  rw [hsk] at hold
  refine hs.requeue ⟨fun r b => ?_, fun r b q hq => ?_⟩ hh hi hc (fun r hr => ?_) ht rfl
    (fun st hst => ?_) (fun _ _ h => h) (fun _ => ?_) (fun y hy => .inr ?_)
  · rw [hh, hl]
    exact hs.storedBy.slot r b
  · rw [hc] at hq
    rw [hh, hh]
    exact hs.storedBy.child r b q hq
  · by_cases hx : r = se.node
    · rw [hx]
      exact .inr hn
    · rw [ho r hx] at hr
      exact .inl hr
  · exact hs.stack st (by rw [hsk]; exact mem_cons_of_mem _ hst)
  · exact (hold.2.full_above hn).grow (fun r b q hq => (hc r b).trans hq) hh
  · rcases hy with ⟨st, hst, i, he, hlt, hb⟩ | ⟨k, rs, b, hk, hb⟩
    · rw [hsk] at hst
      rcases mem_cons.mp hst with rfl | hst
      · omega
      · exact .inl ⟨st, hst, i, he, hlt, by rw [hh]; exact hb⟩
    · exact .inr ⟨k, rs, b, hk, by rw [hh]; exact hb⟩

/-- **The end of a scan** keeps the invariant. -/
theorem wp_popState (h16 : 16 ≤ se.currentChild)
    (hQ : ∀ s', PlanInv db kn go ∅ s' → s'.plan.invalid = false → Q () s') :
    wp (popState se rest) Q E ⊤ s := by
  have hold := hs.scanned hva
  rw [hsk] at hold
  simp only [popState, markFullBelow, wp_bind, wp_read, wp_ite, wp_setPlan, wp_onNodes, store, wp_update, wp_pure]
  refine ⟨fun hf => ?_, fun _ => hQ _ ?_ hva⟩
  · have hn := full_of_passed hs hva hsk h16 hf
    have hsm : ∀ r, ((s.heap.set se.node ((s.heap.node se.node).setFullBelowGen s.plan.generation)).node r).hash =
          (s.heap.node r).hash ∧
        ((s.heap.set se.node ((s.heap.node se.node).setFullBelowGen s.plan.generation)).node r).isInner =
          (s.heap.node r).isInner ∧
        ((s.heap.set se.node ((s.heap.node se.node).setFullBelowGen s.plan.generation)).node r).slots =
          (s.heap.node r).slots := by
      intro r
      by_cases hr : r = se.node
      · rw [hr, node_set_self]
        exact setFullBelowGen_same _ _
      · rw [node_set_of_ne hr]
        exact ⟨rfl, rfl, rfl⟩
    have hm := hs.mark hva hsk h16 hn (fun r => (hsm r).1) (fun r => (hsm r).2.1)
      (fun r => (hsm r).2.2) (fun r hr => node_set_of_ne hr _)
    refine ⟨fun _ => hQ _ (hm _ fun y hy => ?_) hva, fun _ => hQ _ (hm _ fun y hy => .inl hy) hva⟩
    rcases mem_cons.mp hy with rfl | hy
    · exact .inr hn
    · exact .inl hy
  · -- the parent, if there is one, is not full below
    have ht : ∀ {P : MissingNodeScanState → Prop}, (∀ st ∈ rest, P st) → ∀ st ∈ s.plan.stack,
        16 ≤ st.currentChild ∨ P st := by
      intro P he st hst
      rw [hsk] at hst
      rcases mem_cons.mp hst with rfl | hst
      · exact .inl h16
      · exact .inr (he st hst)
    refine hs.restack ?_ (ht ?_) fun _ => ?_
    · cases rest with
      | nil => intro st hst; cases hst
      | cons parent rest =>
        intro st hst
        rw [hsk]
        rcases mem_cons.mp hst with rfl | hst
        · exact ⟨parent, mem_cons_of_mem _ mem_cons_self, rfl⟩
        · exact ⟨st, mem_cons_of_mem _ (mem_cons_of_mem _ hst), rfl⟩
    · cases rest with
      | nil => intro st hst; cases hst
      | cons parent rest =>
        intro st hst
        rcases mem_cons.mp hst with rfl | hst
        · exact ⟨_, mem_cons_self, rfl, rfl, le_rfl⟩
        · exact ⟨st, mem_cons_of_mem _ hst, rfl, rfl, le_rfl⟩
    · cases rest with
      | nil => trivial
      | cons parent rest =>
        refine ⟨fun h => ?_, hold.2.2⟩
        cases h

omit hsk

omit hva

omit hs in
/-- **A turn that looks at a branch** keeps the invariant. -/
theorem wp_scanBranch (hcl : Closed db kn) (hb : cb.Sound kn) (hs : PlanInv db kn go ∅ s)
    (hva : s.plan.invalid = false) (hr : 0 < s.plan.remaining) (hsk : s.plan.stack = se :: rest) :
    wp (scanBranch eb cb se rest bs rt) (TurnOk db kn go) E ⊤ s := by
  have ha : ∀ Y n, Attaches db Y s.heap { s.heap with calls := n } := fun _ _ => Attaches.of_node_eq hs.storedBy rfl
  have hi := (hs.stack se (by rw [hsk]; exact mem_cons_self)).2
  simp only [scanBranch, wp_bind, wp_read, wp_setPlan, wp_ite, wp_pure]
  refine ⟨fun he => ⟨?_, fun _ _ _ => hva⟩, fun he => ?_⟩
  · refine hs.pass (Y := ∅) [] hva hsk (fun z hz => ?_) (ha ∅ _) (.inl rfl) (fun hf => ⟨hf, ?_⟩) ?_
    · rw [stored_of_isEmptyBranch hs.storedBy he] at hz
      cases hz
    · rintro y ⟨⟩
    · rintro y ⟨⟩
  have hy := stored_of_not_isEmptyBranch hs.storedBy hi (by simpa using he)
  have hY : ∀ z, db (s.heap.node se.node).hash se.branch = some z →
      z ∈ ({(s.heap.node se.node).getChildHash se.branch} : Set SHAMapHash) := by
    intro z hz
    rw [hy] at hz
    exact (some.inj hz).symm
  refine ⟨fun hm => ⟨?_, fun _ _ _ => hva⟩, fun _ => ?_⟩
  · refine hs.pass [] hva hsk hY (ha _ _) (.inl rfl) (fun hf => ?_) ?_
    · cases hf
    · rintro y rfl
      exact .inr (.inl hm)
  -- the cache, if there is one
  refine ⟨fun _ => ?_, fun _ => ⟨fun h => ?_, fun _ => ?_⟩⟩
  · rw [wp_ask]
    refine ⟨fun hl => ⟨?_, fun _ _ _ => hva⟩, fun _ => ?_⟩
    swap
    · cases se.nodeId.getChildNodeId se.branch with
      | error _ => exact trivial
      | ok ci => exact wp_scanChild hs hva hr hsk hy _
    have hl : Full db kn { s.heap with calls := s.heap.calls + 1 } s.plan.root
        ((s.heap.node se.node).getChildHash se.branch) := by
      rcases hb _ _ _ hl with hk | hk
      · exact full_of_known hcl hk
      · exact (hs.told _ hk).attaches (ha ∅ _)
    refine hs.pass [] hva hsk hY (ha _ _) (.inl rfl) (fun hf => ⟨hf, ?_⟩) ?_
    · rintro y rfl
      exact .inl hl
    · rintro y rfl
      exact .inl hl
  · cases h
  · cases se.nodeId.getChildNodeId se.branch with
    | error _ => exact trivial
    | ok ci => exact wp_scanChild hs hva hr hsk hy s.heap.calls

omit hs in
/-- **The loop of an advance** keeps the invariant. -/
theorem wp_advanceLoop (hl : Closed db kn) (hc : cb.Sound kn) (tn : ℕ)
    (hs : PlanInv db kn go ∅ s) (hva : s.plan.invalid = false) :
    wp (advanceLoop eb cb mb tn bs rt) (fun _ s' => PlanInv db kn go ∅ s') E ⊤ s := by
  induction tn generalizing s bs rt with
  | zero => exact trivial
  | succ tn ih =>
    simp only [advanceLoop, wp_bind, wp_read]
    cases hsk : s.plan.stack with
    | nil => exact hs
    | cons se rest =>
      simp only [wp_ite, wp_bind, wp_pure, wp_ask]
      refine ⟨fun _ => hs, fun hg => ⟨fun _ => hs.calls _, fun _ => ⟨fun h16 => ?_, fun _ => ?_⟩⟩⟩
      · exact wp_popState (hs.calls _) hva hsk h16 fun s' hs' hv => ih hs' hv
      · have hr : 0 < s.plan.remaining := by omega
        refine wp_mono (wp_scanBranch hl hc (hs.calls _) hva hr hsk) (fun turn s' ht => ?_)
          (fun _ _ h => h) fun _ _ => trivial
        cases turn with
        | next bs rt => exact ih ht.1 (ht.2 _ _ rfl)
        | stop => exact ht.1
        | invalid => exact ht.1

omit hs in
/-- **What `enqueue_deferred_resumes` does**: the nodes that are not full below are pushed. -/
theorem wp_enqueueDeferredResumes (rq : List DeferredResume)
    (hQ : ∀ stk n, (∀ st ∈ stk, st.currentChild = 0 ∧ ∃ rs ∈ rq, st.node = rs.node) →
      (∀ rs ∈ rq, (s.heap.node rs.node).isFullBelow s.plan.generation ∨
        ∃ st ∈ stk, st.node = rs.node) →
      Q () { s with
        heap := { s.heap with calls := n }
        plan := { s.plan with stack := stk ++ s.plan.stack } }) :
    wp (enqueueDeferredResumes cb rq) Q E F s := by
  induction rq generalizing s with
  | nil =>
    refine hQ [] s.heap.calls ?_ ?_
    · intro st ht
      cases ht
    · intro rs hr
      cases hr
  | cons rs rq ih =>
    simp only [enqueueDeferredResumes, enqueueDeferredResumes.attachResume, wp_bind, wp_read, wp_ite,
      wp_pure, pushScanState, wp_ask, wp_update]
    refine ⟨fun hf => ih fun stk n hfr ho => hQ stk n (fun st ht => ?_) fun resume' hm => ?_,
      fun _ => ih fun stk n hfr ho => ?_⟩
    · obtain ⟨h0, resume', hm, he⟩ := hfr st ht
      exact ⟨h0, resume', mem_cons_of_mem _ hm, he⟩
    · rcases mem_cons.mp hm with rfl | hm
      · exact .inl hf
      · exact ho resume' hm
    · have hl := hQ (stk ++ [⟨rs.node, rs.nodeId, (cb.nextFirstChild s.heap.calls).toNat, 0, true⟩]) n
        (fun st ht => ?_) fun resume' hm => ?_
      · rw [append_assoc] at hl
        exact hl
      · rcases mem_append.mp ht with ht | ht
        · obtain ⟨h0, resume', hm, he⟩ := hfr st ht
          exact ⟨h0, resume', mem_cons_of_mem _ hm, he⟩
        · cases mem_singleton.mp ht
          exact ⟨rfl, rs, mem_cons_self, rfl⟩
      · rcases mem_cons.mp hm with rfl | hm
        · exact .inr ⟨_, mem_append_right _ mem_cons_self, rfl⟩
        · rcases ho resume' hm with hf | ⟨st, ht, he⟩
          · exact .inl hf
          · exact .inr ⟨st, mem_append_left _ ht, he⟩

/-- **The nodes to look at again are taken up**: what was ahead through them is ahead through their scans, or full. -/
theorem wp_activateDeferredResumes
    (hQ : ∀ s', PlanInv db kn go ∅ s' → s'.plan.invalid = s.plan.invalid → Q () s') :
    wp (activateDeferredResumes cb) Q E F s := by
  simp only [activateDeferredResumes, wp_bind, wp_read, wp_ite, wp_setPlan, wp_pure]
  refine ⟨fun hg => ?_, fun _ => hQ s hs rfl⟩
  simp only [Bool.and_eq_true, List.isEmpty_iff] at hg
  have hm : ∀ {rs}, rs ∈ s.plan.deferredResumes.toList.map Prod.snd → s.plan.deferredResumes[rs.node]? = some rs := by
    intro rs hr
    obtain ⟨⟨k, rs⟩, hk, rfl⟩ := mem_map.mp hr
    rw [mem_toList_iff_getElem?_eq_some] at hk
    rw [(hs.resumes k rs hk).1]
    exact hk
  refine wp_enqueueDeferredResumes _ fun stk n hf ho => hQ _ ?_ rfl
  have ha : Attaches db ∅ s.heap { s.heap with calls := n } := Attaches.of_node_eq hs.storedBy rfl
  rw [hg.1, List.append_nil]
  refine hs.requeue ha.storedBy (fun _ => rfl) (fun _ => rfl) (fun _ _ => rfl) (fun _ h => .inl h) (fun _ h => .inl h) rfl
    (fun st ht => ?_) (fun k rs hk => ?_) (fun _ => stackFull_of_fresh fun st ht => (hf st ht).1) fun y hy => ?_
  · obtain ⟨-, rs, hr, he⟩ := hf st ht
    rw [he]
    exact (hs.resumes _ _ (hm hr)).2
  · rw [getElem?_empty] at hk
    cases hk
  · rcases hy with ⟨st, ht, -⟩ | ⟨k, rs, b, hk, hb⟩
    · rw [hg.1] at ht
      cases ht
    · have hn := (hs.resumes k rs hk).1
      have hr : rs ∈ s.plan.deferredResumes.toList.map Prod.snd :=
        mem_map.mpr ⟨(k, rs), mem_toList_iff_getElem?_eq_some.mpr hk, rfl⟩
      rw [← hn] at hb
      rcases ho rs hr with hl | ⟨st, ht, he⟩
      · exact .inl ((hs.marks _ hl).child hb)
      · rw [← he] at hb
        exact .inr (ahead_of_fresh ht (hf st ht).1 hb)

omit hs

/-- What is kept after an advance: the invariant, and an answer of completion is that of the plan. -/
def AnswerOk (stored : SHAMapHash → Branch → Option SHAMapHash) (known : Set SHAMapHash) (goal : Ref × SHAMapHash)
    (answer : Option MissingNodeAdvance) (s : SyncMemory) : Prop :=
  PlanInv stored known goal ∅ s ∧ (answer = some .complete → s.plan.isComplete = true)

theorem takeUnannouncedReads_plan (pl : MissingNodeContinuation) (mn : ℕ) :
    ∃ un, (pl.takeUnannouncedReads mn).2 = { pl with unannouncedReads := un } := by
  rw [takeUnannouncedReads]
  split
  · exact ⟨_, rfl⟩
  · exact ⟨_, rfl⟩

theorem wp_advanceAnswer (hs : PlanInv db kn go ∅ s) :
    wp (advanceAnswer mn) (fun an => AnswerOk db kn go (some an)) E F s := by
  obtain ⟨un, ht⟩ := takeUnannouncedReads_plan s.plan mn
  have hp : ∀ qu, PlanInv db kn go ∅
      { s with plan := { s.plan with unannouncedReads := un, unannouncedNetwork := qu } } :=
    fun qu => hs.announce fun _ _ h => h
  simp only [advanceAnswer, wp_bind, wp_read, wp_setPlan, wp_ite, wp_pure, ht]
  refine ⟨fun _ => ⟨hp _, fun h => ?_⟩, fun _ => ⟨fun _ => ⟨hp _, fun h => ?_⟩,
    fun _ => ⟨fun _ => ⟨hp _, fun h => ?_⟩, fun _ => ⟨fun hc => ⟨hp _, fun _ => hc⟩,
    fun _ => ⟨hp _, fun h => ?_⟩⟩⟩⟩⟩ <;> cases h

/-- **An advance** keeps the invariant, and its answer is true of the plan. -/
theorem wp_advanceWithBudget {tn : ℕ} (hl : Closed db kn) (hc : cb.Sound kn)
    (hs : PlanInv db kn go ∅ s) :
    wp (advanceWithBudget eb tn mb mn cb) (fun an => AnswerOk db kn go (some an)) E ⊤ s := by
  simp only [advanceWithBudget, wp_bind, wp_read, wp_ite, wp_pure]
  refine ⟨fun _ => ⟨hs, fun h => ?_⟩, fun hva => ?_⟩
  · cases h
  · refine wp_activateDeferredResumes hs fun s1 hs1 he => ?_
    refine wp_mono (wp_advanceLoop hl hc tn hs1 (by rw [he]; simpa using hva)) (fun valid s2 hs2 => ?_)
      (fun _ _ h => h) fun _ _ => trivial
    refine ⟨fun _ => wp_advanceAnswer hs2, fun _ => ⟨hs2, fun h => ?_⟩⟩
    cases h

end

/-! ### Results of reads and nodes of peers -/

section

variable {node : Ref} {rq more : ExtTreeMap Ref DeferredResume} {k : Ref} {rs : DeferredResume}

/-- **What attaching to edges does**: their parents are all to be looked at again, and nothing else is. -/
theorem wp_attachEdges {Q : ExtTreeMap Ref DeferredResume → SyncMemory → Prop} (hs : StoredBy db s.heap)
    (hd : ∀ e ∈ ed, db (s.heap.node e.parent).hash e.branch = some y)
    (hQ : ∀ (resumes' : ExtTreeMap Ref DeferredResume) h', Attaches db {y} s.heap h' →
      (∀ k rs, resumes'[k]? = some rs → rq[k]? = some rs ∨
        rs.node = k ∧ ∃ e ∈ ed, e.parent = k) →
      (∀ k, (k ∈ rq ∨ ∃ e ∈ ed, e.parent = k) → k ∈ resumes') → Q resumes' { s with heap := h' }) :
    wp (attachEdges node ed rq) Q E ⊤ s := by
  induction ed generalizing s rq with
  | nil =>
    refine hQ rq s.heap (Attaches.of_node_eq hs rfl) (fun k rs hk => .inl hk) fun k hk => ?_
    rcases hk with hk | ⟨e, he, -⟩
    · exact hk
    · cases he
  | cons edge ed ih =>
    simp only [attachEdges, wp_bind, wp_onNodes]
    refine wp_canonicalizeChild_stored hs (hd edge mem_cons_self) fun q h1 ha _ => ?_
    refine ih ha.storedBy (fun e he => ?_) fun resumes' h2 ha2 hf ht => hQ resumes' h2 (ha.trans ha2) ?_ ?_
    · rw [ha.hash]
      exact hd e (mem_cons_of_mem _ he)
    · intro k rs hk
      rcases hf k rs hk with hk | ⟨hnd, e, he, hq⟩
      · rw [getElem?_insertIfNew] at hk
        split at hk
        · next hn =>
          cases hk
          exact .inr ⟨compare_eq_iff_eq.mp hn.1, edge, mem_cons_self, compare_eq_iff_eq.mp hn.1⟩
        · exact .inl hk
      · exact .inr ⟨hnd, e, mem_cons_of_mem _ he, hq⟩
    · intro k hk
      apply ht
      rw [mem_insertIfNew]
      rcases hk with hk | ⟨e, he, hq⟩
      · exact .inl (.inr hk)
      · rcases mem_cons.mp he with rfl | he
        · exact .inl (.inl (compare_eq_iff_eq.mpr hq))
        · exact .inr ⟨e, he, hq⟩

/-- The resumes after `extend` are those of the one map or of the other. -/
theorem extendResumes_some (hk : (extendResumes rq more)[k]? = some rs) : more[k]? = some rs ∨ rq[k]? = some rs := by
  rw [← mem_toList_iff_getElem?_eq_some (t := more)]
  rw [extendResumes] at hk
  generalize more.toList = es at hk ⊢
  induction es generalizing rq with
  | nil => exact .inr hk
  | cons en es ih =>
    rcases ih hk with hm | hk
    · exact .inl (mem_cons_of_mem _ hm)
    · rw [ExtTreeMap.getElem?_insert] at hk
      split at hk
      · next he =>
        cases hk
        cases compare_eq_iff_eq.mp he
        exact .inl mem_cons_self
      · exact .inr hk

theorem mem_extendResumes (hk : k ∈ rq ∨ k ∈ more) : k ∈ extendResumes rq more := by
  replace hk : k ∈ rq ∨ ∃ rs, (k, rs) ∈ more.toList := by
    refine hk.imp_right fun hm => ⟨more[k], ?_⟩
    exact mem_toList_iff_getElem?_eq_some.mpr (getElem?_eq_some_getElem hm)
  rw [extendResumes]
  generalize more.toList = es at hk ⊢
  induction es generalizing rq with
  | nil =>
    rcases hk with hk | ⟨rs, hm⟩
    · exact hk
    · cases hm
  | cons en es ih =>
    apply ih
    rw [mem_insert]
    rcases hk with hk | ⟨rs, hm⟩
    · exact .inl (.inr hk)
    · rcases mem_cons.mp hm with rfl | hm
      · exact .inl (.inl (compare_eq_iff_eq.mpr rfl))
      · exact .inr ⟨rs, hm⟩

variable {nw : ExtTreeMap SHAMapHash (List PendingDeferredFetch)}

/-- **What waits for some hashes is taken out**: only those hashes may not be accounted for then. -/
theorem PlanInv.take (hs : PlanInv db kn go ∅ s) {limit : Bool}
    {pd : ExtTreeMap SHAMapHash PendingReadEdges} (hm : ∀ z ∈ s.plan.missingHashes, z ∉ Y → z ∈ ms)
    (hd : ∀ (z : SHAMapHash) (p : PendingReadEdges), pd[z]? = some p → s.plan.pendingByHash[z]? = some p)
    (hpe : ∀ (z : SHAMapHash) (p : PendingReadEdges), s.plan.pendingByHash[z]? = some p → z ∉ Y →
      (∃ edge ∈ p.edges, (s.heap.node edge.parent).getChild edge.branch = none) → pd[z]? = some p)
    (hw : ∀ (z : SHAMapHash) (e : List PendingDeferredFetch), nw[z]? = some e →
      s.plan.pendingNetworkByHash[z]? = some e) :
    PlanInv db kn go Y { s with
      plan := { s.plan with
        missingHashes := ms, missingNodes := ns, remaining := left, pendingByHash := pd
        pendingNetworkByHash := nw, unannouncedReads := un, pendingEdgeLimitReached := limit } } := by
  refine ⟨hs.goal, hs.storedBy, hs.marks, hs.told, hs.stack, hs.resumes, fun z p hp => hs.reads z p (hd z p hp),
    fun z e he => hs.network z e (hw z e he), hs.scanned, fun hva => ?_⟩
  obtain ⟨R, ht, ha, hc⟩ := hs.accounted hva
  refine ⟨R, ht, ha, fun r hr b z hz hne => ?_⟩
  refine (hc r hr b z hz (Set.notMem_empty z)).imp le_rfl (fun _ => rfl) id (fun hz => hm z hz hne) .inr ?_
  rintro ⟨p, edge, hp, he, hn⟩
  exact ⟨p, edge, hpe z p hp hne ⟨edge, he, hn⟩, he, hn⟩

/-- **Parents are to be looked at again**: children with the hash have been attached, and the hash is ahead now. -/
theorem PlanInv.lookAgain (hs : PlanInv db kn go {y} s) (ha : Attaches db {y} s.heap h)
    (hold : ∀ k ∈ s.plan.deferredResumes, k ∈ rq)
    (hre : ∀ (k : Ref) (rs : DeferredResume), rq[k]? = some rs →
      s.plan.deferredResumes[k]? = some rs ∨ rs.node = k ∧ Attached s.heap s.plan.root k ∧ (s.heap.node k).isInner)
    (hh : ∃ k ∈ rq, ∃ b, db (s.heap.node k).hash b = some y) :
    PlanInv db kn go ∅ { s with heap := h, plan := { s.plan with deferredResumes := rq } } := by
  have ho : ∀ k ∈ rq, ∃ rs, rq[k]? = some rs := fun k hk =>
    ⟨rq[k], getElem?_eq_some_getElem hk⟩
  refine ⟨?_, ha.storedBy, fun r hr => ?_, fun z hz => (hs.told z hz).attaches ha, fun st hst => ?_,
    fun k rs hk => ?_, fun z p hp => (hs.reads z p hp).attaches ha, fun z e he => (hs.network z e he).attaches ha,
    fun hva => (hs.scanned hva).attaches ha, fun hva => ?_⟩
  · rw [ha.hash]
    exact hs.goal
  · have hr : (s.heap.node r).isFullBelow s.plan.generation := (ha.marks _ _).symm.trans hr
    rw [ha.hash]
    exact (hs.marks r hr).attaches ha
  · exact ⟨(hs.stack st hst).1.attaches ha, (ha.inner _).trans (hs.stack st hst).2⟩
  · have hk : rs.node = k ∧ Attached s.heap s.plan.root k ∧ (s.heap.node k).isInner := by
      rcases hre k rs hk with hk | hk
      · exact hs.resumes k rs hk
      · exact hk
    exact ⟨hk.1, hk.2.1.attaches ha, (ha.inner k).trans hk.2.2⟩
  · obtain ⟨R, hrt, ht, hc⟩ := hs.accounted hva
    refine ⟨R, hrt, fun r hr => (ht r hr).attaches ha, fun r hr b z hz _ => ?_⟩
    have hz : db (s.heap.node r).hash b = some z := by
      rw [← ha.hash]
      exact hz
    by_cases hy : z = y
    · obtain ⟨k, hk, b', hb'⟩ := hh
      obtain ⟨rs, hk⟩ := ho k hk
      rw [hy]
      refine .inr (.inr (.inr (.inl (.inr ⟨k, rs, b', hk, ?_⟩))))
      rw [ha.hash]
      exact hb'
    · refine (hc r hr b z hz hy).imp le_rfl ha.hash (Full.attaches ha) id (fun hz => .inr ?_) ?_
      · rcases hz with ⟨st, hst, i, hl, hlt, hb⟩ | ⟨k, rs, b', hk, hb⟩
        · exact .inl ⟨st, hst, i, hl, hlt, by rw [ha.hash]; exact hb⟩
        · obtain ⟨resume', hk'⟩ := ho k (hold k (mem_iff_isSome_getElem?.mpr (by rw [hk]; rfl)))
          exact .inr ⟨k, resume', b', hk', by rw [ha.hash]; exact hb⟩
      · rintro ⟨p, edge, hp, he, hn⟩
        refine ⟨p, edge, hp, he, ?_⟩
        rw [ha.other _ _ z ((hs.reads z p hp).2 edge he).2 hy]
        exact hn

variable {Q : MissingNodeReadApply → SyncMemory → Prop}

/-- **A node is attached to the edges that wait for it.** -/
theorem wp_attachAndResume (hs : PlanInv db kn go {y} s)
    (hd : EdgesOk db s.heap s.plan.root y ed) (hQ : ∀ an s', PlanInv db kn go ∅ s' → Q an s') :
    wp (attachAndResume node ed) Q E ⊤ s := by
  simp only [attachAndResume, wp_bind, wp_update, wp_pure]
  refine wp_attachEdges hs.storedBy (fun e he => (hd.2 e he).2) fun rq h ha hf ht => hQ _ _ ?_
  refine hs.lookAgain ha (fun k hk => mem_extendResumes (.inl hk)) (fun k rs hk => ?_) ?_
  · rcases extendResumes_some hk with hk | hk
    · rcases hf k rs hk with hk | ⟨hn, e, he, rfl⟩
      · rw [getElem?_empty] at hk
        cases hk
      · exact .inr ⟨hn, (hd.2 e he).1, isInner_of_stored hs.storedBy (hd.2 e he).2⟩
    · exact .inl hk
  · obtain ⟨e, he⟩ := exists_mem_of_ne_nil ed hd.1
    exact ⟨e.parent, mem_extendResumes (.inr (ht _ (.inr ⟨e, he, rfl⟩))), e.branch, (hd.2 e he).2⟩

/-- **What a read that found nothing leaves**: its edges wait for the network, and the hash is recorded if there is room
for it. -/
theorem missEdges_ok {n' : ℕ} (hnw : ∀ z e, pl.pendingNetworkByHash[z]? = some e → EdgesOk db h root z e)
    (hd : ∀ e ∈ ed, EdgeOk db h root y e) (hm : missEdges h y ed rd n pl = .ok (n', plan')) :
    ∃ ms ns qu left nw, plan' = { pl with
        missingHashes := ms, missingNodes := ns, unannouncedNetwork := qu, remaining := left
        pendingNetworkByHash := nw } ∧
      (∀ z ∈ pl.missingHashes, z ∈ ms) ∧ (∀ z e, nw[z]? = some e → EdgesOk db h root z e) ∧
      (rd = false → 0 < pl.remaining ∨ y ∈ pl.missingHashes →
        (∃ e ∈ ed, (h.node e.parent).getChild e.branch = none) → y ∈ ms) := by
  induction ed generalizing rd n pl with
  | nil =>
    cases hm
    refine ⟨_, _, _, _, _, rfl, fun _ h => h, hnw, fun _ _ hso => ?_⟩
    obtain ⟨e, he, -⟩ := hso
    cases he
  | cons edge ed ih =>
    have hre : ∀ e ∈ ed, EdgeOk db h root y e := fun e he => hd e (mem_cons_of_mem _ he)
    rw [missEdges] at hm
    split at hm
    · next ha =>
      obtain ⟨ms, ns, qu, left, nw, heq, hold, ht, hw⟩ := ih hnw hre hm
      refine ⟨ms, ns, qu, left, nw, heq, hold, ht, fun hr hrm hso => hw hr hrm ?_⟩
      obtain ⟨e, he, hno⟩ := hso
      rcases mem_cons.mp he with rfl | he
      · rw [hno] at ha
        cases ha
      · exact ⟨e, he, hno⟩
    · have ht : ∀ z e, (pl.pendingNetworkByHash.insert y (pl.pendingNetworkByHash[y]?.getD [] ++ [edge]))[z]? =
          some e → EdgesOk db h root z e := by
        intro z e he
        rw [ExtTreeMap.getElem?_insert] at he
        split at he
        · next heq =>
          cases he
          cases compare_eq_iff_eq.mp heq
          refine ⟨append_ne_nil_of_right_ne_nil _ (cons_ne_nil _ _), fun e he => ?_⟩
          rcases mem_append.mp he with he | he
          · cases hold : pl.pendingNetworkByHash[y]? with
            | none => rw [hold] at he; cases he
            | some old => rw [hold] at he; exact (hnw y old hold).2 e he
          · rw [mem_singleton.mp he]
            exact hd edge mem_cons_self
        · exact hnw z e he
      split at hm
      · next hr =>
        obtain ⟨ms, ns, qu, left, nw, heq, hold, hn, -⟩ := ih ht hre hm
        refine ⟨ms, ns, qu, left, nw, heq, hold, hn, fun h => ?_⟩
        rw [h] at hr
        cases hr
      · dsimp only [bind, Except.bind] at hm
        split at hm
        · cases hm
        · next result hr =>
          obtain ⟨missing1, nodes1, queue1, left1, hq, ho, hne⟩ := recordCandidate_ok hr
          rw [hq] at hm
          obtain ⟨ms, ns, qu, left, nw, heq, hold, hn, -⟩ := ih ht hre hm
          exact ⟨ms, ns, qu, left, nw, heq, fun z hz => hold z (ho z hz), hn, fun _ hrm _ => hold y (hne hrm)⟩

/-- A read that found nothing changes nothing more if its edges have all been attached meanwhile. -/
theorem missEdges_attached (hd : ∀ e ∈ ed, (h.node e.parent).getChild e.branch ≠ none) :
    missEdges h y ed rd n pl = .ok (n, pl) := by
  induction ed with
  | nil => rfl
  | cons edge ed ih =>
    rw [missEdges, if_pos (isSome_iff_ne_none.mpr (hd edge mem_cons_self))]
    exact ih fun e he => hd e (mem_cons_of_mem _ he)

/-- A hash that is recorded as missing is accounted for. -/
theorem PlanInv.record (hs : PlanInv db kn go {y} s) (hm : ∀ z ∈ s.plan.missingHashes, z ∈ ms)
    (hy : y ∈ ms) (hn : ∀ z e, nw[z]? = some e → EdgesOk db s.heap s.plan.root z e) :
    PlanInv db kn go ∅ { s with
      plan := { s.plan with
        missingHashes := ms, missingNodes := ns, unannouncedNetwork := qu, remaining := left
        pendingNetworkByHash := nw } } := by
  refine ⟨hs.goal, hs.storedBy, hs.marks, hs.told, hs.stack, hs.resumes, hs.reads, hn, hs.scanned, fun hva => ?_⟩
  obtain ⟨R, ht, ha, hc⟩ := hs.accounted hva
  refine ⟨R, ht, ha, fun r hr b z hz _ => ?_⟩
  by_cases hzy : z = y
  · rw [hzy]
    exact .inr (.inl hy)
  · exact (hc r hr b z hz hzy).imp le_rfl (fun _ => rfl) id (hm z) .inr id

theorem of_getElem?_erase {map : ExtTreeMap SHAMapHash β} {v : β} (hz : (map.erase y)[z]? = some v) :
    map[z]? = some v := by
  rw [getElem?_erase] at hz
  split at hz
  · cases hz
  · exact hz

theorem getElem?_erase_of_ne {map : ExtTreeMap SHAMapHash β} {v : β} (hz : map[z]? = some v) (hn : z ≠ y) :
    (map.erase y)[z]? = some v := by
  rw [getElem?_erase, if_neg fun he => hn (compare_eq_iff_eq.mp he).symm]
  exact hz

variable {planId : ℕ}

variable (hs : PlanInv db kn go ∅ s)

include hs

/-- **The result of a read** keeps the invariant, if a read that found nothing leaves room to record the hash. -/
theorem wp_applyReadResult {outcome : MissingNodeReadOutcome}
    (hrm : ∀ pd, outcome = .miss → planId = s.plan.planId → s.plan.pendingByHash[y]? = some pd →
      (∃ edge ∈ pd.edges, (s.heap.node edge.parent).getChild edge.branch = none) →
      0 < s.plan.remaining ∨ y ∈ s.plan.missingHashes) (hQ : ∀ an s', PlanInv db kn go ∅ s' → Q an s') :
    wp (applyReadResult planId y outcome) Q E ⊤ s := by
  simp only [applyReadResult, wp_bind, wp_read, wp_ite, wp_pure]
  refine ⟨fun _ => hQ _ s hs, fun hpn => ?_⟩
  rw [not_not] at hpn
  cases hpe : s.plan.pendingByHash[y]? with
  | none => exact hQ _ s hs
  | some pd =>
    have ht : PlanInv db kn go {y} { s with
        plan := { s.plan with
          pendingByHash := s.plan.pendingByHash.erase y
          pendingEdgeLimitReached := false
          unannouncedReads := s.plan.unannouncedReads.erase y } } :=
      hs.take (fun _ hz _ => hz) (fun _ _ => of_getElem?_erase) (fun _ _ hp hne _ => getElem?_erase_of_ne hp hne)
        (fun _ _ h => h)
    have hr : ∀ un, PlanInv db kn go ∅ { s with
        plan := { s.plan with
          pendingByHash := (s.plan.pendingByHash.erase y).insert y pd
          pendingEdgeLimitReached := false
          unannouncedReads := un } } := by
      have hsm : (s.plan.pendingByHash.erase y).insert y pd = s.plan.pendingByHash := by
        apply ExtTreeMap.ext_getElem?
        intro z
        rw [ExtTreeMap.getElem?_insert, ExtTreeMap.getElem?_erase]
        split
        · next hq =>
          rw [← compare_eq_iff_eq.mp hq, hpe]
        · rfl
      intro un
      rw [hsm]
      exact hs.announce fun _ _ h => h
    cases outcome with
    | rejected => exact hQ _ _ (hr _)
    | cancelled => exact hQ _ _ (hr _)
    | found node =>
      simp only [wp_ite, wp_bind, wp_setPlan, wp_pure]
      refine ⟨fun _ => hQ _ _ ?_, fun _ => wp_attachAndResume ht (hs.reads y pd hpe) hQ⟩
      exact hs.invalidate (fun st hst => ⟨st, hst, rfl⟩) fun _ _ => of_getElem?_erase
    | miss =>
      dsimp only
      by_cases ho : ∃ edge ∈ pd.edges, (s.heap.node edge.parent).getChild edge.branch = none
      · cases hm : missEdges s.heap y pd.edges false 0 { s.plan with
          pendingByHash := s.plan.pendingByHash.erase y
          pendingEdgeLimitReached := false
          unannouncedReads := s.plan.unannouncedReads.erase y } with
        | error f => exact trivial
        | ok result =>
          obtain ⟨ms, ns, qu, left, nw, hq, hold, hn, hw⟩ :=
            missEdges_ok ht.network (hs.reads y pd hpe).2 hm
          refine hQ _ _ ?_
          rw [hq]
          exact ht.record hold (hw rfl (hrm pd rfl hpn hpe ho) ho) hn
      · rw [missEdges_attached fun e he hno => ho ⟨e, he, hno⟩]
        refine hQ _ _ (hs.take (fun _ hz _ => hz) (fun _ _ => of_getElem?_erase) (fun z p hp _ hno => ?_) (fun _ _ h => h))
        refine getElem?_erase_of_ne hp ?_
        rintro rfl
        cases hpe.symm.trans hp
        exact ho hno

/-- **A node of a peer that was asked for** keeps the invariant. -/
theorem wp_applyNetworkNode (hQ : ∀ an s', PlanInv db kn go ∅ s' → Q an s') :
    wp (applyNetworkNode planId y node) Q E ⊤ s := by
  simp only [applyNetworkNode, wp_bind, wp_read, wp_ite, wp_pure, wp_setPlan]
  refine ⟨fun _ => hQ _ s hs, fun _ => ⟨fun _ => hQ _ _ ?_, fun _ => ?_⟩⟩
  · exact hs.invalidate (fun st ht => ⟨st, ht, rfl⟩) fun _ _ h => h
  · cases he : s.plan.pendingNetworkByHash[y]? with
    | none => exact hQ _ s hs
    | some ed =>
      refine wp_attachAndResume (hs.take (fun z hz hn => ?_) (fun _ _ h => h) (fun _ _ hp _ _ => hp)
        (fun _ _ => of_getElem?_erase)) (hs.network y ed he) hQ
      exact ExtTreeSet.mem_erase.mpr ⟨fun hq => hn (compare_eq_iff_eq.mp hq).symm, hz⟩

omit hs in
/-- The walk to the position of a node that was not asked for. -/
theorem wp_knownLoop {current : Ref} (lv : ℕ) (hs : PlanInv db kn go ∅ s)
    (hu : Attached s.heap s.plan.root current) (hQ : ∀ an s', PlanInv db kn go ∅ s' → Q an s') :
    wp (knownLoop planId nid y node lv current cu) Q E ⊤ s := by
  induction lv generalizing current cu with
  | zero => exact hQ _ s hs
  | succ lv ih =>
    simp only [knownLoop, wp_bind, wp_read, wp_ite, wp_pure]
    refine ⟨fun _ => hQ _ s hs, fun hi => ?_⟩
    cases selectBranch cu nid.id with
    | error f => exact trivial
    | ok branch =>
      refine ⟨fun _ => hQ _ s hs, fun he => ?_⟩
      have hy := stored_of_not_isEmptyBranch hs.storedBy (by simpa using hi) (by simpa using he)
      cases cu.getChildNodeId branch with
      | error f => exact trivial
      | ok ci =>
        simp only [wp_ite, wp_pure]
        refine ⟨fun _ => ⟨fun _ => hQ _ s hs, fun hha => ⟨fun _ => wp_applyNetworkNode hs hQ, fun _ => ?_⟩⟩,
          fun _ => ?_⟩
        · rw [not_not] at hha
          rw [hha] at hy
          cases hh : (s.heap.node current).getChild branch with
          | some ex =>
            simp only [wp_ite, wp_pure]
            exact ⟨fun _ => hQ _ s hs, fun _ => hQ _ s hs⟩
          | none =>
            -- the node is attached, and its parent is looked at again
            simp only [wp_bind, wp_onNodes, wp_update, wp_pure]
            refine wp_canonicalizeChild_stored hs.storedBy hy fun q h ha _ => hQ _ _ ?_
            have hw : PlanInv db kn go {y} s := { hs with
              accounted := fun hva => by
                obtain ⟨R, hrt, ht, hc⟩ := hs.accounted hva
                exact ⟨R, hrt, ht, fun r hr b z hz _ => hc r hr b z hz (Set.notMem_empty z)⟩ }
            refine hw.lookAgain ha (fun k hk => mem_insert.mpr (.inr hk)) (fun k rs hk => ?_)
              ⟨current, mem_insert_self, branch, hy⟩
            rw [ExtTreeMap.getElem?_insert] at hk
            split at hk
            · next hq =>
              cases hk
              cases compare_eq_iff_eq.mp hq
              exact .inr ⟨rfl, hu, by simpa using hi⟩
            · exact .inl hk
        · cases hh : (s.heap.node current).getChild branch with
          | none => exact hQ _ s hs
          | some ch => exact ih (hu.getChild hh)

/-- **A node at a position** keeps the invariant, unless it clears an earlier invalid one. -/
theorem wp_applyKnownNetworkNode
    (hc : planId = s.plan.planId → (s.heap.node node).hash = y → nid.isRoot → s.plan.invalid = false)
    (hQ : ∀ an s', PlanInv db kn go ∅ s' → Q an s') :
    wp (applyKnownNetworkNode planId nid y node) Q E ⊤ s := by
  simp only [applyKnownNetworkNode, wp_bind, wp_read, wp_ite, wp_pure, wp_setPlan]
  refine ⟨fun _ => hQ _ s hs, fun hp => ⟨fun hr => hQ _ _ ?_, fun _ => wp_knownLoop _ hs .refl hQ⟩⟩
  rw [not_not] at hp
  by_cases hh : (s.heap.node node).hash = y
  · have hva := hc hp hh (hr.resolve_left (not_not_intro hh))
    rw [decide_eq_false (not_not_intro hh), ← hva]
    exact hs
  · rw [decide_eq_true hh]
    exact hs.invalidate (fun st ht => ⟨st, ht, rfl⟩) fun _ _ h => h

end

end

end Xrpld.SHAMap
