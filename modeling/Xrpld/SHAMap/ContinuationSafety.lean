import Xrpld.SHAMap.ContinuationSteps

/-!
# When the search for missing nodes is over

A plan is begun on a root, and calls are made on it in any order. Whenever it is complete, or an
advance answers so, every node below the root is to be there.

## What is proved

`complete_of_reached`: in every run that keeps clear of two kinds of steps, completion is never
reported too early. `complete_too_early` is a run with a step of the first kind,
`complete_after_invalid` one with a step of the second kind.
-/

namespace Xrpld.SHAMap

open Std (ExtTreeMap ExtTreeSet)
open Relation (ReflTransGen)
open MissingNodeContinuation

variable {r : Ref} {planId edgeBytes ls gn : ℕ} {mm : ℤ} {backed : Bool}
  {bounds : MissingNodeContinuationBounds} {nf : ℕ → UInt8} {s0 s1 : SyncMemory}

section

variable {stored : SHAMapHash → Branch → Option SHAMapHash} {known : Set SHAMapHash} {skip Y : Set SHAMapHash}
  {h h' : Heap} {plan plan' : MissingNodeContinuation} {s s' : SyncMemory} {root q : Ref} {y z : SHAMapHash}
  {go : Ref × SHAMapHash} {b : Branch}

/-! ### A new plan -/

section

variable {E : Empty → SyncMemory → Prop} {stk : List MissingNodeScanState} {Q : Unit → SyncMemory → Prop}

/-- **What `new_with_bounds` leaves**: the root is to be scanned, if it is an inner node that is not full below. -/
theorem wp_newWithBounds
    (hQ : ∀ stk n, (∀ st ∈ stk, st.node = root ∧ st.currentChild = 0 ∧ (s.heap.node root).isInner) →
      (stk = [] → (s.heap.node root).isInner = false ∨ (s.heap.node root).isFullBelow gn) →
      Q () { s with
        heap := { s.heap with calls := n }
        plan := { blank planId root mm backed ls gn bounds with
          stack := stk } }) :
    wp (newWithBounds edgeBytes planId root mm backed ls gn bounds nf) Q E ⊤ s := by
  simp only [newWithBounds, deref, wp_bind, wp_onNodes, wp_read, wp_pure, wp_ite, wp_abort,
    wp_setPlan, pushScanState, wp_ask, wp_update]
  refine ⟨fun _ => trivial, fun _ => ⟨fun _ => trivial, fun _ => ⟨fun _ => trivial, fun _ =>
    ⟨fun hp => hQ [_] _ (fun st hs => ?_) fun h => ?_, fun hp => hQ [] s.heap.calls (fun st hs => ?_) fun _ => ?_⟩⟩⟩⟩
  · rw [Bool.and_eq_true] at hp
    rw [List.mem_singleton.mp hs]
    exact ⟨rfl, rfl, hp.1⟩
  · cases h
  · cases hs
  · rw [Bool.and_eq_true, not_and_or] at hp
    exact hp.imp (by simp) (by simp)

/-- A plan that has just been begun satisfies the invariant, with the edges that wait from before. -/
theorem planInv_begin {marked : List SHAMapHash} {pd : ExtTreeMap SHAMapHash PendingReadEdges}
    {nw : ExtTreeMap SHAMapHash (List PendingDeferredFetch)} {un : ExtTreeSet SHAMapHash}
    (ho : StoredBy stored h)
    (hm : ∀ r, (h.node r).isFullBelow gn → Full stored known h root (h.node r).hash)
    (ht : ∀ y ∈ marked, Full stored known h root y)
    (hd : ∀ (y : SHAMapHash) (p : PendingReadEdges), pd[y]? = some p → EdgesOk stored h root y p.edges)
    (hn : ∀ (y : SHAMapHash) (e : List PendingDeferredFetch), nw[y]? = some e → EdgesOk stored h root y e)
    (hsk : ∀ st ∈ stk, st.node = root ∧ st.currentChild = 0 ∧ (h.node root).isInner)
    (hrt : stk = [] → (h.node root).isInner = false ∨ (h.node root).isFullBelow gn) :
    PlanInv stored known (root, (h.node root).hash) ∅
      { heap := h
        plan := { blank planId root mm backed ls gn bounds with
          stack := stk
          pendingByHash := pd
          pendingNetworkByHash := nw
          unannouncedReads := un }
        marked := marked } := by
  refine ⟨rfl, ho, hm, ht, fun st hst => ?_, fun k rs hk => ?_, hd, hn,
    fun _ => stackFull_of_fresh fun st hst => (hsk st hst).2.1, fun _ => ?_⟩
  · rw [(hsk st hst).1]
    exact ⟨.refl, (hsk st hst).2.2⟩
  · have hk : (∅ : ExtTreeMap Ref DeferredResume)[k]? = some rs := hk
    cases hk
  · -- the scan has reached the root only
    refine ⟨{root}, rfl, fun r hr => ?_, fun r hr b y hy _ => ?_⟩
    · rw [hr]
      exact .refl
    · rw [hr] at hy
      cases hs : stk with
      | nil =>
        rcases hrt hs with hl | hf
        · rw [stored_of_leaf ho hl] at hy
          cases hy
        · exact .inl ((hm root hf).child hy)
      | cons st rest =>
        have hst := hsk st (by rw [hs]; exact List.mem_cons_self)
        rw [← hst.1] at hy
        exact .inr (.inr (.inr (.inl (ahead_of_fresh List.mem_cons_self hst.2.1 hy))))

/-- **A scan for a reply** keeps the invariant: it begins at the root again. -/
theorem wp_beginReplyScan (hs : PlanInv stored known go ∅ s) (hQ : ∀ s', PlanInv stored known go ∅ s' → Q () s') :
    wp (beginReplyScan edgeBytes nf) Q E ⊤ s := by
  simp only [beginReplyScan, wp_bind, wp_read, wp_ite, wp_pure, wp_update]
  refine ⟨fun _ => hQ s hs, fun _ => wp_newWithBounds fun stk n hk hr => hQ _ ?_⟩
  have hc := hs.calls n
  rw [← hs.goal]
  exact planInv_begin hc.storedBy hc.marks hc.told hc.reads hc.network hk hr

end

/-! ### Runs -/

section

/-- The full-below cache that a call uses is sound. -/
def PlanCall.Sound (known : Set SHAMapHash) : PlanCall → Prop
  | .advance _ _ _ cb => cb.Sound known
  | _ => True

/-- **The calls that keep clear of a false completion.** A read that found nothing, with an edge that is still without its
child, finds room to record the hash, or finds it recorded. A node at the root does not come after an invalid one. -/
def PlanCall.Safe (s : SyncMemory) : PlanCall → Prop
  | .readResult planId hash .miss => planId = s.plan.planId → ∀ pending, s.plan.pendingByHash[hash]? = some pending →
      (∃ edge ∈ pending.edges, (s.heap.node edge.parent).getChild edge.branch = none) →
      0 < s.plan.remaining ∨ hash ∈ s.plan.missingHashes
  | .knownNetworkNode planId nodeId hash node => planId = s.plan.planId → (s.heap.node node).hash = hash →
      nodeId.isRoot = true → s.plan.invalid = false
  | _ => True

/-- **A call** keeps the invariant. -/
theorem wp_call (call : PlanCall) (hc : Closed stored known) (ho : call.Sound known) (hf : call.Safe s)
    (hs : PlanInv stored known go ∅ s) :
    wp (call.run edgeBytes) (AnswerOk stored known go) ⊤ ⊤ s := by
  have hd : ∀ {s'}, PlanInv stored known go ∅ s' → AnswerOk stored known go none s' := by
    intro s' hs'
    refine ⟨hs', fun h => ?_⟩
    cases h
  cases call with
  | advance tn mb mn cb =>
    simp only [PlanCall.run, wp_bind, wp_pure]
    exact wp_advanceWithBudget hc ho hs
  | readResult planId hash outcome =>
    simp only [PlanCall.run, wp_bind, wp_pure]
    refine wp_applyReadResult hs (fun pd hm => ?_) fun _ _ => hd
    rw [hm] at hf
    exact fun hp => hf hp pd
  | networkNode planId hash node =>
    simp only [PlanCall.run, wp_bind, wp_pure]
    exact wp_applyNetworkNode hs fun _ _ => hd
  | knownNetworkNode planId nid hash node =>
    simp only [PlanCall.run, wp_bind, wp_pure]
    exact wp_applyKnownNetworkNode hs hf fun _ _ => hd
  | replyScan nf =>
    simp only [PlanCall.run, wp_bind, wp_pure]
    exact wp_beginReplyScan hs fun _ => hd
  | takeReads mn =>
    simp only [PlanCall.run, wp_bind, wp_read, wp_setPlan, wp_pure]
    obtain ⟨un, ht⟩ := takeUnannouncedReads_plan s.plan mn
    rw [ht]
    exact hd (hs.announce fun _ _ h => h)
  | rearmReads => exact hd (hs.announce fun _ _ h => h)
  | takeNetwork => exact hd (hs.announce fun _ _ h => h)
  | restoreNetwork candidates => exact hd (hs.announce fun _ _ h => h)
  | retryNetwork hash =>
    simp only [PlanCall.run, wp_bind, wp_read, retryNetworkCandidate]
    split
    · exact hd hs
    · split
      · exact trivial
      · exact hd (hs.announce fun _ _ h => h)
  | retainNetwork hashes =>
    refine hd (hs.announce fun y ed hy => ?_)
    rw [ExtTreeMap.getElem?_filter] at hy
    exact (Option.pfilter_eq_some_iff.mp hy).1

/-- What a plan may be begun on: hashes are free of collisions, and what is marked as full below is full. -/
structure SoundTree (stored : SHAMapHash → Branch → Option SHAMapHash) (known : Set SHAMapHash) (generation : ℕ) (root : Ref)
    (s : SyncMemory) : Prop where
  storedBy : StoredBy stored s.heap
  marks : ∀ r, (s.heap.node r).isFullBelow generation = true → Full stored known s.heap root (s.heap.node r).hash
  told : ∀ y ∈ s.marked, Full stored known s.heap root y

/-- The states that calls lead to, each one `allowed` where it is made. -/
inductive Reached (edgeBytes : ℕ) (allowed : SyncMemory → PlanCall → Prop) (s₁ : SyncMemory) : SyncMemory → Prop where
  | start : Reached edgeBytes allowed s₁ s₁
  | call {s s' : SyncMemory} {call : PlanCall} {answer : Option MissingNodeAdvance} :
      Reached edgeBytes allowed s₁ s → allowed s call → call.run edgeBytes s = .ok (.ok answer, s') →
      Reached edgeBytes allowed s₁ s'

/-- The invariant holds along every run of safe calls. -/
theorem PlanInv.of_reached (hc : Closed stored known) (hs : PlanInv stored known go ∅ s1)
    (hr : Reached edgeBytes (fun s call => call.Sound known ∧ call.Safe s) s1 s) : PlanInv stored known go ∅ s := by
  induction hr with
  | start => exact hs
  | call _ ha hca ih => exact (post_of_run (wp_call _ hc ha.1 ha.2 ih) hca).1

/-- A fresh plan satisfies the invariant. -/
theorem PlanInv.of_new (ht : SoundTree stored known gn root s0)
    (hn : newWithBounds edgeBytes planId root mm backed ls gn bounds nf s0 =
      .ok (.ok (), s1)) : PlanInv stored known (root, (s0.heap.node root).hash) ∅ s1 := by
  have he : ∀ {β : Type} {y : SHAMapHash} {v : β}, (∅ : ExtTreeMap SHAMapHash β)[y]? ≠ some v := by
    intro β y v hy
    cases hy
  refine post_of_run (wp_newWithBounds (Q := fun _ s => PlanInv stored known (root, (s0.heap.node root).hash) ∅ s)
    (E := ⊤) fun stk n hs hr => ?_) hn
  have ha : Attaches stored ∅ s0.heap { s0.heap with calls := n } := Attaches.of_node_eq ht.storedBy rfl
  exact planInv_begin ha.storedBy ht.marks ht.told (fun _ _ h => absurd h he) (fun _ _ h => absurd h he) hs hr

/-- **Completion is never reported too early**, as long as the calls keep clear of the two kinds of steps. -/
theorem complete_of_reached {planId ledgerSeq generation : ℕ} {maxMissing : ℤ} {backed : Bool} {s₀ s₁ : SyncMemory} {nextFirstChild : ℕ → UInt8} (hclosed : Closed stored known)
    (htree : SoundTree stored known generation root s₀)
    (hnew : newWithBounds edgeBytes planId root maxMissing backed ledgerSeq generation bounds nextFirstChild s₀ =
      .ok (.ok (), s₁))
    (hrun : Reached edgeBytes (fun s call => call.Sound known ∧ call.Safe s) s₁ s) :
    (s.plan.isComplete = true → Full stored known s.heap root (s₀.heap.node root).hash) ∧
      ∀ (call : PlanCall) s', call.Sound known → call.Safe s → call.run edgeBytes s = .ok (.ok (some .complete), s') →
        Full stored known s'.heap root (s₀.heap.node root).hash := by
  have hs := (PlanInv.of_new htree hnew).of_reached hclosed hrun
  refine ⟨fun hc => hs.full_of_isComplete hc, fun call s' hso hf ha => ?_⟩
  obtain ⟨hs', ho⟩ := post_of_run (wp_call call hclosed hso hf hs) ha
  exact hs'.full_of_isComplete (ho rfl)

/-! ### A tree with two gaps -/

/-- Make calls one after another, as long as a check lets them pass. -/
def replay (edgeBytes : ℕ) (check : SyncMemory → PlanCall → Bool) : List PlanCall → SyncMemory → Option SyncMemory
  | [], s => some s
  | call :: calls, s =>
    if check s call then
      match call.run edgeBytes s with
      | .ok (.ok _, s') => replay edgeBytes check calls s'
      | _ => none
    else none

variable {check : SyncMemory → PlanCall → Bool} {calls : List PlanCall}

theorem reached_of_replay {allowed : SyncMemory → PlanCall → Prop}
    (hc : ∀ s, ∀ call ∈ calls, check s call → allowed s call) (hs : Reached edgeBytes allowed s1 s)
    (hr : replay edgeBytes check calls s = some s') :
    Reached edgeBytes allowed s1 s' := by
  induction calls generalizing s with
  | nil =>
    cases hr
    exact hs
  | cons call calls ih =>
    rw [replay] at hr
    split at hr
    · next hp =>
      split at hr
      · next ha =>
        exact ih (fun s call hm => hc s call (List.mem_cons_of_mem _ hm))
          (hs.call (hc s call List.mem_cons_self hp) ha) hr
      · cases hr
    · cases hr

/-- Nodes whose attached children are among them keep out other hashes. -/
theorem not_present_of_closed (refs : List Ref) (ht : root ∈ refs)
    (he : ∀ r ∈ refs, (h.node r).hash ≠ y ∧ ∀ b, ∀ q ∈ (h.node r).getChild b, q ∈ refs) : ¬ Present ∅ h root y := by
  have hm : ∀ r, Attached h root r → r ∈ refs := by
    intro r hr
    induction hr with
    | refl => exact ht
    | tail _ hs ih =>
      obtain ⟨b, hb⟩ := hs
      exact (he _ ih).2 b _ hb
  rintro (hy | ⟨r, hr, hy⟩)
  · exact hy
  · exact (he r (hm r hr)).1 hy

/-- The hashes of a tree: its root, two nodes below it, and two leaves below each of them. -/
def gapHash : Ref → SHAMapHash
  | 0 => ⟨[0xFC, 0xC5, 0xBF, 0xDD, 0x73, 0x26, 0x2E, 0xEE, 0xBF, 0xDD, 0x0E, 0x54, 0x51, 0x62, 0x96, 0x20,
      0x5C, 0x79, 0x54, 0x27, 0x1C, 0xF5, 0x5A, 0x0C, 0x2A, 0xB5, 0xCA, 0xB1, 0x96, 0xED, 0x9B, 0xBE], rfl⟩
  | 1 => ⟨[0x6A, 0xA5, 0xFB, 0x05, 0x93, 0x24, 0x0C, 0x8D, 0xBE, 0x6C, 0x05, 0xA9, 0x70, 0xCB, 0x18, 0x45,
      0x92, 0xE7, 0xCD, 0x2A, 0x1C, 0x6D, 0xBC, 0x27, 0x99, 0xE8, 0x4D, 0xDE, 0x7C, 0x75, 0xB2, 0x87], rfl⟩
  | 2 => ⟨[0x93, 0xBA, 0x16, 0x68, 0xB2, 0xC2, 0x6F, 0x7D, 0x5C, 0x39, 0xAD, 0x89, 0xFF, 0xF2, 0xA1, 0xCE,
      0x8A, 0x02, 0x2D, 0x38, 0x64, 0x0C, 0x62, 0x24, 0x71, 0x02, 0x31, 0xA4, 0x2C, 0x72, 0x00, 0x29], rfl⟩
  | 3 => ⟨[0x41, 0x64, 0x22, 0x8F, 0xA1, 0x94, 0xCB, 0x6B, 0x98, 0xB3, 0xA6, 0x54, 0xBA, 0x03, 0xF8, 0x8B,
      0x23, 0xB9, 0x81, 0x7B, 0xA8, 0x42, 0xC5, 0x0E, 0x8C, 0x44, 0xCC, 0x26, 0x7D, 0x1E, 0xB7, 0xBE], rfl⟩
  | 4 => ⟨[0x09, 0x88, 0x9A, 0x8D, 0x58, 0xFF, 0x80, 0xC9, 0xA8, 0x53, 0xD6, 0x5B, 0x95, 0x01, 0xEF, 0x0B,
      0xFF, 0x1C, 0x91, 0x87, 0xA0, 0x81, 0x87, 0xA1, 0xE8, 0x12, 0xEF, 0xA1, 0xEA, 0x33, 0xC3, 0xE1], rfl⟩
  | 5 => ⟨[0x18, 0x29, 0x1C, 0xA4, 0x5D, 0x86, 0x36, 0x29, 0xFE, 0x8B, 0x73, 0x39, 0x56, 0xEE, 0x53, 0xEB,
      0xA2, 0xBC, 0x50, 0xE7, 0xE4, 0xDB, 0xFD, 0x09, 0xC5, 0x90, 0x9A, 0xA8, 0x3B, 0xB1, 0xF5, 0x08], rfl⟩
  | _ => ⟨[0x9C, 0xB5, 0x03, 0xD4, 0x3C, 0x11, 0xDE, 0x5C, 0xDA, 0x0A, 0xE4, 0xBE, 0xEB, 0x00, 0x53, 0x11,
      0xB4, 0xA1, 0x23, 0xCF, 0x85, 0x97, 0x32, 0x39, 0x75, 0xF4, 0x71, 0xC3, 0x4B, 0x0C, 0x68, 0x22], rfl⟩

/-- The hashes that its nodes store. -/
def gapStored (y : SHAMapHash) (b : Branch) : Option SHAMapHash :=
  if y = gapHash 0 then if b = 1 then some (gapHash 1) else if b = 2 then some (gapHash 2) else none
  else if y = gapHash 1 then if b = 0 then some (gapHash 3) else if b = 1 then some (gapHash 4) else none
  else if y = gapHash 2 then if b = 0 then some (gapHash 5) else if b = 1 then some (gapHash 6) else none
  else none

/-- A leaf of the tree. -/
def gapLeaf (r : Ref) (first : UInt8) : SHAMapTreeNode :=
  ⟨gapHash r, 0, .leaf .accountState (twelveBytes (.ofFirst first))⟩

/-- The tree, where the first leaf below each of the two nodes is not attached yet. -/
def gapMemory : SyncMemory where
  heap :=
    { next := 7
      node := fun r =>
        match r with
        | 0 => ⟨gapHash 0, 0, .inner 0 fun b =>
            if b = 1 then some ⟨gapHash 1, some 1⟩ else if b = 2 then some ⟨gapHash 2, some 2⟩ else none⟩
        | 1 => ⟨gapHash 1, 0, .inner 0 fun b =>
            if b = 0 then some ⟨gapHash 3, none⟩ else if b = 1 then some ⟨gapHash 4, some 4⟩ else none⟩
        | 2 => ⟨gapHash 2, 0, .inner 0 fun b =>
            if b = 0 then some ⟨gapHash 5, none⟩ else if b = 1 then some ⟨gapHash 6, some 6⟩ else none⟩
        | 3 => gapLeaf 3 0x10
        | 4 => gapLeaf 4 0x11
        | 5 => gapLeaf 5 0x20
        | _ => gapLeaf 6 0x21
      calls := 0 }
  plan := .blank 0 0 1 false 0 1 ⟨8, 8, 1024⟩
  marked := []

/-- A lookup that finds nothing, and a scan that is not stopped. -/
def noResident : Callbacks := ⟨fun _ _ _ => none, fun _ _ _ => false, fun _ => 0, fun _ => false⟩

/-- An advance that goes through the whole tree. -/
def gapAdvance : PlanCall := .advance 64 1000 8 noResident

theorem noResident_sound (known : Set SHAMapHash) : noResident.Sound known := by
  intro n marked y h
  cases h

/-- All other names are those of the last leaf. -/
theorem gapMemory_node (r : Ref) : ∃ r' < 7, gapMemory.heap.node r = gapMemory.heap.node r' := by
  by_cases hr : r < 7
  · exact ⟨r, hr, rfl⟩
  · obtain ⟨n, rfl⟩ := Nat.exists_eq_add_of_le' (Nat.le_of_not_lt hr)
    exact ⟨6, by decide, rfl⟩

theorem gapMemory_sound : SoundTree gapStored ∅ 1 0 gapMemory := by
  have ha : ∀ r < 7, (gapMemory.heap.node r).isFullBelow 1 = false ∧
      ∀ b, ((gapMemory.heap.node r).slots b).map Slot.hash = gapStored (gapMemory.heap.node r).hash b ∧
        ∀ q ∈ (gapMemory.heap.node r).getChild b,
          gapStored (gapMemory.heap.node r).hash b = some (gapMemory.heap.node q).hash := by decide +kernel
  refine ⟨⟨fun r b => ?_, fun r b q hq => ?_⟩, fun r hr => ?_, fun y hy => ?_⟩
  · obtain ⟨r, hl, he⟩ := gapMemory_node r
    rw [he]
    exact ((ha r hl).2 b).1
  · obtain ⟨r, hl, he⟩ := gapMemory_node r
    rw [he] at hq ⊢
    exact ((ha r hl).2 b).2 q hq
  · obtain ⟨r, hl, he⟩ := gapMemory_node r
    rw [he, (ha r hl).1] at hr
    cases hr
  · cases hy

/-- A fresh plan for the tree, that asks for so many nodes at most, and calls on it. -/
def gapRun (maxMissing : ℤ) (check : SyncMemory → PlanCall → Bool) (calls : List PlanCall) : Option SyncMemory :=
  match newWithBounds 96 0 0 maxMissing false 0 1 ⟨8, 8, 1024⟩ (fun _ => 0) gapMemory with
  | .ok (.ok (), s₁) => replay 96 check calls s₁
  | _ => none

theorem of_gapRun {P : SyncMemory → Prop} [DecidablePred P]
    (hr : (gapRun mm check calls).any (fun s => decide (P s))) :
    ∃ s1 s, newWithBounds 96 0 0 mm false 0 1 ⟨8, 8, 1024⟩ (fun _ => 0) gapMemory = .ok (.ok (), s1) ∧
      replay 96 check calls s1 = some s ∧ P s := by
  cases hs : gapRun mm check calls with
  | none =>
    rw [hs] at hr
    cases hr
  | some s =>
    rw [hs] at hr
    rw [gapRun] at hs
    split at hs
    · next s1 hn => exact ⟨s1, s, hn, hs, of_decide_eq_true hr⟩
    · cases hs

/-- The nodes that are attached when the leaf `r` is not. -/
def gapRefs (r : Ref) : List Ref := (List.range 7).erase r

/-- The plan is complete, and the leaf `r` is not attached. -/
def EndsWithout (r : Ref) (s : SyncMemory) : Prop :=
  s.plan.isComplete = true ∧ ∀ x ∈ gapRefs r, (s.heap.node x).hash ≠ gapHash r ∧
    ∀ b, ∀ q ∈ (s.heap.node x).getChild b, q ∈ gapRefs r

instance (r : Ref) : DecidablePred (EndsWithout r) := fun _ => inferInstanceAs (Decidable (_ ∧ _))

/-- A leaf that is not attached is missing below the root. -/
theorem EndsWithout.not_full (hs : EndsWithout r s) (hr : r = 3 ∨ r = 5) : ¬ Full gapStored ∅ s.heap 0 (gapHash 0) := by
  intro hf
  rcases hr with rfl | rfl
  · exact not_present_of_closed (gapRefs 3) (by decide) hs.2
      ((hf.child (b := 1) (z := gapHash 1) (by decide +kernel)).child (b := 0) (by decide +kernel)).self
  · exact not_present_of_closed (gapRefs 5) (by decide) hs.2
      ((hf.child (b := 2) (z := gapHash 2) (by decide +kernel)).child (b := 0) (by decide +kernel)).self

/-- With room for both leaves they are both asked for, and come. -/
theorem complete_of_reached_gap :
    ∃ s : SyncMemory, s.plan.isComplete = true ∧ Full gapStored ∅ s.heap 0 (gapHash 0) := by
  have hu : (gapRun 2 (fun s call => decide (0 < s.plan.remaining) || !(call matches .readResult _ _ .miss))
      [gapAdvance, .readResult 0 (gapHash 3) .miss, .readResult 0 (gapHash 5) .miss, gapAdvance,
      .networkNode 0 (gapHash 3) 3, .networkNode 0 (gapHash 5) 5, gapAdvance]).any
      (fun s => decide (s.plan.isComplete)) := by
    decide +kernel
  obtain ⟨s1, s, hn, hr, hs⟩ := of_gapRun hu
  have hc : Closed gapStored ∅ := fun y hy => absurd hy id
  refine ⟨s, hs, (complete_of_reached hc gapMemory_sound hn
    (reached_of_replay (fun s call ha hk => ?_) .start hr)).1 hs⟩
  revert call
  simp +contextual [gapAdvance, PlanCall.Sound, PlanCall.Safe, noResident_sound]

/-- **Completion is reported too early**: both leaves are looked for in vain, only one of them may be recorded, and the
other is forgotten. -/
theorem complete_too_early :
    ¬ ∀ (stored : SHAMapHash → Branch → Option SHAMapHash) (known : Set SHAMapHash)
      (edgeBytes planId ledgerSeq generation : ℕ) (maxMissing : ℤ) (backed : Bool) (root : Ref) (s₀ s₁ s : SyncMemory)
      (bounds : MissingNodeContinuationBounds) (nextFirstChild : ℕ → UInt8), Closed stored known →
      SoundTree stored known generation root s₀ →
      newWithBounds edgeBytes planId root maxMissing backed ledgerSeq generation bounds nextFirstChild s₀ =
        .ok (.ok (), s₁) → Reached edgeBytes (fun _ call => call.Sound known) s₁ s → s.plan.isComplete = true →
      Full stored known s.heap root (s₀.heap.node root).hash := by
  intro hc
  have hu : (gapRun 1 (fun _ _ => true) [gapAdvance, .readResult 0 (gapHash 3) .miss, .readResult 0 (gapHash 5) .miss,
      gapAdvance, .networkNode 0 (gapHash 3) 3, gapAdvance]).any (fun s => decide (EndsWithout 5 s)) := by
    decide +kernel
  obtain ⟨s₁, s, hn, he, hs⟩ := of_gapRun hu
  have hr : Reached 96 (fun _ call => call.Sound ∅) s₁ s := by
    refine reached_of_replay (fun _ call ha _ => ?_) .start he
    revert call
    simp [gapAdvance, PlanCall.Sound, noResident_sound]
  exact hs.not_full (.inr rfl) (hc gapStored ∅ _ _ _ _ _ _ _ gapMemory s₁ s _ _ (fun y hy => absurd hy id)
    gapMemory_sound hn hr hs.1)

/-- **Nor is there a need for a miss**: a node that is not the right one is forgiven when the root comes after it. -/
theorem complete_after_invalid : ∃ s1 s,
    newWithBounds 96 0 0 2 false 0 1 ⟨8, 8, 1024⟩ (fun _ => 0) gapMemory = .ok (.ok (), s1) ∧
      Reached 96 (fun _ call => call.Sound ∅ ∧ ∀ planId hash, call ≠ .readResult planId hash .miss) s1 s ∧
      s.plan.isComplete ∧ ¬ Full gapStored ∅ s.heap 0 (gapHash 0) := by
  have hu : (gapRun 2 (fun _ _ => true) [gapAdvance, .readResult 0 (gapHash 3) (.found 4),
      .readResult 0 (gapHash 5) (.found 5), .knownNetworkNode 0 .root (gapHash 0) 0, gapAdvance]).any
      (fun s => decide (EndsWithout 3 s)) := by
    decide +kernel
  obtain ⟨s1, s, hn, hr, hs⟩ := of_gapRun hu
  refine ⟨s1, s, hn, reached_of_replay (fun _ call hc _ => ?_) .start hr, hs.1, hs.not_full (.inl rfl)⟩
  revert call
  simp [gapAdvance, PlanCall.Sound, noResident_sound]

end

end

end Xrpld.SHAMap
