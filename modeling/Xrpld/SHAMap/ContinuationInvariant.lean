import Xrpld.Lib.Below
import Xrpld.SHAMap.Continuation
import Xrpld.SHAMap.Search

/-!
# What the search for missing nodes keeps

A plan says that it is complete when it has nothing left to look at, to read or to ask for. Is
every node of the tree there then? A node is there when it is attached to the tree, or known to
the store or the full-below cache (`known`).

## The model

Hashes are free of collisions: a hash determines the hashes that its node stores (`stored`). A
hash is *full* when all that can be reached from it by stored hashes is there.

The invariant follows a set of nodes that the scan has reached. Each hash that one of them
stores is *covered*: it is full, or recorded as missing, or the hash of a node reached; or a
branch with it is still to be looked at, or waits for a read.

## What is proved

`PlanInv.full_of_isComplete`: at the end nothing is left out. The other results say how the
invariant moves with the plan: over a branch (`PlanInv.move`), when scans and resumes change
places (`PlanInv.requeue`), after an invalid node (`PlanInv.invalidate`).
-/

namespace Xrpld.SHAMap

open Std (ExtTreeMap ExtTreeSet)
open Relation (ReflTransGen)
open Function (update update_self update_of_ne)
open List SHAMapTreeNode

/-! ### What is there -/

variable {stored : SHAMapHash → Branch → Option SHAMapHash} {Y skip known : Set SHAMapHash} {h h' : Heap}
  {q r root : Ref} {y z : SHAMapHash} {b : Branch} {n : ℕ} {fb : Bool}

section

variable (stored : SHAMapHash → Branch → Option SHAMapHash) (known : Set SHAMapHash)

/-- A node stores the hash of another one. -/
def Stores (y z : SHAMapHash) : Prop := ∃ b, stored y b = some z

/-- A node is attached below another one. -/
def Attached (h : Heap) : Ref → Ref → Prop := ReflTransGen fun r q => ∃ b, (h.node r).getChild b = some q

/-- A node is there. -/
def Present (h : Heap) (root : Ref) (z : SHAMapHash) : Prop :=
  z ∈ known ∨ ∃ r, Attached h root r ∧ (h.node r).hash = z

/-- A node is there and all that can be reached from it. -/
def Full (h : Heap) (root : Ref) (y : SHAMapHash) : Prop := AllBelow (Stores stored) (Present known h root) y

/-- Nodes have the hashes of their slots by their own, and attached children have the hashes of their slots. -/
structure StoredBy (h : Heap) : Prop where
  slot : ∀ r b, ((h.node r).slots b).map Slot.hash = stored (h.node r).hash b
  child : ∀ r b q, (h.node r).getChild b = some q → stored (h.node r).hash b = some (h.node q).hash

/-- Children may have been attached at branches with hashes in `Y`, and nothing else has changed. -/
structure Attaches (Y : Set SHAMapHash) (h h' : Heap) : Prop where
  storedBy : StoredBy stored h'
  hash : ∀ r, (h'.node r).hash = (h.node r).hash
  inner : ∀ r, (h'.node r).isInner = (h.node r).isInner
  child : ∀ r b q, (h.node r).getChild b = some q → (h'.node r).getChild b = some q
  other : ∀ r b y, stored (h.node r).hash b = some y → y ∉ Y → (h'.node r).getChild b = (h.node r).getChild b
  marks : ∀ r g, (h'.node r).isFullBelow g = (h.node r).isFullBelow g

end

section

variable {h'' : Heap}

theorem Attaches.of_node_eq (hs : StoredBy stored h) (he : h'.node = h.node) : Attaches stored Y h h' := by
  obtain ⟨next, node, calls⟩ := h'
  cases he
  exact ⟨⟨hs.slot, hs.child⟩, fun _ => rfl, fun _ => rfl, fun _ _ _ h => h, fun _ _ _ _ _ => rfl, fun _ _ => rfl⟩

theorem Attaches.trans (h1 : Attaches stored Y h h') (h2 : Attaches stored Y h' h'') : Attaches stored Y h h'' := by
  refine ⟨h2.storedBy, fun r => (h2.hash r).trans (h1.hash r), fun r => (h2.inner r).trans (h1.inner r),
    fun r b q hq => h2.child r b q (h1.child r b q hq), fun r b y hy hn => ?_,
    fun r g => (h2.marks r g).trans (h1.marks r g)⟩
  exact (h2.other r b y (by rw [h1.hash]; exact hy) hn).trans (h1.other r b y hy hn)

variable (hg : ∀ r b q, (h.node r).getChild b = some q → (h'.node r).getChild b = some q)

include hg

/-- What is attached stays attached when children do. -/
theorem Attached.grow (hr : Attached h root r) : Attached h' root r := by
  induction hr with
  | refl => exact .refl
  | tail _ hp ih =>
    obtain ⟨b, hb⟩ := hp
    exact ih.tail ⟨b, hg _ b _ hb⟩

theorem Present.grow (hh : ∀ r, (h'.node r).hash = (h.node r).hash) (hz : Present known h root z) :
    Present known h' root z := by
  rcases hz with hz | ⟨r, hr, rfl⟩
  · exact .inl hz
  · exact .inr ⟨r, hr.grow hg, hh r⟩

/-- What is full stays full. -/
theorem Full.grow (hh : ∀ r, (h'.node r).hash = (h.node r).hash) (hy : Full stored known h root y) :
    Full stored known h' root y := hy.mono fun _ hz => hz.grow hg hh

omit hg

theorem Full.attaches (ha : Attaches stored Y h h') (hy : Full stored known h root y) : Full stored known h' root y :=
  hy.grow ha.child ha.hash

theorem Attached.attaches (ha : Attaches stored Y h h') (hr : Attached h root r) : Attached h' root r := hr.grow ha.child

/-- A child is attached where its parent is. -/
theorem Attached.getChild (hr : Attached h root r) (hq : (h.node r).getChild b = some q) : Attached h root q :=
  hr.tail ⟨b, hq⟩

variable (hs : StoredBy stored h)

include hs

theorem isInner_of_stored (hb : stored (h.node r).hash b = some y) : (h.node r).isInner := by
  rw [← hs.slot] at hb
  rw [isInner]
  rw [slots] at hb
  split
  · rfl
  · next ho =>
    rw [ho] at hb
    cases hb

/-- The branches of an inner node that are empty store nothing. -/
theorem stored_of_isEmptyBranch (hb : (h.node r).isEmptyBranch b) : stored (h.node r).hash b = none := by
  rw [isEmptyBranch, Bool.and_eq_true, Option.isNone_iff_eq_none] at hb
  rw [← hs.slot, hb.2]
  rfl

theorem stored_of_not_isEmptyBranch (hr : (h.node r).isInner) (hb : (h.node r).isEmptyBranch b = false) :
    stored (h.node r).hash b = some ((h.node r).getChildHash b) := by
  rw [isEmptyBranch, hr, Bool.true_and] at hb
  rw [← hs.slot, getChildHash]
  cases hl : (h.node r).slots b with
  | none => rw [hl] at hb; cases hb
  | some slot => rw [slotHash_some hl]; rfl

/-- A leaf stores nothing. -/
theorem stored_of_leaf (hr : (h.node r).isInner = false) (b : Branch) : stored (h.node r).hash b = none := by
  cases hb : stored (h.node r).hash b with
  | none => rfl
  | some y => rw [isInner_of_stored hs hb] at hr; cases hr

omit hs in
/-- A known hash is full, if what is known is closed. -/
theorem full_of_known (hk : ∀ y ∈ known, ∀ z, Stores stored y z → z ∈ known) (hy : y ∈ known) :
    Full stored known h root y :=
  AllBelow.of_cover known (fun _ hz => .inl hz) (fun a ha b hb => .inl (hk a ha b hb)) hy

/-- Attaching at a node: one node changes, its hashes and its mark do not, and each new child has the hash of its
slot, in `Y`. -/
theorem Attaches.set {n : SHAMapTreeNode} (ha : n.hash = (h.node r).hash)
    (hi : n.isInner = (h.node r).isInner) (hm : ∀ g, n.isFullBelow g = (h.node r).isFullBelow g)
    (hl : ∀ b, (n.slots b).map Slot.hash = ((h.node r).slots b).map Slot.hash)
    (hold : ∀ b q, (h.node r).getChild b = some q → n.getChild b = some q)
    (hn : ∀ b q, n.getChild b = some q → (h.node r).getChild b = some q ∨
      (h.node q).hash ∈ Y ∧ stored (h.node r).hash b = some (h.node q).hash) :
    Attaches stored Y h (h.set r n) := by
  have hh : ∀ x, ((h.set r n).node x).hash = (h.node x).hash := by
    intro x
    by_cases hx : x = r
    · rw [hx, node_set_self, ha]
    · rw [node_set_of_ne hx]
  refine ⟨⟨fun x b => ?_, fun x b q hq => ?_⟩, hh, fun x => ?_, fun x b q hq => ?_, fun x b z hz hzY => ?_,
    fun x g => ?_⟩
  · rw [hh, ← hs.slot]
    by_cases hx : x = r
    · rw [hx, node_set_self, hl]
    · rw [node_set_of_ne hx]
  · rw [hh, hh]
    by_cases hx : x = r
    · rw [hx, node_set_self] at hq
      rw [hx]
      rcases hn b q hq with hq | hq
      · exact hs.child r b q hq
      · exact hq.2
    · rw [node_set_of_ne hx] at hq
      exact hs.child x b q hq
  · by_cases hx : x = r
    · rw [hx, node_set_self, hi]
    · rw [node_set_of_ne hx]
  · by_cases hx : x = r
    · rw [hx] at hq
      rw [hx, node_set_self, hold b q hq]
    · rw [node_set_of_ne hx]
      exact hq
  · by_cases hx : x = r
    · rw [hx] at hz
      rw [hx, node_set_self]
      apply Option.ext
      intro q
      refine ⟨fun hq => ?_, hold b q⟩
      rcases hn b q hq with hq | ⟨hY, hq⟩
      · exact hq
      · rw [hz] at hq
        cases hq
        exact absurd hY hzY
    · rw [node_set_of_ne hx]
  · by_cases hx : x = r
    · rw [hx, node_set_self, hm]
    · rw [node_set_of_ne hx]

/-- **What `canonicalize_child` does**: the branch has a child with its hash then. -/
theorem wp_canonicalizeChild_stored {ε : Type} {Q : Ref → Heap → Prop} {E : ε → Heap → Prop} {node : Ref}
    (hb : stored (h.node r).hash b = some y)
    (hQ : ∀ q h', Attaches stored {y} h h' → (h'.node r).getChild b = some q → Q q h') :
    wp (canonicalizeChild r b node) Q E ⊤ h := by
  simp only [canonicalizeChild, deref, wp_bind, wp_read, wp_pure, wp_ite, wp_abort]
  refine ⟨fun _ => trivial, fun hh => ?_⟩
  rw [not_not] at hh
  cases ho : (h.node r).body with
  | leaf type it => exact trivial
  | inner g sl =>
    have hsl : (h.node r).slots = sl := by rw [SHAMapTreeNode.slots, ho]
    dsimp only
    cases hl : sl b with
    | none => exact trivial
    | some slot =>
      have hy : slot.hash = y := by
        have := hs.slot r b
        rw [hsl, hl, hb] at this
        exact Option.some.inj this
      obtain ⟨hash, _ | old⟩ := slot
      · -- the node is put there
        have hn : (h.node node).hash = y := by
          rw [hh, getChildHash, hsl, slotHash_some hl]
          exact hy
        apply hQ
        · apply Attaches.set hs
          · rfl
          · rw [isInner, isInner, ho]
          · intro g'
            rw [isFullBelow, isFullBelow, ho]
          · intro b'
            show (update sl b (some ⟨hash, some node⟩) b').map Slot.hash = _
            rw [hsl]
            by_cases hb' : b' = b
            · rw [hb', update_self, hl]
              rfl
            · rw [update_of_ne hb']
          · intro b' q hq
            show (update sl b (some ⟨hash, some node⟩) b').bind Slot.child = some q
            rw [getChild, hsl] at hq
            by_cases hb' : b' = b
            · rw [hb', hl] at hq
              cases hq
            · rw [update_of_ne hb']
              exact hq
          · intro b' q hq
            have hq : (update sl b (some ⟨hash, some node⟩) b').bind Slot.child = some q := hq
            by_cases hb' : b' = b
            · rw [hb', update_self] at hq
              cases hq
              rw [hb', hb, hn]
              exact .inr ⟨rfl, rfl⟩
            · rw [update_of_ne hb'] at hq
              rw [getChild, hsl]
              exact .inl hq
        · rw [node_set_self]
          show (update sl b (some ⟨hash, some node⟩) b).bind Slot.child = some node
          rw [update_self]
          rfl
      · -- there is a child already
        have hold : (h.node r).getChild b = some old := by rw [getChild, hsl, hl]; rfl
        exact hQ old h (Attaches.of_node_eq hs rfl) hold

end

/-! ### The invariant -/

section

variable (stored : SHAMapHash → Branch → Option SHAMapHash) (known : Set SHAMapHash)

/-- A branch with the hash is still to be looked at. -/
def Ahead (h : Heap) (plan : MissingNodeContinuation) (y : SHAMapHash) : Prop :=
  (∃ st ∈ plan.stack, ∃ i, st.currentChild ≤ i ∧ i < 16 ∧
    stored (h.node st.node).hash ({ st with currentChild := i } : MissingNodeScanState).branch = some y) ∨
  ∃ k resume b, plan.deferredResumes[k]? = some resume ∧ stored (h.node k).hash b = some y

/-- A branch with the hash waits for a read. -/
def Awaited (h : Heap) (plan : MissingNodeContinuation) (y : SHAMapHash) : Prop :=
  ∃ pending edge, plan.pendingByHash[y]? = some pending ∧ edge ∈ pending.edges ∧
    (h.node edge.parent).getChild edge.branch = none

/-- **A hash is covered**, with the nodes `R` reached. -/
def Covered (h : Heap) (plan : MissingNodeContinuation) (R : Set Ref) (y : SHAMapHash) : Prop :=
  Full stored known h plan.root y ∨ y ∈ plan.missingHashes ∨ (∃ r ∈ R, (h.node r).hash = y) ∨
    Ahead stored h plan y ∨ Awaited h plan y

/-- All hashes that the reached nodes store are covered, but for some. -/
def Accounted (skip : Set SHAMapHash) (h : Heap) (plan : MissingNodeContinuation) : Prop :=
  ∃ R : Set Ref, plan.root ∈ R ∧ (∀ r ∈ R, Attached h plan.root r) ∧
    ∀ r ∈ R, ∀ b y, stored (h.node r).hash b = some y → y ∉ skip → Covered stored known h plan R y

/-- An edge leads from an attached node to the hash. -/
def EdgeOk (h : Heap) (root : Ref) (y : SHAMapHash) (edge : PendingDeferredFetch) : Prop :=
  Attached h root edge.parent ∧ stored (h.node edge.parent).hash edge.branch = some y

/-- There are edges that wait for a hash, and all of them lead to it. -/
def EdgesOk (h : Heap) (root : Ref) (y : SHAMapHash) (edges : List PendingDeferredFetch) : Prop :=
  edges ≠ [] ∧ ∀ edge ∈ edges, EdgeOk stored h root y edge

/-- The branches that a scan has passed are full while it counts as such; but the last one may lead to the scan above it
on the stack. -/
def StackFull (h : Heap) (root : Ref) : Option SHAMapHash → List MissingNodeScanState → Prop
  | _, [] => True
  | above, st :: rest =>
    (st.fullBelow = true → ∀ i < st.currentChild, ∀ y,
      stored (h.node st.node).hash ({ st with currentChild := i } : MissingNodeScanState).branch = some y →
        Full stored known h root y ∨ above = some y) ∧
    StackFull h root (some (h.node st.node).hash) rest

/-- **The invariant**, with the root and its hash (`goal`) and the hashes that are not accounted for (`skip`). -/
structure PlanInv (goal : Ref × SHAMapHash) (skip : Set SHAMapHash) (s : SyncMemory) : Prop where
  goal : (s.plan.root, (s.heap.node s.plan.root).hash) = goal
  storedBy : StoredBy stored s.heap
  marks : ∀ r, (s.heap.node r).isFullBelow s.plan.generation = true →
    Full stored known s.heap s.plan.root (s.heap.node r).hash
  told : ∀ y ∈ s.marked, Full stored known s.heap s.plan.root y
  stack : ∀ st ∈ s.plan.stack, Attached s.heap s.plan.root st.node ∧ (s.heap.node st.node).isInner = true
  resumes : ∀ k resume, s.plan.deferredResumes[k]? = some resume →
    resume.node = k ∧ Attached s.heap s.plan.root k ∧ (s.heap.node k).isInner = true
  reads : ∀ y pending, s.plan.pendingByHash[y]? = some pending → EdgesOk stored s.heap s.plan.root y pending.edges
  network : ∀ y edges, s.plan.pendingNetworkByHash[y]? = some edges → EdgesOk stored s.heap s.plan.root y edges
  scanned : s.plan.invalid = false → StackFull stored known s.heap s.plan.root none s.plan.stack
  accounted : s.plan.invalid = false → Accounted stored known skip s.heap s.plan

end

section

variable {pl plan' : MissingNodeContinuation} {s s' : SyncMemory} {go : Ref × SHAMapHash}

/-- **At the end nothing is left out.** -/
theorem PlanInv.full_of_isComplete (hs : PlanInv stored known go ∅ s) (hc : s.plan.isComplete) :
    Full stored known s.heap go.1 go.2 := by
  rw [← hs.goal]
  simp only [MissingNodeContinuation.isComplete, Bool.and_eq_true, Bool.not_eq_true', List.isEmpty_iff,
    ExtTreeMap.isEmpty_iff, ExtTreeSet.isEmpty_iff] at hc
  obtain ⟨⟨⟨⟨⟨hv, hsk⟩, hd⟩, hi⟩, hre⟩, -⟩ := hc
  obtain ⟨R, hrt, ha, ho⟩ := hs.accounted hv
  refine AllBelow.of_cover {y | ∃ r ∈ R, (s.heap.node r).hash = y} ?_ ?_ ⟨_, hrt, rfl⟩
  · rintro y ⟨r, hr, rfl⟩
    exact .inr ⟨r, ha r hr, rfl⟩
  · rintro y ⟨r, hr, rfl⟩ z ⟨b, hb⟩
    rcases ho r hr b z hb (Set.notMem_empty z) with hf | hm | he | hh | ⟨pd, edge, hp, -⟩
    · exact .inr hf
    · rw [hi] at hm
      exact absurd hm ExtTreeSet.not_mem_empty
    · exact .inl he
    · rcases hh with ⟨st, ht, -⟩ | ⟨k, rs, b, hk, -⟩
      · rw [hsk] at ht
        cases ht
      · rw [hre, ExtTreeMap.getElem?_empty] at hk
        cases hk
    · rw [hd, ExtTreeMap.getElem?_empty] at hp
      cases hp

/-- Every branch has its turn. -/
theorem exists_turn (first : ℕ) (b : Branch) : ∃ i < 16, (first + i) % 16 = b.val := by
  refine ⟨(b.val + 16 - first % 16) % 16, Nat.mod_lt _ (by decide), ?_⟩
  omega

/-- A node that has just been pushed is ahead with all its branches. -/
theorem ahead_of_fresh {st : MissingNodeScanState} (ht : st ∈ pl.stack) (h0 : st.currentChild = 0)
    (hb : stored (h.node st.node).hash b = some y) : Ahead stored h pl y := by
  obtain ⟨i, hi, he⟩ := exists_turn st.firstChild b
  refine .inl ⟨st, ht, i, by omega, hi, ?_⟩
  rw [show ({ st with currentChild := i } : MissingNodeScanState).branch = b from Fin.ext he]
  exact hb

variable {stk : List MissingNodeScanState} {above : Option SHAMapHash} {rest : List MissingNodeScanState}
  {se : MissingNodeScanState}

theorem StackFull.grow (hg : ∀ r b q, (h.node r).getChild b = some q → (h'.node r).getChild b = some q)
    (hh : ∀ r, (h'.node r).hash = (h.node r).hash)
    (hs : StackFull stored known h root above stk) : StackFull stored known h' root above stk := by
  induction stk generalizing above with
  | nil => trivial
  | cons st rest ih =>
    refine ⟨fun hf i hi y hy => ?_, ?_⟩
    · rw [hh] at hy
      exact (hs.1 hf i hi y hy).imp_left (Full.grow hg hh)
    · rw [hh]
      exact ih hs.2

theorem StackFull.attaches (ha : Attaches stored Y h h')
    (hs : StackFull stored known h root above stk) : StackFull stored known h' root above stk :=
  hs.grow ha.child ha.hash

/-- A stack of scans that have not begun. -/
theorem stackFull_of_fresh (hs : ∀ st ∈ stk, st.currentChild = 0) : StackFull stored known h root above stk := by
  induction stk generalizing above with
  | nil => trivial
  | cons st rest ih =>
    refine ⟨fun _ i hi => ?_, ih fun st' ht => hs st' (mem_cons_of_mem _ ht)⟩
    rw [hs st mem_cons_self] at hi
    cases hi

theorem EdgeOk.attaches {edge : PendingDeferredFetch} (ha : Attaches stored Y h h') (he : EdgeOk stored h root y edge) :
    EdgeOk stored h' root y edge := ⟨he.1.attaches ha, by rw [ha.hash]; exact he.2⟩

theorem EdgesOk.attaches {ed : List PendingDeferredFetch} (ha : Attaches stored Y h h')
    (he : EdgesOk stored h root y ed) : EdgesOk stored h' root y ed :=
  ⟨he.1, fun edge hm => (he.2 edge hm).attaches ha⟩

/-- What is covered stays so, if what was ahead is ahead or full. -/
theorem Covered.imp {R R' : Set Ref} (hy : Covered stored known h pl R y) (hR : R ⊆ R')
    (hh : ∀ r, (h'.node r).hash = (h.node r).hash)
    (hf : Full stored known h pl.root y → Full stored known h' plan'.root y)
    (hm : y ∈ pl.missingHashes → y ∈ plan'.missingHashes)
    (ha : Ahead stored h pl y → Full stored known h pl.root y ∨ Ahead stored h' plan' y)
    (hw : Awaited h pl y → Awaited h' plan' y) : Covered stored known h' plan' R' y := by
  rcases hy with hy | hy | ⟨q, hq, rfl⟩ | hy | hy
  · exact .inl (hf hy)
  · exact .inr (.inl (hm hy))
  · exact .inr (.inr (.inl ⟨q, hR hq, hh q⟩))
  · rcases ha hy with hy | hy
    · exact .inl (hf hy)
    · exact .inr (.inr (.inr (.inl hy)))
  · exact .inr (.inr (.inr (.inr (hw hy))))

/-- **The scan moves on over a branch.** The hash of the branch is in `Y`, if there is one; of each hash there it is known
how it is covered, and a scan of it may have been put on top of the stack. -/
theorem PlanInv.move (top : List MissingNodeScanState) (hs : PlanInv stored known go ∅ s)
    (hv : s.plan.invalid = false) (hsk : s.plan.stack = se :: rest)
    (hY : ∀ z, stored (s.heap.node se.node).hash se.branch = some z → z ∈ Y)
    (ha : Attaches stored Y s.heap s'.heap) (hrt : s'.plan.root = s.plan.root)
    (hn : s'.plan.generation = s.plan.generation) (hm : s'.marked = s.marked)
    (hres : s'.plan.deferredResumes = s.plan.deferredResumes)
    (hsk' : s'.plan.stack = top ++ { se with currentChild := se.currentChild + 1, fullBelow := fb } :: rest)
    (ht : top = [] ∨ ∃ st, top = [st] ∧ st.currentChild = 0 ∧ Attached s'.heap s.plan.root st.node ∧
      (s'.heap.node st.node).isInner)
    (hfb : fb → se.fullBelow ∧ ∀ y ∈ Y, Full stored known s'.heap s.plan.root y ∨
      ∃ st, top = [st] ∧ (s'.heap.node st.node).hash = y)
    (hmi : ∀ z ∈ s.plan.missingHashes, z ∈ s'.plan.missingHashes)
    (hrd : ∀ y pd, s'.plan.pendingByHash[y]? = some pd → EdgesOk stored s'.heap s.plan.root y pd.edges)
    (hw : ∀ y ed, s'.plan.pendingNetworkByHash[y]? = some ed → EdgesOk stored s'.heap s.plan.root y ed)
    (hpe : ∀ (z : SHAMapHash) (pd : PendingReadEdges) edge, s.plan.pendingByHash[z]? = some pd → edge ∈ pd.edges →
      ∃ pending' : PendingReadEdges, s'.plan.pendingByHash[z]? = some pending' ∧ edge ∈ pending'.edges)
    (ho : ∀ y ∈ Y, Full stored known s'.heap s.plan.root y ∨ y ∈ s'.plan.missingHashes ∨ Awaited s'.heap s'.plan y ∨
      ∃ q, Attached s'.heap s.plan.root q ∧ (s'.heap.node q).hash = y ∧
        ∀ b z, stored y b = some z → Full stored known s'.heap s.plan.root z ∨ Ahead stored s'.heap s'.plan z) :
    PlanInv stored known go ∅ s' := by
  have hmo : ({ se with currentChild := se.currentChild + 1, fullBelow := fb } : MissingNodeScanState) ∈
      s'.plan.stack := by
    rw [hsk']
    exact mem_append_right _ mem_cons_self
  have hre : ∀ st ∈ rest, st ∈ s'.plan.stack := fun st hst => by
    rw [hsk']
    exact mem_append_right _ (mem_cons_of_mem _ hst)
  -- what is ahead stays so, but for the branch
  have hh : ∀ z ∉ Y, Ahead stored s.heap s.plan z → Ahead stored s'.heap s'.plan z := by
    rintro z hz (⟨st, hst, i, hle, hlt, hb⟩ | ⟨k, rs, b, hk, hb⟩)
    · left
      rw [hsk] at hst
      rcases mem_cons.mp hst with rfl | hst
      · rcases Nat.lt_or_eq_of_le hle with hl | rfl
        · exact ⟨_, hmo, i, hl, hlt, by rw [ha.hash]; exact hb⟩
        · exact absurd (hY z hb) hz
      · exact ⟨st, hre st hst, i, hle, hlt, by rw [ha.hash]; exact hb⟩
    · exact .inr ⟨k, rs, b, by rw [hres]; exact hk, by rw [ha.hash]; exact hb⟩
  refine ⟨?_, ha.storedBy, ?_, ?_, ?_, ?_, ?_, ?_, fun _ => ?_, fun _ => ?_⟩
  · rw [ha.hash, hrt, hs.goal]
  · intro r hr
    rw [ha.marks, hn] at hr
    rw [ha.hash, hrt]
    exact (hs.marks r hr).attaches ha
  · intro y hy
    rw [hm] at hy
    rw [hrt]
    exact (hs.told y hy).attaches ha
  · intro st hst
    rw [hrt]
    rw [hsk'] at hst
    rcases mem_append.mp hst with hst | hst
    · rcases ht with rfl | ⟨st', rfl, -, hat, hin⟩
      · cases hst
      · rw [mem_singleton.mp hst]
        exact ⟨hat, hin⟩
    · have hold : Attached s.heap s.plan.root st.node ∧ (s.heap.node st.node).isInner := by
        rcases mem_cons.mp hst with rfl | hst
        · exact hs.stack se (by rw [hsk]; exact mem_cons_self)
        · exact hs.stack st (by rw [hsk]; exact mem_cons_of_mem _ hst)
      exact ⟨hold.1.attaches ha, by rw [ha.inner]; exact hold.2⟩
  · intro k rs hk
    rw [hres] at hk
    obtain ⟨hnd, hat, hin⟩ := hs.resumes k rs hk
    exact ⟨hnd, by rw [hrt]; exact hat.attaches ha, by rw [ha.inner]; exact hin⟩
  · rw [hrt]
    exact hrd
  · rw [hrt]
    exact hw
  · -- the passed branches of the scans
    have hold := hs.scanned hv
    rw [hsk] at hold
    rw [hrt, hsk']
    have hc : ∀ above, (∀ y ∈ Y, fb → Full stored known s'.heap s.plan.root y ∨ above = some y) →
        StackFull stored known s'.heap s.plan.root above
          ({ se with currentChild := se.currentChild + 1, fullBelow := fb } :: rest) := by
      intro above hab
      refine ⟨fun hf i hi y hy => ?_, ?_⟩
      · have hf : fb := hf
        rw [ha.hash] at hy
        rcases Nat.lt_or_eq_of_le (Nat.le_of_lt_succ hi) with hlt | rfl
        · rcases hold.1 (hfb hf).1 i hlt y hy with hy | hy
          · exact .inl (hy.attaches ha)
          · cases hy
        · exact hab y (hY y hy) hf
      · rw [ha.hash]
        exact hold.2.attaches ha
    rcases ht with rfl | ⟨st, rfl, h0, -⟩
    · refine hc none fun y hy hf => ?_
      rcases (hfb hf).2 y hy with hy | ⟨st, hst, -⟩
      · exact .inl hy
      · cases hst
    · refine ⟨fun _ i hi => ?_, hc _ fun y hy hf => ?_⟩
      · rw [h0] at hi
        cases hi
      · rcases (hfb hf).2 y hy with hy | ⟨st', hst', hy⟩
        · exact .inl hy
        · cases hst'
          exact .inr (congrArg some hy)
  · -- the nodes reached, and the one that the branch may lead to
    obtain ⟨R, hrootR, hat, hcovR⟩ := hs.accounted hv
    refine ⟨R ∪ {q | Attached s'.heap s.plan.root q ∧ ∀ b z, stored (s'.heap.node q).hash b = some z →
      Full stored known s'.heap s.plan.root z ∨ Ahead stored s'.heap s'.plan z}, ?_, ?_, ?_⟩
    · rw [hrt]
      exact .inl hrootR
    · rw [hrt]
      rintro r (hr | ⟨hr, -⟩)
      · exact (hat r hr).attaches ha
      · exact hr
    · rintro r (hr | ⟨-, hd⟩) b z hz -
      · rw [ha.hash] at hz
        by_cases hzY : z ∈ Y
        · rcases ho z hzY with hf | hme | haw | ⟨q, hq, rfl, hd⟩
          · exact .inl (by rw [hrt]; exact hf)
          · exact .inr (.inl hme)
          · exact .inr (.inr (.inr (.inr haw)))
          · exact .inr (.inr (.inl ⟨q, .inr ⟨hq, hd⟩, rfl⟩))
        · refine (hcovR r hr b z hz (Set.notMem_empty z)).imp Set.subset_union_left ha.hash (fun hf => ?_) (hmi z)
            (fun hold => .inr (hh z hzY hold)) ?_
          · rw [hrt]
            exact hf.attaches ha
          · rintro ⟨pd, edge, hp, he, hno⟩
            obtain ⟨pending', hp', he'⟩ := hpe z pd edge hp he
            refine ⟨pending', edge, hp', he', ?_⟩
            rw [ha.other _ _ z ((hs.reads z pd hp).2 edge he).2 hzY]
            exact hno
      · rcases hd b z hz with hf | hh
        · exact .inl (by rw [hrt]; exact hf)
        · exact .inr (.inr (.inr (.inl hh)))

/-- The scan moves on over a branch, and nothing else of the plan changes. -/
theorem PlanInv.pass (top : List MissingNodeScanState) (hs : PlanInv stored known go ∅ s)
    (hv : s.plan.invalid = false) (hk : s.plan.stack = se :: rest)
    (hY : ∀ z, stored (s.heap.node se.node).hash se.branch = some z → z ∈ Y) (ha : Attaches stored Y s.heap h)
    (ht : top = [] ∨ ∃ st, top = [st] ∧ st.currentChild = 0 ∧ Attached h s.plan.root st.node ∧ (h.node st.node).isInner)
    (hf : fb → se.fullBelow ∧ ∀ y ∈ Y, Full stored known h s.plan.root y ∨ ∃ st, top = [st] ∧ (h.node st.node).hash = y)
    (hc : ∀ y ∈ Y, Full stored known h s.plan.root y ∨ y ∈ s.plan.missingHashes ∨
      ∃ st, top = [st] ∧ (h.node st.node).hash = y) :
    PlanInv stored known go ∅ { s with
      heap := h
      plan := { s.plan with
        stack := top ++ { se with currentChild := se.currentChild + 1, fullBelow := fb } :: rest } } := by
  refine hs.move top hv hk hY ha rfl rfl rfl rfl rfl ht hf (fun _ hz => hz)
    (fun z pd hp => (hs.reads z pd hp).attaches ha) (fun z ed hp => (hs.network z ed hp).attaches ha)
    (fun _ pd _ hp he => ⟨pd, hp, he⟩) (fun y hy => ?_)
  rcases hc y hy with hl | hm | ⟨st, rfl, rfl⟩
  · exact .inl hl
  · exact .inr (.inl hm)
  · rcases ht with ht | ⟨st', hst, h0, hat, -⟩
    · cases ht
    · cases hst
      exact .inr (.inr (.inr ⟨st.node, hat, rfl, fun b z hz => .inr (ahead_of_fresh mem_cons_self h0 hz)⟩))

variable {limit : Bool}

/-- **Scans and resumes change places.** Nothing is attached; marks are set where all is full, and what was ahead is
ahead or full. -/
theorem PlanInv.requeue (hs : PlanInv stored known go ∅ s) (ho : StoredBy stored s'.heap)
    (hh : ∀ r, (s'.heap.node r).hash = (s.heap.node r).hash)
    (hi : ∀ r, (s'.heap.node r).isInner = (s.heap.node r).isInner)
    (hch : ∀ r b, (s'.heap.node r).getChild b = (s.heap.node r).getChild b)
    (hm : ∀ r, (s'.heap.node r).isFullBelow s.plan.generation →
      (s.heap.node r).isFullBelow s.plan.generation ∨ Full stored known s.heap s.plan.root (s.heap.node r).hash)
    (ht : ∀ y ∈ s'.marked, y ∈ s.marked ∨ Full stored known s.heap s.plan.root y) {rq : ExtTreeMap Ref DeferredResume}
    (hn : s'.plan = { s.plan with stack := stk, deferredResumes := rq, pendingEdgeLimitReached := limit })
    (hsk : ∀ st ∈ stk, Attached s.heap s.plan.root st.node ∧ (s.heap.node st.node).isInner)
    (hre : ∀ (k : Ref) (rs : DeferredResume), rq[k]? = some rs → s.plan.deferredResumes[k]? = some rs)
    (hsc : s.plan.invalid = false → StackFull stored known s'.heap s.plan.root none stk)
    (hah : ∀ y, Ahead stored s.heap s.plan y →
      Full stored known s.heap s.plan.root y ∨ Ahead stored s'.heap s'.plan y) :
    PlanInv stored known go ∅ s' := by
  have hgr : ∀ r b q, (s.heap.node r).getChild b = some q → (s'.heap.node r).getChild b = some q :=
    fun r b q hq => (hch r b).trans hq
  have hf : ∀ {y}, Full stored known s.heap s.plan.root y → Full stored known s'.heap s'.plan.root y := by
    intro y hy
    rw [hn]
    exact hy.grow hgr hh
  have ha : ∀ {r}, Attached s.heap s.plan.root r → Attached s'.heap s'.plan.root r := by
    intro r hr
    rw [hn]
    exact hr.grow hgr
  have hd : ∀ {y edge}, EdgeOk stored s.heap s.plan.root y edge → EdgeOk stored s'.heap s'.plan.root y edge :=
    fun he => ⟨ha he.1, by rw [hh]; exact he.2⟩
  refine ⟨?_, ho, ?_, ?_, ?_, ?_, ?_, ?_, ?_, ?_⟩
  · rw [hh, hn]
    exact hs.goal
  · intro r hr
    rw [hh]
    rw [hn] at hr
    rcases hm r hr with hr | hr
    · exact hf (hs.marks r hr)
    · exact hf hr
  · intro y hy
    rcases ht y hy with hy | hy
    · exact hf (hs.told y hy)
    · exact hf hy
  · intro st hst
    rw [hn] at hst
    exact ⟨ha (hsk st hst).1, by rw [hi]; exact (hsk st hst).2⟩
  · intro k rs hk
    rw [hn] at hk
    obtain ⟨hnd, hr, hk⟩ := hs.resumes k rs (hre k rs hk)
    exact ⟨hnd, ha hr, by rw [hi]; exact hk⟩
  · intro y pd hp
    rw [hn] at hp
    exact ⟨(hs.reads y pd hp).1, fun edge he => hd ((hs.reads y pd hp).2 edge he)⟩
  · intro y ed hp
    rw [hn] at hp
    exact ⟨(hs.network y ed hp).1, fun edge he => hd ((hs.network y ed hp).2 edge he)⟩
  · rw [hn]
    exact hsc
  · intro hv
    rw [hn] at hv
    obtain ⟨R, hrt, hR, hc⟩ := hs.accounted hv
    refine ⟨R, by rw [hn]; exact hrt, fun r hr => ha (hR r hr), fun r hr b y hy _ => ?_⟩
    rw [hh] at hy
    refine (hc r hr b y hy (Set.notMem_empty y)).imp le_rfl hh hf (fun hy => by rw [hn]; exact hy) (hah y) ?_
    rintro ⟨pd, edge, hp, he, hno⟩
    exact ⟨pd, edge, by rw [hn]; exact hp, he, by rw [hch]; exact hno⟩

/-- The stack is changed: what a scan has ahead is not lost. -/
theorem PlanInv.restack (hs : PlanInv stored known go ∅ s)
    (hf : ∀ st ∈ stk, ∃ st' ∈ s.plan.stack, st.node = st'.node) (ho : ∀ st ∈ s.plan.stack, 16 ≤ st.currentChild ∨
      ∃ st' ∈ stk, st'.node = st.node ∧ st'.firstChild = st.firstChild ∧ st'.currentChild ≤ st.currentChild)
    (hsc : s.plan.invalid = false → StackFull stored known s.heap s.plan.root none stk) :
    PlanInv stored known go ∅ { s with
      heap := { s.heap with calls := n }
      plan := { s.plan with stack := stk, pendingEdgeLimitReached := limit } } := by
  have ha : Attaches stored ∅ s.heap { s.heap with calls := n } := Attaches.of_node_eq hs.storedBy rfl
  refine hs.requeue ha.storedBy (fun _ => rfl) (fun _ => rfl) (fun _ _ => rfl) (fun _ h => .inl h) (fun _ h => .inl h) rfl
    (fun st hst => ?_) (fun _ _ h => h) (fun hv => (hsc hv).attaches ha) fun y hy => .inr ?_
  · obtain ⟨st', ht, he⟩ := hf st hst
    rw [he]
    exact hs.stack st' ht
  · rcases hy with ⟨st, hst, i, hl, hlt, hb⟩ | hy
    · rcases ho st hst with h16 | ⟨st', ht, hn, hi, hc⟩
      · omega
      · refine .inl ⟨st', ht, i, hc.trans hl, hlt, ?_⟩
        rw [hn, hi]
        exact hb
    · exact .inr hy

variable (hs : PlanInv stored known go skip s) {un : ExtTreeSet SHAMapHash}

include hs

/-- What is announced is not part of the invariant, and requests to the network may be forgotten. -/
theorem PlanInv.announce {qu : List Candidate} {nw : ExtTreeMap SHAMapHash (List PendingDeferredFetch)}
    (hn : ∀ (y : SHAMapHash) (ed : List PendingDeferredFetch), nw[y]? = some ed →
      s.plan.pendingNetworkByHash[y]? = some ed) :
    PlanInv stored known go skip { s with
      plan := { s.plan with
        unannouncedNetwork := qu
        unannouncedReads := un
        pendingEdgeLimitReached := limit
        pendingNetworkByHash := nw } } :=
  ⟨hs.goal, hs.storedBy, hs.marks, hs.told, hs.stack, hs.resumes, hs.reads,
    fun y ed hy => hs.network y ed (hn y ed hy), hs.scanned, hs.accounted⟩

/-- Nor is the number of calls. -/
theorem PlanInv.calls (n : ℕ) : PlanInv stored known go skip { s with heap := { s.heap with calls := n } } := by
  have ha : Attaches stored ∅ s.heap { s.heap with calls := n } := Attaches.of_node_eq hs.storedBy rfl
  exact ⟨hs.goal, ha.storedBy, hs.marks, hs.told, hs.stack, hs.resumes, hs.reads, hs.network,
    fun hv => (hs.scanned hv).attaches ha, hs.accounted⟩

/-- After an invalid node nothing is accounted for. -/
theorem PlanInv.invalidate {pd : ExtTreeMap SHAMapHash PendingReadEdges}
    (hk : ∀ st ∈ stk, ∃ st' ∈ s.plan.stack, st.node = st'.node)
    (he : ∀ (y : SHAMapHash) (p : PendingReadEdges), pd[y]? = some p → s.plan.pendingByHash[y]? = some p) :
    PlanInv stored known go Y { s with
      heap := { s.heap with calls := n }
      plan := { s.plan with
        stack := stk
        pendingByHash := pd
        unannouncedReads := un
        pendingEdgeLimitReached := limit
        invalid := true } } := by
  have hc := hs.calls n
  refine ⟨hc.goal, hc.storedBy, hc.marks, hc.told, fun st hst => ?_, hc.resumes,
    fun y p hp => hc.reads y p (he y p hp), hc.network, fun h => ?_, fun h => ?_⟩
  · obtain ⟨st', ht, hq⟩ := hk st hst
    rw [hq]
    exact hc.stack st' ht
  · cases h
  · cases h

omit hs

/-- What a full node stores is full. -/
theorem Full.child (hy : Full stored known h root y) (hb : stored y b = some z) : Full stored known h root z :=
  hy.step ⟨b, hb⟩

/-- An attached leaf is full. -/
theorem full_of_leaf (hs : StoredBy stored h) (hr : Attached h root r) (hl : (h.node r).isInner = false) :
    Full stored known h root (h.node r).hash := by
  apply AllBelow.of_steps
  · exact .inr ⟨r, hr, rfl⟩
  · rintro z ⟨b, hb⟩
    rw [stored_of_leaf hs hl] at hb
    cases hb

end

end Xrpld.SHAMap
