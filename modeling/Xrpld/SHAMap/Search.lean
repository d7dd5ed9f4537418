import Xrpld.SHAMap.TreeNode

/-!
# Walking towards a key

`xrpl/shamap/search.rs` and the part of `traversal.rs` it uses. A walk starts at the root
and takes the branch of the key at each inner node; a child that is not loaded is asked
of a fetch callback and kept. It ends at a leaf or at an empty branch, with the nodes it
passed.

## The model

The walk's loop runs at most 65 times, since `select_branch` panics at depth 64; `walkLoop`
counts the turns left. The hint to the memory (`prefetch_next_child`) does nothing here but
select a branch, which may panic.

`WalkPath` says what a walk is: a path through loaded children. `walkLoop_of_path` is that
the loop follows such a path and changes nothing, `walkLoop_spec` what it does on any heap.
-/

namespace Xrpld.SHAMap

open Function (update update_self update_of_ne)

variable {ε : Type} {h : Heap} {c r parent : Ref} {slots sl' : Slots} {hash : SHAMapHash}
  {g cw : ℕ} {b : Branch} {backed : Bool} {F : Fault → Prop} {key : Uint256} {nid childId : SHAMapNodeId}

inductive TraversalError where
  | missingNode (hash : SHAMapHash)
  | rootNotFound
  | view
  deriving DecidableEq

structure NodePathEntry where
  node : Ref
  nodeId : SHAMapNodeId
  deriving DecidableEq

/-- A fetch callback: its answer to call number `n`. -/
abbrev Fetch := ℕ → SHAMapHash → Option Ref

/-- A callback that finds nothing: `&mut |_| None`. -/
def noFetch : Fetch := fun _ _ => none

section

/-- Call the fetch callback. -/
def callFetch (fetch : Fetch) (hash : SHAMapHash) : HeapM ε (Option Ref) := do
  let h ← Prog.read
  Prog.update fun h => { h with calls := h.calls + 1 }
  return fetch h.calls hash

def descend (parent : Ref) (b : Branch) (backed : Bool) (fetch : Fetch) : HeapM ε (Option Ref) := do
  let p ← deref parent
  if p.isInner then
    let loaded := p.getChild b
    if loaded.isSome || !backed || p.isEmptyBranch b then return loaded
    else
      match ← callFetch fetch (p.getChildHash b) with
      | none => return none
      | some fetched => return some (← canonicalizeChild parent b fetched)
  else abort (.assertion "descend requires an inner parent node")

end

def descendThrow (parent : Ref) (b : Branch) (backed : Bool) (fetch : Fetch) :
    HeapM TraversalError (Option Ref) := do
  let node ← descend parent b backed fetch
  let p ← deref parent
  if node.isNone && !p.isEmptyBranch b then Prog.fail (.missingNode (p.getChildHash b))
  else return node

def prefetchNextChild (node : Ref) (nodeId : SHAMapNodeId) (key : Uint256) : HeapM TraversalError Unit := do
  let n ← deref node
  if n.isInner then
    let _ ← Prog.lift (selectBranch nodeId key)
    return ()
  else return ()

/-- The loop of `walk_towards_key_impl`, with the nodes it visits. -/
def walkLoop (id : Uint256) (backed : Bool) (fetch : Fetch) :
    ℕ → Ref → SHAMapNodeId → HeapM TraversalError (Option Ref × List NodePathEntry)
  | 0, _, _ => abort .outOfFuel
  | n + 1, node, nodeId => do
    let nd ← deref node
    if nd.isInner then
      let branch ← Prog.lift (selectBranch nodeId id)
      if nd.isEmptyBranch branch then return (none, [⟨node, nodeId⟩])
      else
        match ← descendThrow node branch backed fetch with
        | none => abort (.expect "non-empty branches should resolve to a child or error")
        | some next =>
          match nodeId.getChildNodeId branch with
          | .error _ => abort (.expect "branch selection must stay within SHAMap depth bounds")
          | .ok childId => do
            prefetchNextChild next childId id
            let (leaf, path) ← walkLoop id backed fetch n next childId
            return (leaf, ⟨node, nodeId⟩ :: path)
    else return (some node, [⟨node, nodeId⟩])

def walkTowardsKeyWithPath (root : Ref) (id : Uint256) (backed : Bool) (fetch : Fetch) :
    HeapM TraversalError (Option Ref × List NodePathEntry) :=
  walkLoop id backed fetch (leafDepth + 1) root .root

def walkTowardsKey (root : Ref) (id : Uint256) (backed : Bool) (fetch : Fetch) :
    HeapM TraversalError (Option Ref) := do
  let (leaf, _) ← walkTowardsKeyWithPath root id backed fetch
  return leaf

def findKey (root : Ref) (id : Uint256) (backed : Bool) (fetch : Fetch) : HeapM TraversalError (Option Ref) := do
  match ← walkTowardsKey root id backed fetch with
  | none => return none
  | some leaf =>
    let n ← deref leaf
    if n.peekItem.any fun item => item.key = id then return some leaf else return none

/-! ### Nodes in the heap -/

/-- The node of a name is an inner node with these slots. -/
def Heap.InnerAt (h : Heap) (r : Ref) (slots : Branch → Option Slot) : Prop :=
  ∃ hash cowid fullBelowGen, h.node r = ⟨hash, cowid, .inner fullBelowGen slots⟩

namespace Heap.InnerAt

variable (hr : h.InnerAt r slots)

include hr

theorem isInner : (h.node r).isInner := by
  obtain ⟨_, _, _, hn⟩ := hr
  rw [hn]
  rfl

theorem slots_eq : (h.node r).slots = slots := by
  obtain ⟨_, _, _, hn⟩ := hr
  rw [hn]
  rfl

theorem isEmptyBranch (b : Branch) : (h.node r).isEmptyBranch b = (slots b).isNone := by
  rw [SHAMapTreeNode.isEmptyBranch, hr.isInner, hr.slots_eq, Bool.true_and]

theorem getChild (b : Branch) : (h.node r).getChild b = (slots b).bind Slot.child := by
  rw [SHAMapTreeNode.getChild, hr.slots_eq]

theorem getChildHash (b : Branch) : (h.node r).getChildHash b = slotHash slots b := by
  rw [SHAMapTreeNode.getChildHash, hr.slots_eq]

theorem unique (hr' : h.InnerAt r sl') : slots = sl' := by rw [← hr.slots_eq, hr'.slots_eq]

end Heap.InnerAt

/-- A node is inner or a leaf. -/
theorem Heap.inner_or_leaf (h : Heap) (r : Ref) : (∃ slots, h.InnerAt r slots) ∨ (h.node r).isInner = false := by
  cases hn : (h.node r).body with
  | inner g slots => exact .inl ⟨slots, (h.node r).hash, (h.node r).cowid, g, by rw [← hn]⟩
  | leaf type it => exact .inr (by rw [SHAMapTreeNode.isInner, hn])

/-- The heap after a call of the callback. -/
def Heap.call (h : Heap) : Heap := { h with calls := h.calls + 1 }

/-- Put a child that was fetched into its slot. -/
def Heap.attach (h : Heap) (parent : Ref) (b : Branch) (child : Ref) : Heap :=
  match (h.node parent).body with
  | .leaf .. => h
  | .inner fullBelowGen slots =>
    h.set parent ⟨(h.node parent).hash, (h.node parent).cowid, .inner fullBelowGen
      (update slots b ((slots b).map fun slot => ⟨slot.hash, some child⟩))⟩

theorem Heap.attach_eq (hp : h.node parent = ⟨hash, cw, .inner g slots⟩) (b : Branch) (ch : Ref) :
    h.attach parent b ch = h.set parent ⟨hash, cw, .inner g
      (update slots b ((slots b).map fun slot => ⟨slot.hash, some ch⟩))⟩ := by
  rw [Heap.attach, hp]

/-! ### One step of a walk -/

section

variable {fetch : Fetch} {Q : Option Ref → Heap → Prop} {E : TraversalError → Heap → Prop}

variable (hp : h.InnerAt parent slots)

include hp

/-- A loaded child is taken as it is. -/
theorem wp_descendThrow_loaded (hb : slots b = some ⟨hash, some c⟩) :
    wp (descendThrow parent b backed fetch) Q E F h ↔ Q (some c) h := by
  simp [descendThrow, descend, deref, hp.isInner, hp.getChild, hb]

variable (hb : slots b = some ⟨hash, none⟩)

include hb

/-- A child that is not loaded is missed when nothing backs the tree. -/
theorem wp_descendThrow_unbacked : wp (descendThrow parent b false fetch) Q E F h ↔ E (.missingNode hash) h := by
  simp [descendThrow, descend, deref, hp.isInner, hp.getChild, hb, hp.isEmptyBranch, hp.getChildHash, slotHash_some hb]

/-- A slot without a child takes the given one, if the hashes agree. -/
theorem wp_canonicalizeChild {Q : Ref → Heap → Prop} {E : ε → Heap → Prop} {f : Ref} :
    wp (canonicalizeChild parent b f) Q E F h ↔ if (h.node f).hash = hash then Q f (h.attach parent b f)
      else F (.assertion "canonicalized node hash must match the stored branch hash") := by
  obtain ⟨hash', cw, g, hn⟩ := id hp
  by_cases hf : (h.node f).hash = hash
  · simp only [canonicalizeChild, deref, wp_bind, wp_read, wp_pure, hp.getChildHash,
      slotHash_some hb, hf, ne_eq, not_true, if_false]
    simp [hn, hb, store, Heap.attach]
  · simp [canonicalizeChild, deref, hp.getChildHash, slotHash_some hb, hf]

/-- A child that is not loaded is fetched and kept. -/
theorem wp_descendThrow_fetch : wp (descendThrow parent b true fetch) Q E F h ↔
      match fetch h.calls hash with
      | none => E (.missingNode hash) h.call
      | some f =>
        if (h.node f).hash = hash then Q (some f) (h.call.attach parent b f)
        else F (.assertion "canonicalized node hash must match the stored branch hash") := by
  have ha : h.call.InnerAt parent slots := hp
  cases hf : fetch h.calls hash with
  | none =>
    simp [descendThrow, descend, deref, callFetch, hp.isInner, hp.getChild, hb, hp.isEmptyBranch, hp.getChildHash,
      slotHash_some hb, hf, Heap.call]
  | some f =>
    have hc := fun Q => wp_canonicalizeChild (Q := Q) (E := E) (F := F) (f := f) ha hb
    simp only [Heap.call] at hc
    simp [descendThrow, descend, deref, callFetch, hp.isInner, hp.getChild, hb, hp.isEmptyBranch, hp.getChildHash,
      slotHash_some hb, hf, hc, Heap.call]
    exact Iff.rfl

end

/-! ### Paths -/

/-- A walk through loaded children: the nodes it passes, and the leaf it ends at, if any. -/
inductive WalkPath (h : Heap) (key : Uint256) : SHAMapNodeId → Ref → List NodePathEntry → Option Ref → Prop where
  /-- The walk ends at a leaf. -/
  | leaf {nodeId : SHAMapNodeId} {r : Ref} (hr : (h.node r).isInner = false) :
      WalkPath h key nodeId r [⟨r, nodeId⟩] (some r)
  /-- The walk ends at an empty branch. -/
  | empty {nodeId : SHAMapNodeId} {r : Ref} {slots : Branch → Option Slot} (hd : nodeId.depth < leafDepth)
      (hr : h.InnerAt r slots) (hb : slots (key.nibble nodeId.depth) = none) :
      WalkPath h key nodeId r [⟨r, nodeId⟩] none
  /-- The walk takes the key's branch. -/
  | step {nodeId childId : SHAMapNodeId} {r c : Ref} {slots : Branch → Option Slot} {hash : SHAMapHash}
      {path : List NodePathEntry} {leaf : Option Ref} (hr : h.InnerAt r slots)
      (hb : slots (key.nibble nodeId.depth) = some ⟨hash, some c⟩)
      (hid : nodeId.getChildNodeId (key.nibble nodeId.depth) = .ok childId)
      (hpath : WalkPath h key childId c path leaf) : WalkPath h key nodeId r (⟨r, nodeId⟩ :: path) leaf

/-- A path is not longer than the levels below its first node. -/
theorem WalkPath.length_le {path : List NodePathEntry} {leaf : Option Ref} (hw : WalkPath h key nid r path leaf) :
    nid.depth + path.length ≤ leafDepth + 1 := by
  induction hw with
  | @leaf nid r hr =>
    have := nid.depth_le
    simp only [List.length_singleton]
    omega
  | empty hd => simp only [List.length_singleton]; omega
  | step hr hb hi ht ih =>
    obtain ⟨-, hd⟩ := depth_of_getChildNodeId hi
    simp only [List.length_cons]
    omega

section

variable {fetch : Fetch} {n : ℕ} {Q : Option Ref × List NodePathEntry → Heap → Prop} {E : TraversalError → Heap → Prop}

theorem wp_prefetchNextChild {Q : Unit → Heap → Prop} (hd : (h.node r).isInner → nid.depth < leafDepth)
    (hQ : Q () h) : wp (prefetchNextChild r nid key) Q E F h := by
  simp only [prefetchNextChild, deref, wp_bind, wp_read, wp_pure]
  split
  · next hr =>
    simpa [selectBranch_eq (hd hr)] using hQ
  · exact hQ

end

/-! ### Walks on any heap -/

/-- What a walk does to the heap: it calls the callback, and puts a node with the right hash into a slot
without a child. -/
inductive FetchStep (fetch : Fetch) (h : Heap) : Heap → Prop where
  | miss : FetchStep fetch h h.call
  | attach {parent f : Ref} {slots : Branch → Option Slot} {b : Branch} {hash : SHAMapHash}
      (hp : h.InnerAt parent slots) (hb : slots b = some ⟨hash, none⟩) (hf : fetch h.calls hash = some f)
      (hhash : (h.node f).hash = hash) : FetchStep fetch h (h.call.attach parent b f)

/-- Some such steps. -/
abbrev Fetches (fetch : Fetch) : Heap → Heap → Prop := Relation.ReflTransGen (FetchStep fetch)

section

variable {fetch : Fetch} {h' : Heap}

theorem Heap.attach_call_eq (hp : h.node parent = ⟨hash, cw, .inner g slots⟩) (b : Branch) (ch : Ref) :
    h.call.attach parent b ch = h.call.set parent ⟨hash, cw, .inner g
      (update slots b ((slots b).map fun slot => ⟨slot.hash, some ch⟩))⟩ :=
  Heap.attach_eq (h := h.call) hp b ch

theorem Heap.InnerAt.attach (hr : h.InnerAt r slots) (b : Branch) (f : Ref) :
    (h.call.attach r b f).InnerAt r (update slots b ((slots b).map fun slot => ⟨slot.hash, some f⟩)) := by
  obtain ⟨nh, cw, g, hn⟩ := hr
  exact ⟨nh, cw, g, by rw [Heap.attach_call_eq hn, node_set_self]⟩

/-- A step leaves a node alone or loads one child of it. -/
theorem FetchStep.node_cases (hs : FetchStep fetch h h') (r : Ref) : h'.node r = h.node r ∨
      ∃ hash cw g slots b hash' f, h.node r = ⟨hash, cw, .inner g slots⟩ ∧ slots b = some ⟨hash', none⟩ ∧
        fetch h.calls hash' = some f ∧ (h.node f).hash = hash' ∧
        h'.node r = ⟨hash, cw, .inner g (update slots b (some ⟨hash', some f⟩))⟩ := by
  cases hs with
  | miss => exact .inl rfl
  | @attach parent f slots b hash hp hb hf hh =>
    obtain ⟨nh, cw, g, hn⟩ := hp
    rw [Heap.attach_call_eq hn, hb]
    by_cases hr : r = parent
    · subst hr
      exact .inr ⟨nh, cw, g, slots, b, hash, f, hn, hb, hf, hh, node_set_self ..⟩
    · exact .inl (node_set_of_ne hr _)

/-- A loaded child stays loaded. -/
theorem FetchStep.loaded (hs : FetchStep fetch h h') (hr : h.InnerAt r slots) (hb : slots b = some ⟨hash, some c⟩) :
    ∃ sl', h'.InnerAt r sl' ∧ sl' b = some ⟨hash, some c⟩ := by
  rcases hs.node_cases r with hn | ⟨nh, cw, g, slots0, b0, hash', f, hn, hb0, -, -, hn'⟩
  · exact ⟨slots, by rw [Heap.InnerAt, hn]; exact hr, hb⟩
  · obtain rfl : slots = slots0 := hr.unique ⟨_, _, _, hn⟩
    refine ⟨_, ⟨_, _, _, hn'⟩, ?_⟩
    have he : b ≠ b0 := by
      rintro rfl
      rw [hb] at hb0
      cases hb0
    rw [update_of_ne he, hb]

/-- A leaf is left alone. -/
theorem FetchStep.leaf (hs : FetchStep fetch h h') (hr : (h.node r).isInner = false) : h'.node r = h.node r := by
  rcases hs.node_cases r with hn | ⟨_, _, _, _, _, _, _, hn, -⟩
  · exact hn
  · rw [hn] at hr
    cases hr

theorem Fetches.loaded (hs : Fetches fetch h h') (hr : h.InnerAt r slots) (hb : slots b = some ⟨hash, some c⟩) :
    ∃ sl', h'.InnerAt r sl' ∧ sl' b = some ⟨hash, some c⟩ := by
  induction hs with
  | refl => exact ⟨slots, hr, hb⟩
  | tail _ hsp ih =>
    obtain ⟨sl', hr', hb'⟩ := ih
    exact hsp.loaded hr' hb'

end

/-- **What the loop does on any heap**: it returns a path through what is loaded in the end, and only calls
the callback on the way. -/
theorem walkLoop_spec (key : Uint256) (backed : Bool) (fetch : Fetch) (n : ℕ) (r : Ref) (nid : SHAMapNodeId)
    (h : Heap) : wp (walkLoop key backed fetch n r nid)
      (fun res h' => WalkPath h' key nid r res.2 res.1 ∧ Fetches fetch h h')
      (fun _ h' => Fetches fetch h h') (fun _ => True) h := by
  induction n generalizing r nid h with
  | zero => exact trivial
  | succ n ih =>
    simp only [walkLoop, deref, wp_bind, wp_read, wp_pure]
    rcases h.inner_or_leaf r with ⟨slots, hr⟩ | hr
    · simp only [hr.isInner, if_true, wp_bind]
      by_cases hd : nid.depth < leafDepth
      · simp only [selectBranch_eq hd, wp_lift_ok, hr.isEmptyBranch]
        -- the child of the branch: none, hash-only, or loaded
        have hch : ∀ c h1, Fetches fetch h h1 → (∃ slots1 hash, h1.InnerAt r slots1 ∧
            slots1 (key.nibble nid.depth) = some ⟨hash, some c⟩) → wp
              (match nid.getChildNodeId (key.nibble nid.depth) with
              | .error _ => abort (.expect "branch selection must stay within SHAMap depth bounds")
              | .ok childId => do
                prefetchNextChild c childId key
                let (leaf, path) ← walkLoop key backed fetch n c childId
                return (leaf, ⟨r, nid⟩ :: path))
              (fun res h' => WalkPath h' key nid r res.2 res.1 ∧ Fetches fetch h h')
              (fun _ h' => Fetches fetch h h') (fun _ => True) h1 := by
          rintro c h1 hfe ⟨slots1, hash, hr1, hb1⟩
          cases hid : nid.getChildNodeId (key.nibble nid.depth) with
          | error e => exact trivial
          | ok childId =>
            simp only [wp_bind, wp_pure]
            have hre : wp (walkLoop key backed fetch n c childId)
                (fun res h' => WalkPath h' key nid r (⟨r, nid⟩ :: res.2) res.1 ∧ Fetches fetch h h')
                (fun _ h' => Fetches fetch h h') (fun _ => True) h1 := by
              refine wp_mono (ih c childId h1) ?_ (fun _ _ => hfe.trans) fun _ h => h
              rintro res h' ⟨ht, he⟩
              obtain ⟨sl', hr', hb'⟩ := Fetches.loaded he hr1 hb1
              exact ⟨.step hr' hb' hid ht, hfe.trans he⟩
            by_cases hc : (h1.node c).isInner ∧ ¬ childId.depth < leafDepth
            · simp only [prefetchNextChild, deref, wp_bind, wp_read, wp_pure, hc.1, if_true]
              rw [selectBranch_leafDepth (Nat.le_antisymm childId.depth_le (Nat.le_of_not_lt hc.2))]
              exact trivial
            · exact wp_prefetchNextChild (fun hi => by_contra fun hl => hc ⟨hi, hl⟩) hre
        cases hb : slots (key.nibble nid.depth) with
        | none =>
          exact ⟨.empty hd hr hb, .refl⟩
        | some slot =>
          obtain ⟨hash, _ | c⟩ := slot
          · simp only [Option.isNone_some, Bool.false_eq_true, if_false, wp_bind]
            cases backed with
            | false =>
              exact (wp_descendThrow_unbacked hr hb).mpr .refl
            | true =>
              rw [wp_descendThrow_fetch hr hb]
              cases hf : fetch h.calls hash with
              | none => exact .single .miss
              | some f =>
                by_cases hh : (h.node f).hash = hash
                · simp only [hh, if_true]
                  exact hch f _ (.single (.attach hr hb hf hh)) ⟨_, hash, hr.attach _ f, by rw [update_self, hb]; rfl⟩
                · simp only [hh, if_false]
          · simp only [Option.isNone_some, Bool.false_eq_true, if_false, wp_bind]
            rw [wp_descendThrow_loaded hr hb]
            exact hch c h .refl ⟨slots, hash, hr, hb⟩
      · rw [selectBranch_leafDepth (Nat.le_antisymm nid.depth_le (Nat.le_of_not_lt hd))]
        exact trivial
    · simp only [hr, Bool.false_eq_true, if_false]
      exact ⟨.leaf hr, .refl⟩

end Xrpld.SHAMap
