import Xrpld.SHAMap.FailedMutation

/-!
# Deletes that fail halfway

`delete_item_with_fetch` takes the leaf out first and then goes up the path, changing the nodes
that the tree owns in place. A node with one branch left is to be replaced by the one leaf below
it, if there is just one; looking for that leaf may need the callback. If the callback fails,
the call returns an error, with the nodes below already changed.

## The model

`Sole` says how the search for the one leaf ends, and how often it asks. `FailsMidway` says when
a call fails after it has changed a node of the tree: going up from the leaf there are nodes
with no other branch, then a node with one other branch, below which a node is missing; or the
search from there ends at a node with more branches, and fails when it is made once more for
a node further up.

## What is proved

`failed_calls_keep_map`: these are the only calls that fail with the map changed.
-/

namespace Xrpld.SHAMap

open Function (update update_self update_of_ne)
open List Nat Option SHAMapTreeNode Changes

/-! ### The search for the one leaf -/

variable {c d j k n k' n' n1 n2 turns : ℕ} {x slot : Slot} {fetch : Fetch} {h h' : Heap} {q r r' : Ref}
  {sl sl' : Slots} {b o b' : Branch} {E : MutationError → Memory → Prop}
  {Q : Option Ref → Memory → Prop} {F : Fault → Prop} {rank : Ref → ℕ} {key : Uint256}
  {es es' mid path below : List NodePathEntry} {e fork en : NodePathEntry} {D : Stored} {hash : SHAMapHash}
  {sha : Sha} {s s1 s2 : Memory}

/-- How the search ends: at a leaf, at a node with none or several branches, or at a node that is not found. -/
inductive SoleEnd where
  | leaf (r : Ref)
  | branching
  | missing (hash : SHAMapHash)

/-- From the node `r`, after `n` calls of the callback, the search ends so within `k` turns, after `n'` calls. -/
inductive Sole (fetch : Fetch) (h : Heap) : ℕ → ℕ → Ref → SoleEnd → ℕ → Prop where
  | leaf {k n : ℕ} {r : Ref} (hr : (h.node r).isInner = false) : Sole fetch h (k + 1) n r (.leaf r) n
  | branching {k n : ℕ} {r : Ref} {slots : Branch → Option Slot} (hr : h.InnerAt r slots)
      (hset : (setBranches slots).length ≠ 1) : Sole fetch h (k + 1) n r .branching n
  | loaded {k n n' : ℕ} {r q : Ref} {slots : Branch → Option Slot} {b : Branch} {hash : SHAMapHash} {e : SoleEnd}
      (hr : h.InnerAt r slots) (hset : setBranches slots = [b]) (hb : slots b = some ⟨hash, some q⟩)
      (hq : Sole fetch h k n q e n') : Sole fetch h (k + 1) n r e n'
  | fetched {k n n' : ℕ} {r f : Ref} {slots : Branch → Option Slot} {b : Branch} {hash : SHAMapHash} {e : SoleEnd}
      (hr : h.InnerAt r slots) (hset : setBranches slots = [b]) (hb : slots b = some ⟨hash, none⟩)
      (hf : fetch n hash = some f) (hq : Sole fetch h k (n + 1) f e n') : Sole fetch h (k + 1) n r e n'
  | missing {k n : ℕ} {r : Ref} {slots : Branch → Option Slot} {b : Branch} {hash : SHAMapHash}
      (hr : h.InnerAt r slots) (hset : setBranches slots = [b]) (hb : slots b = some ⟨hash, none⟩)
      (hf : fetch n hash = none) : Sole fetch h (k + 1) n r (.missing hash) (n + 1)

/-- The search from a slot on. -/
def SlotSole (fetch : Fetch) (h : Heap) (k n : ℕ) (e : SoleEnd) (n' : ℕ) : Slot → Prop
  | ⟨_, some q⟩ => Sole fetch h k n q e n'
  | ⟨hash, none⟩ =>
    (fetch n hash = none ∧ e = .missing hash ∧ n' = n + 1) ∨
      ∃ f, fetch n hash = some f ∧ Sole fetch h k (n + 1) f e n'

/-- The search from a slot, made `j` times, ends each time at a node with none or several branches. -/
def Repeats (fetch : Fetch) (h : Heap) (k : ℕ) (slot : Slot) : ℕ → ℕ → ℕ → Prop
  | 0, n, n' => n' = n
  | j + 1, n, n' => ∃ n1, Repeats fetch h k slot j n n1 ∧ SlotSole fetch h k n1 .branching n' slot

section

variable {e : SoleEnd} {E : MutationError → Heap → Prop} {Q : Option Ref → Heap → Prop} {A : Set Ref}

/-- The one slot of a node. -/
theorem InnerAt.only {slot' : Slot} (hr : h.InnerAt r sl) (he : setBranches sl = [b]) (hb : sl b = some slot)
    (hr' : h.InnerAt r sl') (hs : setBranches sl' = [b']) (hb' : sl' b' = some slot') : slot' = slot := by
  obtain rfl := hr.unique hr'
  rw [he] at hs
  cases hs
  rw [hb] at hb'
  exact (some.inj hb').symm

/-- A node with one branch is searched through its slot. -/
theorem sole_iff_slotSole (hr : h.InnerAt r sl) (he : setBranches sl = [b])
    (hb : sl b = some slot) : Sole fetch h (k + 1) n r e n' ↔ SlotSole fetch h k n e n' slot := by
  constructor
  · intro hs
    cases hs with
    | leaf hl => rw [hr.isInner] at hl; cases hl
    | branching hr' hse =>
      obtain rfl := hr.unique hr'
      rw [he] at hse
      exact absurd rfl hse
    | loaded hr' hse hb' hq =>
      cases InnerAt.only hr he hb hr' hse hb'
      exact hq
    | fetched hr' hse hb' hf hq =>
      cases InnerAt.only hr he hb hr' hse hb'
      exact .inr ⟨_, hf, hq⟩
    | missing hr' hse hb' hf =>
      cases InnerAt.only hr he hb hr' hse hb'
      exact .inl ⟨hf, rfl, rfl⟩
  · intro hs
    obtain ⟨hash, _ | q⟩ := slot
    · rcases hs with ⟨hf, rfl, rfl⟩ | ⟨f, hf, hq⟩
      · exact .missing hr he hb hf
      · exact .fetched hr he hb hf hq
    · exact .loaded hr he hb hs

/-- The nodes of a set lead to nodes of the set only. -/
structure ClosedUnder (fetch : Fetch) (h : Heap) (A : Set Ref) : Prop where
  loaded : ∀ {r q : Ref} {slots : Branch → Option Slot} {b : Branch} {hash : SHAMapHash}, r ∈ A → h.InnerAt r slots →
    slots b = some ⟨hash, some q⟩ → q ∈ A
  fetched : ∀ {r f : Ref} {slots : Branch → Option Slot} {b : Branch} {hash : SHAMapHash} {n : ℕ}, r ∈ A →
    h.InnerAt r slots → slots b = some ⟨hash, none⟩ → fetch n hash = some f → f ∈ A

theorem InnerAt.congr (hs : h'.node r = h.node r) (hr : h.InnerAt r sl) : h'.InnerAt r sl := by
  rw [Heap.InnerAt, hs]
  exact hr

theorem ClosedUnder.congr (hA : ClosedUnder fetch h A) (hs : ∀ q ∈ A, h'.node q = h.node q) :
    ClosedUnder fetch h' A :=
  ⟨fun hq hi => hA.loaded hq (InnerAt.congr (hs _ hq).symm hi),
    fun hq hi => hA.fetched hq (InnerAt.congr (hs _ hq).symm hi)⟩

theorem Sole.congr (hA : ClosedUnder fetch h A) (hm : ∀ q ∈ A, h'.node q = h.node q) (hr : r ∈ A)
    (hs : Sole fetch h k n r e n') : Sole fetch h' k n r e n' := by
  induction hs with
  | leaf hl => exact .leaf (by rw [hm _ hr]; exact hl)
  | branching hi he => exact .branching (InnerAt.congr (hm _ hr) hi) he
  | loaded hi he hb _ ih => exact .loaded (InnerAt.congr (hm _ hr) hi) he hb (ih (hA.loaded hr hi hb))
  | fetched hi he hb hf _ ih =>
    exact .fetched (InnerAt.congr (hm _ hr) hi) he hb hf (ih (hA.fetched hr hi hb hf))
  | missing hi he hb hf => exact .missing (InnerAt.congr (hm _ hr) hi) he hb hf

theorem Sole.congr_node (hs : Sole fetch h k n r e n') (hn : h'.node = h.node) : Sole fetch h' k n r e n' :=
  hs.congr (A := Set.univ) ⟨fun _ _ _ => trivial, fun _ _ _ _ => trivial⟩ (fun q _ => by rw [hn]) trivial

/-- More turns do no harm. -/
theorem Sole.mono (hs : Sole fetch h k n r e n') (hk : k ≤ k') : Sole fetch h k' n r e n' := by
  induction hs generalizing k' <;> obtain ⟨k', rfl⟩ := Nat.exists_eq_add_of_le' (Nat.le_trans (Nat.le_add_left 1 _) hk)
  case leaf hr => exact .leaf hr
  case branching hr he => exact .branching hr he
  case loaded hr he hb _ ih => exact .loaded hr he hb (ih (le_of_succ_le_succ hk))
  case fetched hr he hb hf _ ih => exact .fetched hr he hb hf (ih (le_of_succ_le_succ hk))
  case missing hr he hb hf => exact .missing hr he hb hf

theorem SlotSole.mono (hs : SlotSole fetch h k n e n' slot) (hk : k ≤ k') : SlotSole fetch h k' n e n' slot := by
  obtain ⟨hash, _ | q⟩ := slot
  · rcases hs with hs | ⟨f, hf, hs⟩
    · exact .inl hs
    · exact .inr ⟨f, hf, hs.mono hk⟩
  · exact Sole.mono hs hk

/-- The search from a slot depends on the nodes below it only. -/
theorem SlotSole.congr (hA : ClosedUnder fetch h A)
    (hm : ∀ q ∈ A, h'.node q = h.node q) (hr : ∀ q, slot.child = some q → q ∈ A)
    (he : slot.child = none → ∀ n f, fetch n slot.hash = some f → f ∈ A) :
    SlotSole fetch h' k n e n' slot ↔ SlotSole fetch h k n e n' slot := by
  have hA' := hA.congr hm
  have hs : ∀ q ∈ A, h.node q = h'.node q := fun q hq => (hm q hq).symm
  obtain ⟨hash, _ | q⟩ := slot
  · refine or_congr_right (exists_congr fun f => and_congr_right fun hf => ?_)
    have hfA := he rfl _ f hf
    exact ⟨Sole.congr hA' hs hfA, Sole.congr hA hm hfA⟩
  · have hq := hr q rfl
    exact ⟨Sole.congr hA' hs hq, Sole.congr hA hm hq⟩

/-! ### The search in the code -/

/-- What the code returns when the search ends so. -/
def SoleEnd.Returns (e : SoleEnd) (n' : ℕ) (h : Heap) (Q : Option Ref → Heap → Prop)
    (E : MutationError → Heap → Prop) : Prop :=
  match e with
  | .leaf r => Q (some r) { h with calls := n' }
  | .branching => Q none { h with calls := n' }
  | .missing hash => E (.traversal (.missingNode hash)) { h with calls := n' }

/-- **Whatever the code returns is how the search ends.** -/
theorem wp_onlyBelow_sound (hre : ∀ e n', Sole fetch h turns h.calls r e n' → e.Returns n' h Q E) :
    wp (onlyBelowLeafWithFetch fetch turns r) Q E ⊤ h := by
  induction turns generalizing r h with
  | zero => exact trivial
  | succ turns ih =>
    rcases h.inner_or_leaf r with ⟨sl, hr⟩ | hr
    · by_cases he : (setBranches sl).length = 1
      · obtain ⟨b, he⟩ := length_eq_one_iff.mp he
        rw [wp_onlyBelow_inner hr he]
        refine ⟨fun hash q hb => ?_, fun hash hb => ⟨fun hf => ?_, fun f hf => ?_⟩⟩
        · exact ih fun e n' hs => hre e n' (.loaded hr he hb hs)
        · exact hre _ _ (.missing hr he hb hf)
        · refine ih fun e n' hs => ?_
          exact hre e n' (.fetched hr he hb hf (hs.congr_node rfl))
      · rw [wp_onlyBelow_branching hr he]
        exact hre _ _ (.branching hr he)
    · rw [wp_onlyBelow_leaf hr]
      exact hre _ _ (.leaf hr)

/-- **The code returns how the search ends.** -/
theorem wp_onlyBelow_complete (hs : Sole fetch h k n r e n') (hn : h.calls = n) (hre : e.Returns n' h Q E) :
    wp (onlyBelowLeafWithFetch fetch k r) Q E F h := by
  induction k generalizing h n r with
  | zero => cases hs
  | succ k ih =>
    subst hn
    cases hs with
    | leaf hr =>
      rw [wp_onlyBelow_leaf hr]
      exact hre
    | branching hr he =>
      rw [wp_onlyBelow_branching hr he]
      exact hre
    | loaded hr he hb hq =>
      rw [wp_onlyBelow_inner hr he, hb]
      refine ⟨fun hash q heq => ?_, fun hash heq => by cases heq⟩
      cases heq
      exact ih hq rfl hre
    | fetched hr he hb hf hq =>
      rw [wp_onlyBelow_inner hr he, hb]
      refine ⟨fun hash q heq => (by cases heq), fun hash heq => ?_⟩
      cases heq
      rw [hf]
      refine ⟨fun hno => (by cases hno), fun f ho => ?_⟩
      cases ho
      exact ih (hq.congr_node rfl) rfl hre
    | missing hr he hb hf =>
      rw [wp_onlyBelow_inner hr he, hb]
      refine ⟨fun hash q heq => (by cases heq), fun hash heq => ?_⟩
      cases heq
      rw [hf]
      exact ⟨fun _ => hre, fun f ho => by cases ho⟩

end

/-! ### Paths -/

/-- Inner nodes on the way of a key, from a node at a depth down to another one. -/
inductive Trail (h : Heap) (key : Uint256) : ℕ → Ref → List NodePathEntry → Ref → Prop where
  | nil {d : ℕ} {r : Ref} : Trail h key d r [] r
  | cons {d : ℕ} {r q r' : Ref} {entry : NodePathEntry} {slots : Branch → Option Slot} {hash : SHAMapHash}
      {es : List NodePathEntry} (hnode : entry.node = r) (hid : entry.nodeId.depth = d) (hd : d < leafDepth)
      (hr : h.InnerAt r slots) (hb : slots (key.nibble d) = some ⟨hash, some q⟩) (hes : Trail h key (d + 1) q es r') :
      Trail h key d r (entry :: es) r'

/-- The names of the nodes of a path. -/
def nodesOf (es : List NodePathEntry) : Set Ref := {q | ∃ e ∈ es, e.node = q}

section

/-- A walk to a leaf leaves such a path. -/
theorem WalkPath.trail {nid : SHAMapNodeId} {leaf : Ref} (hw : WalkPath h key nid r path (some leaf)) :
    Trail h key nid.depth r path.dropLast leaf ∧ (h.node leaf).isInner = false := by
  generalize hl : some leaf = last at hw
  induction hw with
  | leaf hr =>
    cases hl
    exact ⟨.nil, hr⟩
  | empty => cases hl
  | @step nid ci r q sl hash path last hr hb hi hp ih =>
    obtain ⟨htl, hlf⟩ := ih hl
    obtain ⟨hd, he⟩ := depth_of_getChildNodeId hi
    have hn : path ≠ [] := by cases hp <;> simp
    rw [dropLast_cons_of_ne_nil hn]
    exact ⟨.cons rfl rfl hd hr hb (he ▸ htl), hlf⟩

theorem Trail.append_iff :
    Trail h key d r (es ++ es') r' ↔ ∃ m, Trail h key d r es m ∧ Trail h key (d + es.length) m es' r' := by
  induction es generalizing d r with
  | nil =>
    refine ⟨fun ht => ⟨r, .nil, ht⟩, ?_⟩
    rintro ⟨m, ht, ht'⟩
    cases ht
    exact ht'
  | cons en es ih =>
    constructor
    · intro ht
      cases ht with
      | cons hn hi hd hr hb he =>
        obtain ⟨m, ht, ht'⟩ := ih.mp he
        exact ⟨m, .cons hn hi hd hr hb ht, by rw [List.length_cons, Nat.add_comm es.length, ← Nat.add_assoc]; exact ht'⟩
    · rintro ⟨m, ht, ht'⟩
      cases ht with
      | cons hn hi hd hr hb he =>
        refine .cons hn hi hd hr hb (ih.mpr ⟨m, he, ?_⟩)
        rw [List.length_cons, Nat.add_comm es.length, ← Nat.add_assoc] at ht'
        exact ht'

theorem Trail.depth_le (ht : Trail h key d r es r') (hd : d ≤ leafDepth) : d + es.length ≤ leafDepth := by
  induction ht with
  | nil => exact hd
  | cons _ _ hd' _ _ _ ih =>
    rw [length_cons]
    omega

variable (hw : WellOwned fetch c rank h)

include hw

variable (ht : Trail h key d r es r')

include ht

/-- The nodes of a path go down, and are old. -/
theorem Trail.rank_le (hr : r < h.next) (hq : q ∈ nodesOf es) : rank q ≤ rank r ∧ q < h.next := by
  obtain ⟨e, he, rfl⟩ := hq
  induction ht with
  | nil => cases he
  | cons hd _ _ hi hb _ ih =>
    rcases mem_cons.mp he with rfl | he
    · rw [hd]
      exact ⟨le_refl _, hr⟩
    · obtain ⟨hlt, hn⟩ := hw.loaded hr hi hb
      obtain ⟨hl, hold⟩ := ih hn he
      exact ⟨le_trans hl (le_of_lt hlt), hold⟩

/-- If a node of a path is owned, the first one is. -/
theorem Trail.owned_head (hr : r < h.next) (he : e ∈ es) (ho : (h.node e.node).cowid = c) : (h.node r).cowid = c := by
  induction ht with
  | nil => cases he
  | cons hn _ _ hi hb hs ih =>
    rcases mem_cons.mp he with rfl | he
    · rw [← hn]
      exact ho
    · exact hw.owner hr hi hb (ih (hw.loaded hr hi hb).2 he)

omit hw in
/-- Every node of a path but the first one is below another one. -/
theorem Trail.parent (he : e ∈ es) : e.node = r ∨ ∃ e' ∈ es, ∃ sl hash, h.InnerAt e'.node sl ∧
      sl (key.nibble e'.nodeId.depth) = some ⟨hash, some e.node⟩ := by
  induction ht with
  | nil => cases he
  | @cons d r q r' en sl hash es hn hi _ hin hb _ ih =>
    rcases mem_cons.mp he with rfl | he
    · exact .inl hn
    · right
      rcases ih he with hq | ⟨e', he', hp⟩
      · exact ⟨en, mem_cons_self, sl, hash, by rw [hn]; exact hin, by rw [hi, hq]; exact hb⟩
      · exact ⟨e', mem_cons_of_mem _ he', hp⟩

/-- The end of a path is below its nodes. -/
theorem Trail.rank_end (hr : r < h.next) : r' < h.next ∧ ∀ q ∈ nodesOf es, rank r' < rank q := by
  induction ht with
  | nil => exact ⟨hr, fun q hq => by obtain ⟨e, he, -⟩ := hq; cases he⟩
  | @cons d r q r' en sl hash es hd _ _ hi hb hs ih =>
    obtain ⟨hl, hnx⟩ := hw.loaded hr hi hb
    obtain ⟨hold, hk⟩ := ih hnx
    refine ⟨hold, fun x hx => ?_⟩
    obtain ⟨e, he, rfl⟩ := hx
    rcases mem_cons.mp he with rfl | he
    · rw [hd]
      cases hs with
      | nil => exact hl
      | cons hn => exact lt_trans (hk _ ⟨_, mem_cons_self, hn⟩) hl
    · exact hk _ ⟨e, he, rfl⟩

end

/-! ### One way aside -/

/-- The branches of a node that are set, other than one. -/
def otherBranches (slots : Branch → Option Slot) (b : Branch) : List Branch := setBranches (update slots b none)

/-- A node on the way of a key that has no other branch. -/
def Alone (h : Heap) (key : Uint256) (e : NodePathEntry) : Prop :=
  ∃ slots, h.InnerAt e.node slots ∧ otherBranches slots (key.nibble e.nodeId.depth) = []

/-- **One way aside**: of the nodes on the way, one has one other branch, with this slot, and the others have none. -/
structure OneAside (h : Heap) (key : Uint256) (mid : List NodePathEntry) (fork : NodePathEntry)
    (below : List NodePathEntry) (slot : Slot) : Prop where
  mid : ∀ e ∈ mid, Alone h key e
  below : ∀ e ∈ below, Alone h key e
  fork : ∃ slots o, h.InnerAt fork.node slots ∧ otherBranches slots (key.nibble fork.nodeId.depth) = [o] ∧
    slots o = some slot

theorem ne_of_otherBranches (ho : otherBranches sl b = [o]) : o ≠ b := by
  have hm : o ∈ otherBranches sl b := by rw [ho]; exact mem_singleton_self o
  rintro rfl
  exact mem_setBranches.mp hm (update_self ..)

section

variable {e : SoleEnd}

/-- Of the nodes below the other branch, none is changed by a change of the owned nodes on the way. -/
theorem OneAside.slotSole_iff (hw : WellOwned fetch c rank h) (hc : c ≠ 0) (hr : r < h.next)
    (ht : Trail h key d r (mid ++ fork :: below) r') (ha : OneAside h key mid fork below slot)
    (hch : Changes c (nodesOf (mid ++ fork :: below)) h h') :
    SlotSole fetch h' k n e n' slot ↔ SlotSole fetch h k n e n' slot := by
  obtain ⟨m, hd, hfo⟩ := Trail.append_iff.mp ht
  obtain ⟨hm, hk⟩ := hd.rank_end hw hr
  obtain rfl : fork.node = m := by cases hfo; assumption
  obtain ⟨sl, o, hin, ho, hsl⟩ := ha.fork
  have hlo : ∀ e ∈ below, rank e.node < rank fork.node := by
    intro e he
    cases hfo with
    | cons _ _ _ hin' hb' hes =>
      obtain ⟨hlt, hx⟩ := hw.loaded hm hin' hb'
      exact lt_of_le_of_lt (hes.rank_le hw hx ⟨e, he, rfl⟩).1 hlt
  -- an owned node on the way below the fork is below a node on the way
  have hp : ∀ e ∈ below, (h.node e.node).cowid = c → ∀ r1 slots1 b1 hs, r1 < h.next → h.InnerAt r1 slots1 →
      slots1 b1 = some ⟨hs, some e.node⟩ →
      (r1 = fork.node ∧ b1 = key.nibble fork.nodeId.depth) ∨ ∃ e' ∈ below, e'.node = r1 := by
    intro e he hn r1 slots1 b1 hs hr1 hi hb
    rcases hfo.parent (mem_cons_of_mem _ he) with heq | ⟨e', he', sl', hash', hin', hb'⟩
    · exact absurd (hlo e he) (by rw [heq]; exact lt_irrefl _)
    · obtain ⟨rfl, rfl⟩ := hw.unique hr1 (hfo.rank_le hw hm ⟨e', he', rfl⟩).2 hi hin' hb hb' hn
      rcases mem_cons.mp he' with rfl | he'
      · exact .inl ⟨rfl, rfl⟩
      · exact .inr ⟨e', he', rfl⟩
  let A : Set Ref := {q | q < h.next ∧ rank q < rank fork.node ∧ (q ∈ nodesOf below → (h.node q).cowid ≠ c)}
  have hA : ClosedUnder fetch h A := by
    refine ⟨?_, ?_⟩
    · rintro r1 q slots1 b1 hs ⟨hr1, hl, how⟩ hi hb
      obtain ⟨hlt, hq⟩ := hw.loaded hr1 hi hb
      refine ⟨hq, lt_trans hlt hl, ?_⟩
      rintro ⟨e, he, rfl⟩ hn
      rcases hp e he hn r1 slots1 b1 hs hr1 hi hb with ⟨rfl, -⟩ | hme
      · exact lt_irrefl _ hl
      · exact how hme (hw.owner hr1 hi hb hn)
    · rintro r1 f slots1 b1 hs k ⟨hr1, hl, how⟩ hi hb hf
      obtain ⟨hlt, hq, hh⟩ := hw.fetched hr1 hi hb hf
      exact ⟨hq, lt_trans hlt hl, fun _ => by rw [hh]; exact hc.symm⟩
  refine SlotSole.congr hA ?_ ?_ ?_
  · rintro q ⟨hq, hlt, hn⟩
    refine hch.same q hq fun hco => ?_
    rintro ⟨e, he, rfl⟩
    rcases mem_append.mp he with he | he
    · exact absurd (hk _ ⟨e, he, rfl⟩) (Nat.not_lt_of_lt hlt)
    · rcases mem_cons.mp he with rfl | he
      · exact lt_irrefl _ hlt
      · exact hn ⟨e, he, rfl⟩ hco
  · obtain ⟨hash, ch⟩ := slot
    rintro q rfl
    obtain ⟨hlt, hq⟩ := hw.loaded hm hin hsl
    refine ⟨hq, hlt, ?_⟩
    rintro ⟨e, he, rfl⟩ hn
    rcases hp e he hn _ sl o hash hm hin hsl with ⟨-, hbo⟩ | ⟨e', he', heq⟩
    · exact ne_of_otherBranches ho hbo
    · exact absurd (hlo e' he') (by rw [heq]; exact lt_irrefl _)
  · obtain ⟨hash, ch⟩ := slot
    rintro rfl k f hf
    obtain ⟨hlt, hq, hh⟩ := hw.fetched hm hin hsl hf
    exact ⟨hq, hlt, fun _ => by rw [hh]; exact hc.symm⟩

end

/-! ### What the loop leaves behind -/

/-- Of `j` nodes with one branch each, the first ones lead on along the key and the last one aside, to a slot. -/
inductive Chain (h : Heap) (T : Set Ref) (key : Uint256) (slot : Slot) : ℕ → ℕ → Ref → Prop where
  | here {d : ℕ} {r : Ref} {slots : Branch → Option Slot} {o : Branch} (hT : r ∈ T) (hr : h.InnerAt r slots)
      (hset : setBranches slots = [o]) (ho : slots o = some slot) (hb : slots (key.nibble d) = none) :
      Chain h T key slot 1 d r
  | down {j d : ℕ} {r q : Ref} {slots : Branch → Option Slot} {hash : SHAMapHash} (hT : r ∈ T)
      (hr : h.InnerAt r slots) (hset : setBranches slots = [key.nibble d])
      (hb : slots (key.nibble d) = some ⟨hash, some q⟩) (hq : Chain h T key slot j (d + 1) q) :
      Chain h T key slot (j + 1) d r

/-- Nodes with one branch each that lead to a leaf, or to a node with none or several branches. -/
inductive Settled (h : Heap) (T : Set Ref) : Ref → Prop where
  | leaf {r : Ref} (hT : r ∈ T) (hr : (h.node r).isInner = false) : Settled h T r
  | branching {r : Ref} {slots : Branch → Option Slot} (hT : r ∈ T) (hr : h.InnerAt r slots)
      (hset : (setBranches slots).length ≠ 1) : Settled h T r
  | down {r q : Ref} {slots : Branch → Option Slot} {b : Branch} {hash : SHAMapHash} (hT : r ∈ T)
      (hr : h.InnerAt r slots) (hset : setBranches slots = [b]) (hb : slots b = some ⟨hash, some q⟩)
      (hq : Settled h T q) : Settled h T r

section

variable {T T' : Set Ref} {e : SoleEnd}

variable (hch : Chain h T key slot j d r)

include hch

theorem Chain.frame (hT : T ⊆ T') (hm : ∀ q ∈ T, h'.node q = h.node q) : Chain h' T' key slot j d r := by
  induction hch with
  | here hr hi hs ho hb => exact .here (hT hr) (InnerAt.congr (hm _ hr) hi) hs ho hb
  | down hr hi hs hb _ ih => exact .down (hT hr) (InnerAt.congr (hm _ hr) hi) hs hb ih

omit hch in
theorem Settled.frame (hs : Settled h T r) (hT : T ⊆ T') (hm : ∀ q ∈ T, h'.node q = h.node q) : Settled h' T' r := by
  induction hs with
  | leaf hr hl => exact .leaf (hT hr) (by rw [hm _ hr]; exact hl)
  | branching hr hi he => exact .branching (hT hr) (InnerAt.congr (hm _ hr) hi) he
  | down hr hi he hb _ ih => exact .down (hT hr) (InnerAt.congr (hm _ hr) hi) he hb ih

/-- The search goes along a chain to its slot. -/
theorem Chain.slotSole (hs : Sole fetch h k n r e n') : SlotSole fetch h k n e n' slot := by
  induction hch generalizing k with
  | here _ hi he ho =>
    cases k with
    | zero => cases hs
    | succ k => exact ((sole_iff_slotSole hi he ho).mp hs).mono (le_succ k)
  | down _ hi he hb _ ih =>
    cases k with
    | zero => cases hs
    | succ k => exact (ih ((sole_iff_slotSole hi he hb).mp hs)).mono (le_succ k)

theorem Chain.sole (hs : SlotSole fetch h k n e n' slot) : Sole fetch h (k + j) n r e n' := by
  induction hch with
  | here _ hi he ho => exact (sole_iff_slotSole hi he ho).mpr hs
  | down _ hi he hb _ ih => exact .loaded hi he hb ih

/-- The key is not below a chain. -/
theorem Chain.contents (hn : n + d = leafDepth + 1) : contents D h n r key = none := by
  induction hch generalizing n with
  | @here d r sl o _ hi hs ho hb =>
    cases n with
    | zero => rfl
    | succ n => rw [contents_inner hi, show leafDepth - n = d by omega, hb]
  | @down j d r q sl hash _ hi hs hb _ ih =>
    cases n with
    | zero => rfl
    | succ n =>
      rw [contents_inner hi, show leafDepth - n = d by omega, hb]
      exact ih (by omega)

omit hch

/-- No search fails there. -/
theorem Settled.sole_ne (hs : Settled h T r) : ¬ Sole fetch h k n r (.missing hash) n' := by
  intro ho
  induction hs generalizing k with
  | leaf _ hl =>
    cases ho with
    | loaded hn => rw [hn.isInner] at hl; cases hl
    | fetched hn => rw [hn.isInner] at hl; cases hl
    | missing hn => rw [hn.isInner] at hl; cases hl
  | branching _ hn he =>
    cases ho with
    | loaded hi hse => rw [hn.unique hi, hse] at he; exact he rfl
    | fetched hi hse => rw [hn.unique hi, hse] at he; exact he rfl
    | missing hi hse => rw [hn.unique hi, hse] at he; exact he rfl
  | down _ hn he hb _ ih =>
    cases k with
    | zero => cases ho
    | succ k => exact ih ((sole_iff_slotSole hn he hb).mp ho)

/-! ### Branches of a changed node -/

theorem filter_finRange_eq (b : Branch) : (finRange 16).filter (fun b' => b' == b) = [b] := by
  revert b
  decide

/-- A node with no other branch has just the one that is set. -/
theorem setBranches_update_alone (ho : otherBranches sl b = []) : setBranches (update sl b (some x)) = [b] := by
  rw [← filter_finRange_eq b]
  refine filter_congr fun b' _ => ?_
  by_cases hb : b' = b
  · rw [hb, update_self, isSome_some, beq_self_eq_true]
  · rw [update_of_ne hb, beq_false_of_ne hb]
    by_contra hn
    have hm : b' ∈ otherBranches sl b := by
      refine mem_setBranches.mpr ?_
      rw [update_of_ne hb]
      exact isSome_iff_ne_none.mp (Bool.eq_true_of_not_eq_false hn)
    rw [ho] at hm
    cases hm

theorem length_setBranches_update (ho : otherBranches sl b ≠ []) : 2 ≤ (setBranches (update sl b (some x))).length := by
  obtain ⟨o, he⟩ := exists_mem_of_ne_nil _ ho
  have hne : o ≠ b := by
    rintro rfl
    exact mem_setBranches.mp he (update_self ..)
  have hm : o ∈ setBranches (update sl b (some x)) := by
    have := mem_setBranches.mp he
    rw [update_of_ne hne] at this
    rw [mem_setBranches, update_of_ne hne]
    exact this
  have hb : b ∈ setBranches (update sl b (some x)) := by
    rw [mem_setBranches, update_self]
    exact some_ne_none x
  by_contra hn
  have hle : (setBranches (update sl b (some x))).length ≤ 1 := by omega
  match hl : setBranches (update sl b (some x)) with
  | [] => rw [hl] at hb; cases hb
  | [y] =>
    rw [hl] at hb hm
    exact hne ((mem_singleton.mp hm).trans (mem_singleton.mp hb).symm)
  | _ :: _ :: _ => rw [hl] at hle; simp at hle

end

/-! ### One node of the loop -/

/-- The nodes that the loop may have changed or made. -/
def touched (h : Heap) (es : List NodePathEntry) (h' : Heap) : Set Ref := nodesOf es ∪ {q | h.next ≤ q ∧ q < h'.next}

/-- The node of an entry has been given new slots, in place or as a copy, after the nodes below it. -/
structure Rewritten (h : Heap) (c : ℕ) (entry : NodePathEntry) (es : List NodePathEntry)
    (slots' : Branch → Option Slot) (s1 s2 : Memory) (r' : Ref) : Prop where
  tree : s2.tree = s1.tree
  calls : s2.heap.calls = s1.heap.calls
  changes : Changes c (nodesOf (entry :: es)) h s2.heap
  inner : s2.heap.InnerAt r' slots'
  mem : r' ∈ touched h (entry :: es) s2.heap
  same : ∀ q ∈ touched h es s1.heap, s2.heap.node q = s1.heap.node q
  sub : touched h es s1.heap ⊆ touched h (entry :: es) s2.heap
  top : (h.node entry.node).cowid = c → r' = entry.node

variable {collapse : Ref → TreeM (Option Ref)}

section

theorem nodesOf_cons_subset : nodesOf es ⊆ nodesOf (en :: es) := by
  rintro q ⟨e, he, rfl⟩
  exact ⟨e, mem_cons_of_mem _ he, rfl⟩

/-- One turn of the loop, below the root: the node is given its new slot, and what follows is `deleteStep`. -/
theorem wp_deleteLoop_cons {prev : Option Ref} (hw : WellOwned fetch c rank h) (hc : c ≠ 0) (hcow : s1.tree.cowid = c)
    (hr : en.node < h.next) (hin : h.InnerAt en.node sl) (hi : en.nodeId.depth = d) (hd : d < leafDepth)
    (hd0 : d ≠ 0) (hb : sl (key.nibble d) = some ⟨hash, some q⟩) (hes : Trail h key (d + 1) q es r')
    (hch : Changes c (nodesOf es) h s1.heap)
    (hQ : ∀ r' s2, Rewritten h c en es (update sl (key.nibble d) (prev.map fun q => ⟨0, some q⟩)) s1 s2 r' →
      wp (deleteStep collapse r') Q E F s2) : wp (do
      let node ← unshareNode en.node en.nodeId
      let branch ← Prog.lift (selectBranch en.nodeId key)
      onHeap (setChildAt node branch prev) if en.nodeId.isRoot then setRoot node return none
      else deleteStep collapse node) Q E F s1 := by
  have hrt : en.nodeId.isRoot = false := by
    rw [SHAMapNodeId.isRoot, hi]
    exact beq_false_of_ne hd0
  obtain ⟨hl, hx⟩ := hw.loaded hr hin hb
  have ha : en.node ∉ nodesOf es := fun hm => by
    have := (hes.rank_le hw hx hm).1
    omega
  have hsm : s1.heap.node en.node = h.node en.node := hch.same _ hr fun _ => ha
  -- what was touched before is neither this node nor new
  have hto : ∀ q ∈ touched h es s1.heap, q < s1.heap.next ∧ q ≠ en.node := by
    rintro q (hq | ⟨hg, hlt⟩)
    · exact ⟨lt_of_lt_of_le (hes.rank_le hw hx hq).2 hch.next_le, fun heq => ha (heq ▸ hq)⟩
    · exact ⟨hlt, fun heq => Nat.not_le_of_lt hr (heq ▸ hg)⟩
  have hu : ∀ h2 : Heap, s1.heap.next ≤ h2.next → touched h es s1.heap ⊆ touched h (en :: es) h2 := by
    rintro h2 hne q (hq | ⟨hg, hlt⟩)
    · exact .inl (nodesOf_cons_subset hq)
    · exact .inr ⟨hg, lt_of_lt_of_le hlt hne⟩
  have hm : en.node ∈ nodesOf (en :: es) := ⟨en, mem_cons_self, rfl⟩
  obtain ⟨nh, cw, g, hn⟩ := hin
  rw [hn] at hsm
  simp only [wp_bind]
  have hle := hw.le _ hr
  refine wp_unshareNode (n := ⟨nh, c, .inner g sl⟩) hcow (by rw [hsm]; rw [hn] at hle; exact hle)
    (by rw [hsm]; rfl) (fun how => ?_) fun how tree htr hs => ?_
  · -- in place
    rw [hsm] at how
    subst how
    simp only [selectBranch_eq (hi ▸ hd), hi, wp_lift_ok, wp_setChildAt hc hsm, hrt, Bool.false_eq_true, if_false]
    have he : Changes cw (nodesOf (en :: es)) s1.heap (s1.heap.set en.node
        ⟨0, cw, .inner g (update sl (key.nibble d) (prev.map fun q => ⟨0, some q⟩))⟩) :=
      set (fun _ => ⟨by rw [hsm], hm⟩) _
    refine hQ _ _ ⟨rfl, rfl, ?_, ⟨_, _, _, node_set_self ..⟩, .inl hm, ?_, hu _ (le_refl _), fun _ => rfl⟩
    · exact (hch.mono nodesOf_cons_subset).trans he fun q hq _ => hq
    · exact fun q hq => node_set_of_ne (hto q hq).2 _
  · -- as a copy
    obtain rfl := hs hrt
    have hco : (⟨s1.heap.alloc ⟨nh, c, .inner g sl⟩, s1.tree⟩ : Memory).heap.node s1.heap.next =
        ⟨nh, c, .inner g sl⟩ := node_alloc_next ..
    simp only [selectBranch_eq (hi ▸ hd), hi, wp_lift_ok, wp_setChildAt hc hco, hrt, Bool.false_eq_true, if_false]
    have he : Changes c ∅ s1.heap ((s1.heap.alloc ⟨nh, c, .inner g sl⟩).set s1.heap.next
        ⟨0, c, .inner g (update sl (key.nibble d) (prev.map fun q => ⟨0, some q⟩))⟩) := by
      have hp : ∀ n, Changes c {s1.heap.next} (s1.heap.alloc ⟨nh, c, .inner g sl⟩)
          ((s1.heap.alloc ⟨nh, c, .inner g sl⟩).set s1.heap.next n) := fun n =>
        Changes.set (fun _ => ⟨congrArg SHAMapTreeNode.cowid hco, Set.mem_singleton _⟩) n
      refine (alloc c ∅ s1.heap _).trans (hp _) ?_
      rintro q rfl hlt
      exact absurd hlt (lt_irrefl _)
    refine hQ _ _ ⟨rfl, rfl, ?_, ⟨_, _, _, node_set_self ..⟩, .inr ⟨hch.next_le, lt_succ_self _⟩, ?_,
      hu _ (le_succ _), fun ho => ?_⟩
    · exact (hch.mono nodesOf_cons_subset).trans he fun q hq _ => absurd hq (Set.notMem_empty q)
    · exact fun q hq => he.same q (hto q hq).1 fun _ => Set.notMem_empty q
    · rw [hn] at ho
      rw [hsm] at how
      exact absurd ho how

/-- What is left to do for a node with one branch, when the search from it ends so. -/
def SoleEnd.Leaves (e : SoleEnd) (n' : ℕ) (s : Memory) (r : Ref) (Q : Option Ref → Memory → Prop)
    (E : MutationError → Memory → Prop) : Prop :=
  match e with
  | .leaf _ => ∀ leaf : SHAMapTreeNode, leaf.isInner = false →
      Q (some s.heap.next) ⟨({ s.heap with calls := n' } : Heap).alloc leaf, s.tree⟩
  | .branching => Q (some r) ⟨{ s.heap with calls := n' }, s.tree⟩
  | .missing hash => E (.traversal (.missingNode hash)) ⟨{ s.heap with calls := n' }, s.tree⟩

/-- What `deleteStep` does with a node, by its number of branches. -/
theorem wp_deleteStep_fetch (hi : s.heap.InnerAt r sl)
    (hn : setBranches sl = [] → Q none s) (ho : (setBranches sl).length = 1 → wp (collapse r) Q E F s)
    (hm : 2 ≤ (setBranches sl).length → Q (some r) s) : wp (deleteStep collapse r) Q E F s := by
  simp only [deleteStep, wp_bind, wp_onHeap_deref, branchCount_eq hi]
  rcases hs : setBranches sl with _ | ⟨b, _ | _⟩
  · exact hn hs
  · exact ho (by rw [hs]; rfl)
  · exact hm (by rw [hs]; simp)

/-- The same for a node that has been given a child. -/
theorem wp_deleteStep_filled (hi : s.heap.InnerAt r (update sl b (some slot)))
    (hon : otherBranches sl b = [] → wp (collapse r) Q E F s)
    (hm : 2 ≤ (setBranches (update sl b (some slot))).length → Q (some r) s) :
    wp (deleteStep collapse r) Q E F s := by
  by_cases ho : otherBranches sl b = []
  · have hs := setBranches_update_alone (x := slot) ho
    refine wp_deleteStep_fetch hi (fun hn => ?_) (fun _ => hon ho) hm
    rw [hs] at hn
    cases hn
  · have he := length_setBranches_update (x := slot) ho
    refine wp_deleteStep_fetch hi (fun hn => ?_) (fun hl => ?_) hm
    · rw [hn] at he
      cases he
    · omega

/-- **Whatever happens to a node with one branch**, the search says why. -/
theorem wp_collapse_sound (hr : ∀ e n', Sole fetch s.heap turns s.heap.calls r e n' → e.Leaves n' s r Q E) :
    wp (collapseWithFetch sha fetch turns r) Q E ⊤ s := by
  simp only [collapseWithFetch, wp_bind, wp_onHeap]
  refine wp_onlyBelow_sound fun e n' hs => ?_
  have hl := hr e n' hs
  cases e with
  | branching => exact hl
  | missing hash => exact hl
  | leaf q =>
    show wp _ _ _ _ _
    simp only [wp_bind, wp_onHeap_deref]
    rw [wp_lift]
    refine ⟨?_, fun _ _ => trivial⟩
    rintro ⟨type, it⟩ -
    simp only [newLeafNode, wp_bind, wp_read]
    rw [wp_lift]
    refine ⟨fun leaf hlf => ?_, fun _ _ => trivial⟩
    refine hl leaf ?_
    simp only [newLeaf, newLeafWithHash] at hlf
    split at hlf
    · cases hlf
      rfl
    · cases hlf

/-- When the search does not end at a leaf, it decides what happens to the node. -/
theorem wp_collapse_complete {e : SoleEnd} (hs : Sole fetch s.heap k s.heap.calls r e n') (he : ∀ q, e ≠ .leaf q)
    (hr : e.Leaves n' s r Q E) : wp (collapseWithFetch sha fetch k r) Q E F s := by
  simp only [collapseWithFetch, wp_bind, wp_onHeap]
  refine wp_onlyBelow_complete hs rfl ?_
  cases e with
  | branching => exact hr
  | missing hash => exact hr
  | leaf q => exact absurd rfl (he q)

end

/-! ### The loop -/

section

variable (fetch : Fetch) (h : Heap) (k : ℕ) (key : Uint256) (c : ℕ) (tree : MutableTree) (d : ℕ)
  (es : List NodePathEntry) (prev : Option Ref) (s : Memory)

/-- The nodes from one on down to the leaf make the loop fail at that one. -/
def FailsAt : Prop :=
  ∃ mid fork below slot n1 hash n2, es = mid ++ fork :: below ∧ OneAside h key mid fork below slot ∧
    Repeats fetch h k slot mid.length h.calls n1 ∧ SlotSole fetch h k n1 (.missing hash) n2 slot

/-- What the loop has made of the nodes from one on down: nothing is left of them; or what is left settles all searches;
or it leads to the other branch of one of them, below which no search has failed so far. -/
def LoopLeft (h' : Heap) : Prop :=
  (prev = none ∧ h'.calls = h.calls ∧ ∀ e ∈ es, Alone h key e) ∨
  (∃ x, prev = some x ∧ Settled h' (touched h es h') x) ∨
  ∃ x mid fork below slot j, prev = some x ∧ es = mid ++ fork :: below ∧ OneAside h key mid fork below slot ∧
    Repeats fetch h k slot (mid.length + 1) h.calls h'.calls ∧ Chain h' (touched h es h') key slot j d x

/-- How the loop returns: the nodes from one on down have been changed to that. -/
def LoopDone : Prop :=
  s.tree = tree ∧ Changes c (nodesOf es) h s.heap ∧ LoopLeft fetch h k key d es prev s.heap

/-- How the loop fails: it fails at one of the nodes, and those from there on down have been changed. -/
def LoopFailed : Prop :=
  s.tree = tree ∧ ∃ pre es', es = pre ++ es' ∧ Changes c (nodesOf es') h s.heap ∧ FailsAt fetch h k key es'

end

section

variable {tree : MutableTree} {x : Ref}

/-- A node whose other branches are gone but for one leads there. -/
theorem Rewritten.chain_here (hr : Rewritten h c en es (update sl (key.nibble d) none) s1 s2 x)
    (ho : otherBranches sl (key.nibble d) = [o]) (hs : sl o = some slot) :
    Chain s2.heap (touched h (en :: es) s2.heap) key slot 1 d x :=
  .here hr.mem hr.inner ho (by rw [update_of_ne (ne_of_otherBranches ho), hs]) (update_self ..)

/-- A node with no other branch goes before a chain. -/
theorem Rewritten.chain_down (hr : Rewritten h c en es (update sl (key.nibble d) (some ⟨0, some q⟩)) s1 s2 x)
    (ho : otherBranches sl (key.nibble d) = []) (hch : Chain s1.heap (touched h es s1.heap) key slot j (d + 1) q) :
    Chain s2.heap (touched h (en :: es) s2.heap) key slot (j + 1) d x :=
  .down hr.mem hr.inner (setBranches_update_alone ho) (update_self ..) (hch.frame hr.sub hr.same)

/-- The slot of the one other branch. -/
theorem slot_of_otherBranches (ho : otherBranches sl b = [o]) : ∃ slot, sl o = some slot := by
  have hm : o ∈ otherBranches sl b := by rw [ho]; exact mem_singleton_self o
  have hn := mem_setBranches.mp hm
  rw [update_of_ne (ne_of_otherBranches ho)] at hn
  exact ne_none_iff_exists'.mp hn

/-- A leaf in the place of a node settles all searches. -/
theorem LoopDone.leaf {leaf : SHAMapTreeNode} (hr : s2.tree = tree) (hch : Changes c (nodesOf es) h s2.heap)
    (hl : leaf.isInner = false) : LoopDone fetch h turns key c tree d es (some s2.heap.next)
      ⟨({ s2.heap with calls := n } : Heap).alloc leaf, s2.tree⟩ := by
  refine ⟨hr, ?_, .inr (.inl ⟨_, rfl, .leaf (.inr ⟨hch.next_le, lt_succ_self _⟩) ?_⟩)⟩
  · exact (hch.calls n).trans (alloc c ∅ _ leaf) fun q hq _ => absurd hq (Set.notMem_empty q)
  · exact (congrArg isInner (update_self ..)).trans hl

/-- A node that leads aside: the search there decides. -/
theorem wp_collapse_chain (hw : WellOwned fetch c rank h) (hc : c ≠ 0) (hr : r < h.next) (ht : Trail h key d r es r')
    (hes : es = mid ++ fork :: below) (ha : OneAside h key mid fork below slot) (htr : s2.tree = tree)
    (hch : Changes c (nodesOf es) h s2.heap) (hn : Chain s2.heap (touched h es s2.heap) key slot j d x)
    (he : Repeats fetch h turns slot mid.length h.calls s2.heap.calls) :
    wp (collapseWithFetch sha fetch turns x) (LoopDone fetch h turns key c tree d es)
      (fun _ => LoopFailed fetch h turns key c tree es) ⊤ s2 := by
  refine wp_collapse_sound fun e n' hs => ?_
  have hl : SlotSole fetch h turns s2.heap.calls e n' slot := by
    subst hes
    exact (ha.slotSole_iff hw hc hr ht hch).mp (hn.slotSole hs)
  cases e with
  | leaf q => exact fun leaf hlf => .leaf htr hch hlf
  | branching =>
    refine ⟨htr, hch.calls n', .inr (.inr ⟨x, mid, fork, below, slot, j, rfl, hes, ha, ⟨_, he, hl⟩, ?_⟩)⟩
    exact hn.frame (Set.Subset.refl _) fun _ _ => rfl
  | missing hash =>
    exact ⟨htr, [], es, rfl, hch.calls n', mid, fork, below, slot, _, hash, n', hes, ha, he, hl⟩

/-- A node that leads to settled ones is settled, or becomes a leaf. -/
theorem wp_collapse_settled (hr : s2.tree = tree) (hch : Changes c (nodesOf es) h s2.heap)
    (he : Settled s2.heap (touched h es s2.heap) x) :
    wp (collapseWithFetch sha fetch turns x) (LoopDone fetch h turns key c tree d es) E ⊤ s2 := by
  refine wp_collapse_sound fun e n' hs => ?_
  cases e with
  | leaf q => exact fun leaf hl => .leaf hr hch hl
  | branching =>
    exact ⟨hr, hch.calls n', .inr (.inl ⟨x, rfl, he.frame (Set.Subset.refl _) fun _ _ => rfl⟩)⟩
  | missing hash => exact absurd hs he.sole_ne

/-- **What the loop does below the root**, whatever the callback answers. -/
theorem wp_deleteLoop_sound (hw : WellOwned fetch c rank s.heap) (hc : c ≠ 0) (hco : s.tree.cowid = c)
    (hr : r < s.heap.next) (ht : Trail s.heap key d r es r') (hd : d ≠ 0) :
    wp (deleteLoop (collapseWithFetch sha fetch turns) key es) (LoopDone fetch s.heap turns key c s.tree d es)
      (fun _ => LoopFailed fetch s.heap turns key c s.tree es) ⊤ s := by
  generalize hh : s.heap = h at hw hr ht
  induction ht with
  | nil => exact ⟨rfl, hh ▸ refl _ _ _, .inl ⟨rfl, by rw [hh], fun e he => by cases he⟩⟩
  | @cons d r q r' en sl hash es hnd hid hlt hi hb hes ih =>
    obtain ⟨-, hq⟩ := hw.loaded hr hi hb
    subst hnd
    have ht : Trail h key d en.node (en :: es) r' := .cons rfl hid hlt hi hb hes
    rw [deleteLoop, wp_bind]
    refine wp_mono (ih (succ_ne_zero d) hq) ?_ ?_ fun _ h => h
    · rintro prev s1 ⟨htree1, hch1, hl⟩
      refine wp_deleteLoop_cons hw hc (by rw [htree1]; exact hco) hr hi hid hlt hd hb hes hch1 fun x s2 hre => ?_
      have htree2 : s2.tree = s.tree := hre.tree.trans htree1
      have hm : ∀ {sl' : Slots}, s2.heap.InnerAt x sl' → 2 ≤ (setBranches sl').length →
          LoopDone fetch h turns key c s.tree d (en :: es) (some x) s2 := fun hx hn =>
        ⟨htree2, hre.changes, .inr (.inl ⟨x, rfl, .branching hre.mem hx (by omega)⟩)⟩
      rcases hl with ⟨rfl, hca, hal⟩ | ⟨y, rfl, hs⟩ | ⟨y, mid, fork, below, slot, j, rfl, rfl, ha, hp, hcn⟩
      · -- nothing is left below: the node loses its branch
        refine wp_deleteStep_fetch hre.inner (fun hset => ?_) (fun hset => ?_) (hm hre.inner)
        · refine ⟨htree2, hre.changes, .inl ⟨rfl, hre.calls.trans hca, fun e he => ?_⟩⟩
          rcases mem_cons.mp he with rfl | he
          · exact ⟨sl, hi, hid ▸ hset⟩
          · exact hal e he
        · obtain ⟨o, ho⟩ := length_eq_one_iff.mp hset
          obtain ⟨slot, hsl⟩ := slot_of_otherBranches ho
          have ha : OneAside h key [] en es slot :=
            ⟨fun e he => (by cases he), hal, sl, o, hi, hid ▸ ho, hsl⟩
          exact wp_collapse_chain hw hc hr ht rfl ha htree2 hre.changes (hre.chain_here ho hsl) (hre.calls.trans hca)
      · -- what is left below settles all searches
        refine wp_deleteStep_filled hre.inner (fun ho => ?_) (hm hre.inner)
        have hse := hs.frame hre.sub hre.same
        exact wp_collapse_settled htree2 hre.changes (.down hre.mem hre.inner (setBranches_update_alone ho)
          (update_self ..) hse)
      · -- what is left below leads aside
        refine wp_deleteStep_filled hre.inner (fun ho => ?_) (hm hre.inner)
        have ha' : OneAside h key (en :: mid) fork below slot := by
          refine ⟨fun e he => ?_, ha.below, ha.fork⟩
          rcases mem_cons.mp he with rfl | he
          · exact ⟨sl, hi, hid ▸ ho⟩
          · exact ha.mid e he
        exact wp_collapse_chain hw hc hr ht rfl ha' htree2 hre.changes (hre.chain_down ho hcn)
          (by rw [hre.calls]; exact hp)
    · rintro e s' ⟨htr, pre, es', rfl, hch, hfa⟩
      exact ⟨htr, en :: pre, es', rfl, hch, hfa⟩

/-- Of nodes with no other branch nothing is left. -/
theorem wp_deleteLoop_alone (hw : WellOwned fetch c rank s.heap) (hc : c ≠ 0)
    (hco : s.tree.cowid = c) (hr : r < s.heap.next) (ht : Trail s.heap key d r es r') (hd : d ≠ 0)
    (ha : ∀ e ∈ es, Alone s.heap key e) : wp (deleteLoop collapse key es)
      (fun prev s' => prev = none ∧ s'.tree = s.tree ∧ s'.heap.calls = s.heap.calls ∧
        Changes c (nodesOf es) s.heap s'.heap) E F s := by
  generalize hh : s.heap = h at hw hr ht ha
  induction ht with
  | nil => exact ⟨rfl, rfl, by rw [hh], hh ▸ refl _ _ _⟩
  | @cons d r q r' en sl hash es hnd hid hl hin hb hes ih =>
    obtain ⟨-, hq⟩ := hw.loaded hr hin hb
    subst hnd
    obtain ⟨sl', hi, ho⟩ := ha en mem_cons_self
    obtain rfl := hin.unique hi
    rw [hid] at ho
    rw [deleteLoop, wp_bind]
    refine wp_imp (ih (succ_ne_zero d) hq fun e he => ha e (mem_cons_of_mem _ he)) ?_
    rintro prev s1 ⟨rfl, htr, hca, hch1⟩
    refine wp_deleteLoop_cons hw hc (by rw [htr]; exact hco) hr hin hid hl hd hb hes hch1 fun x s2 hre => ?_
    have hs : setBranches (update sl (key.nibble d) none) = [] := ho
    refine wp_deleteStep_fetch hre.inner (fun _ => ?_) (fun hn => ?_) fun hm => ?_
    · exact ⟨rfl, hre.tree.trans htr, hre.calls.trans hca, hre.changes⟩
    · rw [map_none, hs] at hn
      cases hn
    · rw [map_none, hs] at hm
      cases hm

/-- What is left to do when the search from a node that leads aside has ended. -/
def SoleEnd.After (e : SoleEnd) (s' : Memory) (x : Ref) (Q : Option Ref → Memory → Prop)
    (E : MutationError → Memory → Prop) : Prop :=
  match e with
  | .leaf _ => True
  | .branching => Q (some x) s'
  | .missing hash => E (.traversal (.missingNode hash)) s'

/-- Once the node of the first entry leads aside, the search from it is made. -/
theorem wp_collapse_aside {e : SoleEnd} (hw : WellOwned fetch c rank h) (hc : c ≠ 0) (hr : r < h.next)
    (ht : Trail h key d r (mid ++ fork :: below) r') (ha : OneAside h key mid fork below slot)
    (hs : SlotSole fetch h k n1 e n2 slot) (he : ∀ q, e ≠ .leaf q) (hu : k + j ≤ turns)
    (hch : Changes c (nodesOf (mid ++ fork :: below)) h s2.heap)
    (hn : Chain s2.heap (touched h (mid ++ fork :: below) s2.heap) key slot j d x) (hca : s2.heap.calls = n1)
    (hp : ∀ s', s'.tree = s2.tree → Changes c (nodesOf (mid ++ fork :: below)) h s'.heap →
      Chain s'.heap (touched h (mid ++ fork :: below) s'.heap) key slot j d x → s'.heap.calls = n2 → e.After s' x Q E) :
    wp (collapseWithFetch sha fetch turns x) Q E F s2 := by
  have hl : SlotSole fetch s2.heap k n1 e n2 slot := (ha.slotSole_iff hw hc hr ht hch).mpr hs
  subst hca
  refine wp_collapse_complete ((hn.sole hl).mono hu) he ?_
  have haf := hp ⟨{ s2.heap with calls := n2 }, s2.tree⟩ rfl (hch.calls n2)
    (hn.frame (Set.Subset.refl _) fun _ _ => rfl) rfl
  cases e with
  | leaf q => exact absurd rfl (he q)
  | branching => exact haf
  | missing hash => exact haf

/-- **Nodes with one way aside**: how the search there ends decides what the loop returns, or that it fails. -/
theorem wp_deleteLoop_aside {e : SoleEnd} (hw : WellOwned fetch c rank s.heap) (hc : c ≠ 0) (hco : s.tree.cowid = c)
    (hr : r < s.heap.next) (ht : Trail s.heap key d r (mid ++ fork :: below) r') (hd : d ≠ 0)
    (ha : OneAside s.heap key mid fork below slot) (hp : Repeats fetch s.heap k slot mid.length s.heap.calls n1)
    (hs : SlotSole fetch s.heap k n1 e n2 slot) (he : ∀ q, e ≠ .leaf q) (hu : k + (mid.length + 1) ≤ turns)
    (hpo : ∀ x s', s'.tree = s.tree → Changes c (nodesOf (mid ++ fork :: below)) s.heap s'.heap →
      Chain s'.heap (touched s.heap (mid ++ fork :: below) s'.heap) key slot (mid.length + 1) d x →
      ((s.heap.node r).cowid = c → x = r) → s'.heap.calls = n2 → e.After s' x Q E) :
    wp (deleteLoop (collapseWithFetch sha fetch turns) key (mid ++ fork :: below)) Q E F s := by
  induction mid generalizing d r n1 n2 e Q E F with
  | nil =>
    obtain ⟨sl', o, hi, ho, hsl⟩ := ha.fork
    have ht' := ht
    cases ht' with
    | @cons _ _ q _ _ sl hash _ hnd hid hlt hin hb hes =>
      subst hnd
      obtain rfl := hin.unique hi
      obtain ⟨-, hq⟩ := hw.loaded hr hin hb
      rw [hid] at ho
      show wp (deleteLoop _ key (fork :: below)) Q E F s
      rw [deleteLoop, wp_bind]
      refine wp_total (wp_deleteLoop_alone (E := ⊥) (F := ⊥) hw hc hco hq hes (succ_ne_zero d) ha.below) ?_
      rintro prev s1 ⟨rfl, htree1, hca, hh⟩
      refine wp_deleteLoop_cons hw hc (by rw [htree1]; exact hco) hr hin hid hlt hd hb hes hh fun x s2 hre => ?_
      have hse : setBranches (update sl (key.nibble d) none) = [o] := ho
      refine wp_deleteStep_fetch hre.inner (fun hn => ?_) (fun _ => ?_) fun hm => ?_
      · rw [map_none, hse] at hn
        cases hn
      · refine wp_collapse_aside hw hc hr ht ha hs he hu hre.changes (hre.chain_here ho hsl) ?_ ?_
        · exact hre.calls.trans (hca.trans hp.symm)
        · exact fun s' htr hch hcn hca' => hpo x s' (htr.trans (hre.tree.trans htree1)) hch hcn hre.top hca'
      · rw [map_none, hse] at hm
        cases le_of_succ_le_succ hm
  | cons en mid ih =>
    obtain ⟨sl', hi, ho⟩ := ha.mid en mem_cons_self
    have ha' : OneAside s.heap key mid fork below slot :=
      ⟨fun e he => ha.mid e (mem_cons_of_mem _ he), ha.below, ha.fork⟩
    obtain ⟨n0, hrep0, hs0⟩ := hp
    have ht' := ht
    cases ht' with
    | @cons _ _ q _ _ sl hash _ hnd hid hlt hin hb hes =>
      subst hnd
      obtain rfl := hin.unique hi
      obtain ⟨-, hq⟩ := hw.loaded hr hin hb
      rw [hid] at ho
      show wp (deleteLoop _ key (en :: (mid ++ fork :: below))) Q E F s
      rw [deleteLoop, wp_bind]
      refine ih (e := .branching) hq hes (succ_ne_zero d) ha' hrep0 hs0 fun _ h => by cases h
        (by rw [length_cons] at hu; omega) fun y s1 htree1 hh hchain1 _ hl => ?_
      refine wp_deleteLoop_cons hw hc (by rw [htree1]; exact hco) hr hin hid hlt hd hb hes hh fun x s2 hre => ?_
      refine wp_deleteStep_filled hre.inner (fun _ => ?_) fun hm => ?_
      · refine wp_collapse_aside hw hc hr ht ha hs he hu hre.changes (hre.chain_down ho hchain1) (hre.calls.trans hl) ?_
        exact fun s' htr hch hcn hca' => hpo x s' (htr.trans (hre.tree.trans htree1)) hch hcn hre.top hca'
      · rw [setBranches_update_alone ho] at hm
        cases le_of_succ_le_succ hm

end

/-! ### The call -/

/-- **A delete that fails halfway.** The walk finds the leaf of the key; on the path to it, at a node other than the
root, the loop fails; and the tree owns a node there or below. -/
def FailsMidway (fetch : Fetch) (s : Memory) (key : Uint256) : Prop :=
  ∃ leaf path s1 item, walkTree key true fetch s = .ok (.ok (some leaf, path), s1) ∧
    (s1.heap.node leaf).peekItem = some item ∧ item.key = key ∧
    ∃ above es k, path.dropLast = above ++ es ∧ above ≠ [] ∧ FailsAt fetch s1.heap k key es ∧
      ∃ e ∈ es, (s1.heap.node e.node).cowid = s.tree.cowid

section

/-- The items of a key along its path. -/
theorem Trail.contents (ht : Trail h key d r es r') (hs : ∀ q ∈ nodesOf es, h'.node q = h.node q)
    (hn : n + d = leafDepth + 1) : contents D h' n r key = contents D h' (n - es.length) r' key := by
  induction ht generalizing n with
  | nil => rfl
  | @cons d r q r' en sl hash es hd hid hl hin hb he ih =>
    have hi : h'.InnerAt r sl := InnerAt.congr (hs r ⟨en, mem_cons_self, hd⟩) hin
    obtain ⟨n, rfl⟩ := Nat.exists_eq_add_of_le' (show 1 ≤ n by omega)
    rw [contents_inner hi, show leafDepth - n = d by omega, hb, List.length_cons, Nat.add_sub_add_right]
    exact ih (fun q hq => hs q (nodesOf_cons_subset hq)) (by omega)

theorem contents_of_peekItem {it : SHAMapItem} (hi : (h.node r).peekItem = some it) (hn : n ≠ 0) :
    contents D h n r it.key = some it := by
  obtain ⟨n, rfl⟩ := exists_eq_succ_of_ne_zero hn
  rw [Xrpld.SHAMap.contents]
  cases hb : (h.node r).body with
  | inner g sl => rw [peekItem, hb] at hi; cases hi
  | leaf type item' =>
    rw [peekItem, hb] at hi
    cases hi
    exact if_pos rfl

/-- Errors come from below. -/
theorem wp_deleteLoop_append (above : List NodePathEntry) (he : wp (deleteLoop collapse key es) ⊥ E F s) :
    wp (deleteLoop collapse key (above ++ es)) ⊥ E F s := by
  induction above with
  | nil => exact he
  | cons en above ih =>
    show wp (deleteLoop collapse key (en :: (above ++ es))) _ _ _ _
    rw [deleteLoop, wp_bind]
    exact wp_imp ih (fun _ _ h => h.elim)

section

variable (hc : s.tree.cowid ≠ 0) (hw : WellOwned fetch s.tree.cowid rank s.heap) (hf : FetchSound D fetch s.heap)
  (hrt : s.tree.root < s.heap.next)

include hc hw hf hrt

/-- **A failed `delete_item_with_fetch`** leaves the map as it was, unless it fails halfway. -/
theorem keeps_deleteItemWithFetch (hn : ¬ FailsMidway fetch s key) (turns : ℕ) :
    Keeps sha D s (deleteItemWithFetch sha turns key fetch) := by
  refine keeps_of_walk hc hw hf hrt ?_
  rintro ⟨terminal, path⟩ s1 hu htr hs hp hsm
  cases terminal with
  | none => exact trivial
  | some leaf =>
    simp only [wp_bind, wp_onHeap_deref]
    cases him : (s1.heap.node leaf).peekItem with
    | none => exact trivial
    | some it =>
      simp only [wp_ite]
      refine ⟨fun _ => trivial, fun hk => ?_⟩
      rw [not_not] at hk
      obtain ⟨hl, -⟩ := hp.trail
      obtain ⟨-, hw1, -, hr⟩ := SameMap.of_fetches sha hc hw hf hrt hs
      rw [wp_bind]
      cases hd : path.dropLast with
      | nil => exact trivial
      | cons en es =>
        rw [hd] at hl
        cases hl with
        | cons hnd hid hlt hi hb hes =>
          rw [deleteLoop, wp_bind]
          refine wp_mono (wp_deleteLoop_sound hw1 hc (by rw [htr]) (hw1.loaded hr hi hb).2 hes
            (succ_ne_zero 0)) ?_ ?_ fun _ h => h
          · -- at the root nothing fails any more
            rintro prev s2 -
            have hisRoot : en.nodeId.isRoot := by
              rw [SHAMapNodeId.isRoot, hid]
              rfl
            simp only [hisRoot, if_true]
            exact Prog.NeverFails.wp (.bind (neverFails_unshareNode _ _) fun _ => .bind (.lift _) fun _ =>
              .bind (neverFails_setChildAt _ _ _) fun _ => .bind (neverFails_setRoot _) fun _ => .pure _)
          · rintro e s2 ⟨htree2, pre, es', rfl, hch, ha⟩
            by_cases ho : ∃ e ∈ es', (s1.heap.node e.node).cowid = s.tree.cowid
            · exact absurd ⟨leaf, path, s1, it, hu, him, hk, en :: pre, es', turns, hd, cons_ne_nil _ _, ha, ho⟩ hn
            · refine hsm.trans (SameMap.of_frame hw1 (by rw [htr]; exact hr) htree2 fun q hq => ?_)
              refine hch.same q hq fun hco hm => ho ?_
              obtain ⟨e, he, rfl⟩ := hm
              exact ⟨e, he, hco⟩

/-- A call that fails halfway loses the key. -/
theorem loses_key_of_failsMidway (hm : FailsMidway fetch s key) :
    ∃ turns, ¬ Keeps sha D s (deleteItemWithFetch sha turns key fetch) := by
  obtain ⟨leaf, path, s1, it, hu, hi, he, above, es, k, hdr, hab, hfa, e0, he0, ho⟩ := hm
  obtain ⟨mid, fork, below, slot, n1, hash, n2, rfl, ha, hp, hsl⟩ := hfa
  obtain ⟨htr, hs, hpt⟩ := post_of_run (wp_walkTree_fetch key) hu
  obtain ⟨hsm, hw1, -, hr⟩ := SameMap.of_fetches sha hc hw hf hrt hs
  obtain ⟨htl, -⟩ := hpt.trail
  rw [hdr, show SHAMapNodeId.root.depth = 0 from rfl] at htl
  obtain ⟨m, hup, hd⟩ := Trail.append_iff.mp htl
  obtain ⟨hm, hrk⟩ := hup.rank_end hw1 hr
  rw [Nat.zero_add] at hd
  have hmo := hd.owned_head hw1 hm he0 ho
  refine ⟨k + (mid.length + 1), fun hk => ?_⟩
  -- the call fails, and the node that the path enters there leads aside by then
  have hl : wp (deleteItemWithFetch sha (k + (mid.length + 1)) key fetch) ⊥
      (fun _ s' => s'.tree = s.tree ∧ Changes s.tree.cowid (nodesOf (mid ++ fork :: below)) s1.heap s'.heap ∧
        ∃ T, Chain s'.heap T key slot (mid.length + 1) above.length m) ⊥ s := by
    rw [deleteItemWithFetch, deleteItemWalk, wp_bind]
    refine wp_of_run hu ?_
    simp only [wp_bind, wp_onHeap_deref, hi, he, ne_eq, not_true_eq_false, if_false, hdr]
    refine wp_imp (wp_deleteLoop_append above (wp_deleteLoop_aside hw1 hc (by rw [htr]) hm hd
      (by simpa using hab) ha hp hsl (fun _ h => by cases h) (Nat.le_refl _) ?_)) (fun _ _ h => h)
    intro x s' htr' hch hn hx _
    obtain rfl := hx hmo
    exact ⟨htr'.trans htr, hch, _, hn⟩
  obtain ⟨e, s', hru, htr', hch, T, hn⟩ := Prog.fails_of_wp hl
  have hlo : contents D s'.heap (leafDepth + 1) s.tree.root key = none := by
    have hle := hup.depth_le (Nat.zero_le _)
    rw [hup.contents (fun q hq => ?_) (Nat.add_zero _)]
    · exact hn.contents (by omega)
    · refine hch.same q (hup.rank_le hw1 hr hq).2 fun _ hme => ?_
      exact absurd (hrk q hq) (Nat.not_lt_of_le (hd.rank_le hw1 hm hme).1)
  have hfo : contents D s1.heap (leafDepth + 1) s.tree.root key = some it := by
    have hle := htl.depth_le (Nat.zero_le _)
    rw [htl.contents (fun _ _ => rfl) (Nat.add_zero _), ← he]
    exact contents_of_peekItem hi (by omega)
  have hkp := (hk e s' hru).contents key
  rw [htr', hlo] at hkp
  have hb := hsm.contents key
  rw [hfo] at hb
  rw [← hkp] at hb
  cases hb

/-- **Failed calls.** A call to add or to update that returns an error leaves the map as it was. So does a call to delete,
whatever it returns an error for, just if it does not fail halfway. -/
theorem failed_calls_keep_map (type : LeafType) (item : SHAMapItem) (key : Uint256) :
    Keeps sha D s (addItemWithFetch sha type item fetch) ∧ Keeps sha D s (updateItemWithFetch sha type item fetch) ∧
      ((∀ turns, Keeps sha D s (deleteItemWithFetch sha turns key fetch)) ↔ ¬ FailsMidway fetch s key) := by
  refine ⟨keeps_addItemWithFetch hc hw hf hrt type item, keeps_updateItemWithFetch hc hw hf hrt type item, ?_⟩
  constructor
  · intro hk hm
    obtain ⟨turns, hl⟩ := loses_key_of_failsMidway hc hw hf hrt hm
    exact hl (hk turns)
  · exact fun hn turns => keeps_deleteItemWithFetch hc hw hf hrt hn turns

end

end

/-! ### A small tree -/

/-- The root has a child with two children, and the tree owns them all: one is the leaf of the zero key, the other is known
by its hash. -/
def forkedMemory : Memory where
  heap :=
    { next := 3
      node := fun r =>
        match r with
        | 0 => ⟨0, 1, .inner 0 fun b => if b = 0 then some ⟨0, some 1⟩ else none⟩
        | 1 => ⟨0, 1, .inner 0 fun b =>
            if b = 0 then some ⟨0, some 2⟩ else if b = 1 then some ⟨sampleMap.leafHash, none⟩ else none⟩
        | _ => ⟨zeroKeyMap.leafHash, 1, .leaf .accountState zeroKeyMap.item⟩
      calls := 0 }
  tree := ⟨0, 1⟩

/-- What is stored under the hash. -/
def forkedStored : Stored := fun hash _ key =>
  if hash = sampleMap.leafHash ∧ key = sampleMap.item.key then some sampleMap.item else none

/-- A child of the small tree is the node after its parent, at the first branch. -/
theorem forkedMemory_slot (hr : r < 3) (hi : forkedMemory.heap.InnerAt r sl) (hb : sl b = some ⟨hash, some q⟩) : q = r + 1 ∧ r < 2 ∧ b = 0 := by
  obtain ⟨nh, cw, g, hn⟩ := hi
  match r, hr with
  | 0, _ =>
    cases hn
    dsimp only at hb
    by_cases hb0 : b = 0
    · rw [if_pos hb0] at hb
      cases hb
      exact ⟨rfl, by decide, hb0⟩
    · rw [if_neg hb0] at hb
      cases hb
  | 1, _ =>
    cases hn
    dsimp only at hb
    by_cases hb0 : b = 0
    · rw [if_pos hb0] at hb
      cases hb
      exact ⟨rfl, by decide, hb0⟩
    · rw [if_neg hb0] at hb
      split at hb <;> cases hb
  | 2, _ => cases hn

theorem forkedMemory_wellOwned : WellOwned noFetch 1 (fun r => 3 - r) forkedMemory.heap := by
  have ho : ∀ r, (forkedMemory.heap.node r).cowid = 1
    | 0 => rfl
    | 1 => rfl
    | _ + 2 => rfl
  refine ⟨fun r _ => le_of_eq (ho r), ?_, ?_, ?_, ?_⟩
  · intro r q sl b hash hr hn hb
    obtain ⟨rfl, hl, -⟩ := forkedMemory_slot hr hn hb
    exact ⟨Nat.sub_lt_sub_left hr (Nat.lt_succ_self r), Nat.succ_lt_succ hl⟩
  · intro r f sl b hash n _ _ _ hf
    cases hf
  · exact fun _ _ _ _ => ho _
  · intro r r' q sl sl' b b' hash hash' hr hr' hn hi hb hb' _
    obtain ⟨rfl, -, rfl⟩ := forkedMemory_slot hr hn hb
    obtain ⟨he, -, rfl⟩ := forkedMemory_slot hr' hi hb'
    exact ⟨succ.inj he, rfl⟩

/-- What this says of the small tree, for the key at the other branch. -/
theorem failed_calls_keep_map_forked : Keeps sampleMap.sha512Half forkedStored forkedMemory
        (addItemWithFetch sampleMap.sha512Half .accountState sampleMap.item noFetch) ∧
      Keeps sampleMap.sha512Half forkedStored forkedMemory
        (updateItemWithFetch sampleMap.sha512Half .accountState sampleMap.item noFetch) ∧
      ((∀ turns, Keeps sampleMap.sha512Half forkedStored forkedMemory
        (deleteItemWithFetch sampleMap.sha512Half turns sampleMap.item.key noFetch)) ↔
        ¬ FailsMidway noFetch forkedMemory sampleMap.item.key) :=
  failed_calls_keep_map Nat.one_ne_zero forkedMemory_wellOwned (fun _ _ _ hf => by cases hf) (by decide) _ _ _

/-- Deleting the leaf of the zero key fails, as the node at the other branch is not found, and loses the leaf. -/
theorem deleteItemWithFetch_loses_key :
    ¬ ∀ (sha : List UInt8 → Uint256) (D : Stored) (fetch : Fetch) (rank : Ref → ℕ) (s : Memory) (key : Uint256)
      (turns : ℕ), s.tree.cowid ≠ 0 → WellOwned fetch s.tree.cowid rank s.heap → FetchSound D fetch s.heap →
      s.tree.root < s.heap.next → Keeps sha D s (deleteItemWithFetch sha turns key fetch) := by
  intro hm
  have hk := hm sampleMap.sha512Half forkedStored noFetch (fun r => 3 - r) forkedMemory 0 65 one_ne_zero
    forkedMemory_wellOwned (fun _ _ _ hf => by cases hf) (by decide)
  have hr : ∃ s', deleteItemWithFetch sampleMap.sha512Half 65 0 noFetch forkedMemory =
      .ok (.error (.traversal (.missingNode sampleMap.leafHash)), s') ∧
      contents forkedStored s'.heap (leafDepth + 1) s'.tree.root 0 = none := ⟨_, rfl, rfl⟩
  obtain ⟨s', hr, hl⟩ := hr
  have hp := (hk _ s' hr).contents 0
  rw [hl] at hp
  cases hp

end Xrpld.SHAMap
