import Xrpld.SHAMap.Reading
import Xrpld.SHAMap.Mutation

/-!
# What a tree owns

A tree changes the nodes it owns in place. That is right only because no other part of
the tree can reach them, and this module makes the reason precise: `Held` says that a
node stands for a tree of items and that the owned nodes below it lie in a set `F`, those
below different branches in disjoint parts of it. A branch that is not loaded is known by
the hash of its tree; `Loaded` is the case of a tree that is all in memory.

## The model

`Changes c W` is what a program may do to the heap: make new nodes, and change owned nodes
in `W`. A tree whose set is disjoint from `W` is not affected (`Held.frame`). `Hole` is a
node without one of its branches, and `Spine` the nodes from one place up to another, each
without the branch that leads on: what is left of a tree while a branch of it is changed.
`Supply` is the callback that gives a node for each branch that is not loaded.

## What is proved

`wp_unshareNode`, `wp_fill` and `wp_dirtyUp`: copying a node, setting a child of it, and doing so all
the way up put a new branch into the place of the old one. `wp_walkTree`: a walk loads children, and
what every node stands for stays.
-/

namespace Xrpld.SHAMap

open Function (update update_self update_of_ne)
open Nat Set

/-! ### Changes of the heap -/

variable {c g : ℕ} {F G W Fh W' : Set Ref} {h h' : Heap} {q r : Ref} {o last : Option Ref} {t u v : MapTree}
  {s : Memory} {nid : SHAMapNodeId} {Q : Ref → Memory → Prop} {E : MutationError → Memory → Prop} {P : Fault → Prop}
  {key : Uint256}

/-- New nodes may have been made; of the old ones only owned nodes in `W` may have changed. -/
structure Changes (c : ℕ) (W : Set Ref) (h h' : Heap) : Prop where
  next_le : h.next ≤ h'.next
  same : ∀ q < h.next, ((h.node q).cowid = c → q ∉ W) → h'.node q = h.node q

namespace Changes

variable {h1 h2 : Heap}

theorem refl (c : ℕ) (W : Set Ref) (h : Heap) : Changes c W h h := ⟨le_refl _, fun _ _ _ => rfl⟩

/-- Two changes after each other; the second may also change what the first has made. -/
theorem trans (h12 : Changes c W h h1) (h23 : Changes c W' h1 h2) (hW : ∀ q ∈ W', q < h.next → q ∈ W) :
    Changes c W h h2 := by
  refine ⟨le_trans h12.next_le h23.next_le, fun q hq ho => ?_⟩
  have hsm := h12.same q hq ho
  rw [h23.same q (lt_of_lt_of_le hq h12.next_le) ?_, hsm]
  intro hc hm
  rw [hsm] at hc
  exact ho hc (hW q hm hq)

theorem mono (hh : Changes c W h h1) (hW : W ⊆ W') : Changes c W' h h1 :=
  ⟨hh.next_le, fun q hq ho => hh.same q hq fun hc hm => ho hc (hW hm)⟩

theorem alloc (c : ℕ) (W : Set Ref) (h : Heap) (n : SHAMapTreeNode) : Changes c W h (h.alloc n) :=
  ⟨le_succ _, fun _ hq _ => node_alloc_of_lt hq n⟩

theorem set (hr : r < h.next → (h.node r).cowid = c ∧ r ∈ W) (n : SHAMapTreeNode) : Changes c W h (h.set r n) := by
  refine ⟨le_refl _, fun q hq ho => node_set_of_ne ?_ n⟩
  rintro rfl
  exact ho (hr hq).1 (hr hq).2

theorem calls (hc : Changes c W h h') (n : ℕ) : Changes c W h { h' with calls := n } :=
  ⟨hc.next_le, hc.same⟩

end Changes

/-! ### Trees in memory -/

/-- A node of the tree with the id `c`: it does not belong to a newer one, and it is in `F` if the tree
owns it. -/
structure Owns (h : Heap) (c : ℕ) (r : Ref) (F : Set Ref) : Prop where
  le : (h.node r).cowid ≤ c
  lt : r < h.next
  mem : (h.node r).cowid = c → r ∈ F
  old : ∀ q ∈ F, q < h.next

/-- An item that a leaf may hold. -/
def SHAMapItem.Sized (item : SHAMapItem) : Prop := minItemBytes ≤ item.size

instance (item : SHAMapItem) : Decidable item.Sized := inferInstanceAs (Decidable (minItemBytes ≤ item.size))

section

variable (sha : Sha)

/-- **A node stands for a tree, all of it in memory**: its leaves have their hashes, a shared inner node has the
hash of its tree, and the owned nodes below it are in `F`, in disjoint parts for different branches. -/
def Loaded (h : Heap) (c : ℕ) : MapTree → Ref → Set Ref → Prop
  | .empty, _, _ => False
  | .leaf leaf, r, F =>
    Owns h c r F ∧ ∃ cowid, h.node r = ⟨leaf.hash sha, cowid, .leaf leaf.type leaf.item⟩
  | .inner child, r, F => Owns h c r F ∧ ∃ hash cowid g slots, h.node r = ⟨hash, cowid, .inner g slots⟩ ∧
      (cowid = 0 → hash = treeHash sha (.inner child)) ∧
      ∃ G : Branch → Set Ref, (∀ b, G b ⊆ F ∧ r ∉ G b) ∧ (∀ b b', b ≠ b' → Disjoint (G b) (G b')) ∧
        ∀ b, (slots b = none ∧ child b = .empty) ∨
          ∃ hash q, slots b = some ⟨hash, some q⟩ ∧ Loaded h c (child b) q (G b)

variable (stored : MapStore)

/-- **A node stands for a tree, of which some branches may not be loaded**: such a branch has the hash of its tree, and
the store knows the tree by it. A leaf that another tree owns is long enough to be copied. -/
def Held (h : Heap) (c : ℕ) : MapTree → Ref → Set Ref → Prop
  | .empty, _, _ => False
  | .leaf leaf, r, F => Owns h c r F ∧
      ∃ cowid, h.node r = ⟨leaf.hash sha, cowid, .leaf leaf.type leaf.item⟩ ∧
        (cowid ≠ 0 → cowid ≠ c → leaf.item.Sized)
  | .inner child, r, F => Owns h c r F ∧ ∃ hash cowid g slots, h.node r = ⟨hash, cowid, .inner g slots⟩ ∧
      (cowid = 0 → hash = treeHash sha (.inner child)) ∧
      ∃ G : Branch → Set Ref, (∀ b, G b ⊆ F ∧ r ∉ G b) ∧ (∀ b b', b ≠ b' → Disjoint (G b) (G b')) ∧
        ∀ b, (slots b = none ∧ child b = .empty) ∨
          (∃ hash q, slots b = some ⟨hash, some q⟩ ∧ Held h c (child b) q (G b)) ∨
          (slots b = some ⟨treeHash sha (child b), none⟩ ∧ child b ≠ .empty ∧
            stored (treeHash sha (child b)) = some (child b))

/-- What a slot stands for. -/
def SlotFor (h : Heap) (c : ℕ) (t : MapTree) (slot : Option Slot) (F : Set Ref) : Prop :=
  (slot = none ∧ t = .empty) ∨ (∃ hash q, slot = some ⟨hash, some q⟩ ∧ Held sha stored h c t q F) ∨
    (slot = some ⟨treeHash sha t, none⟩ ∧ t ≠ .empty ∧ stored (treeHash sha t) = some t)

/-- What a node without one of its branches stands for. -/
def Hole (h : Heap) (c : ℕ) (child : Branch → MapTree) (hole : Branch) (r : Ref) (F : Set Ref) : Prop :=
  Owns h c r F ∧ ∃ slots, h.InnerAt r slots ∧
    ∃ G : Branch → Set Ref, (∀ b, G b ⊆ F ∧ r ∉ G b) ∧ (∀ b b', b ≠ b' → Disjoint (G b) (G b')) ∧
      ∀ b, b ≠ hole → SlotFor sha stored h c (child b) (slots b) (G b)

/-- What a pointer that may be null stands for. -/
def Pointer (h : Heap) (c : ℕ) (t : MapTree) (r : Option Ref) (F : Set Ref) : Prop :=
  (r = none ∧ t = .empty) ∨ ∃ q, r = some q ∧ Held sha stored h c t q F

end

variable {sha : Sha} {stored : MapStore} {ch : Branch → MapTree} {b : Branch}

theorem Owns.frame (ho : Owns h c r F) (hh : Changes c W h h') (hd : Disjoint F W) :
    Owns h' c r F ∧ h'.node r = h.node r := by
  have hsm : h'.node r = h.node r :=
    hh.same r ho.lt fun hc hm => disjoint_left.mp hd (ho.mem hc) hm
  refine ⟨⟨?_, lt_of_lt_of_le ho.lt hh.next_le, ?_, fun q hq => ?_⟩, hsm⟩
  · rw [hsm]
    exact ho.le
  · rw [hsm]
    exact ho.mem
  · exact lt_of_lt_of_le (ho.old q hq) hh.next_le

theorem Held.owns (hl : Held sha stored h c t r F) : Owns h c r F := by
  cases t with
  | empty => exact hl.elim
  | leaf leaf => exact hl.1
  | inner ch => exact hl.1

/-- A tree that is all in memory. -/
theorem Loaded.held (hl : Loaded sha h c t r F) (hz : ∀ leaf ∈ t, leaf.item.Sized)
    (stored : MapStore) : Held sha stored h c t r F := by
  induction t generalizing r F with
  | empty => exact hl
  | leaf leaf =>
    obtain ⟨ho, cw, hn⟩ := hl
    exact ⟨ho, cw, hn, fun _ _ => hz leaf rfl⟩
  | inner ch ih =>
    obtain ⟨ho, hash, cw, g, sl, hn, h0, G, hG, hd, hsl⟩ := hl
    refine ⟨ho, hash, cw, g, sl, hn, h0, G, hG, hd, fun b => ?_⟩
    rcases hsl b with hno | ⟨hash', q, hb, hq⟩
    · exact .inl hno
    · exact .inr (.inl ⟨hash', q, hb, ih b hq fun leaf hf => hz leaf ⟨b, hf⟩⟩)

theorem Loaded.shows (hl : Loaded sha h c t r F) (store : MapStore) : Shows store h t r := by
  induction t generalizing r F with
  | empty => exact hl
  | leaf leaf =>
    obtain ⟨-, cw, hn⟩ := hl
    exact ⟨_, cw, hn⟩
  | inner ch ih =>
    obtain ⟨-, hash, cw, g, sl, hn, -, G, -, -, hsl⟩ := hl
    refine ⟨hash, cw, g, sl, hn, fun b => ?_⟩
    rcases hsl b with ho | ⟨hash', q, hb, hq⟩
    · exact .inl ho
    · refine .inr ⟨hash', some q, hb, fun he => ?_, .inr ⟨q, rfl, ih b hq⟩⟩
      rw [he] at hq
      exact hq

/-- Without a store, a tree is all in memory. -/
theorem Held.loaded (hl : Held sha (fun _ => none) h c t r F) : Loaded sha h c t r F := by
  induction t generalizing r F with
  | empty => exact hl
  | leaf leaf =>
    obtain ⟨ho, cw, hn, -⟩ := hl
    exact ⟨ho, cw, hn⟩
  | inner ch ih =>
    obtain ⟨ho, hash, cw, g, sl, hn, h0, G, hG, hd, hsl⟩ := hl
    refine ⟨ho, hash, cw, g, sl, hn, h0, G, hG, hd, fun b => ?_⟩
    rcases hsl b with hno | ⟨hash', q, hb, hq⟩ | ⟨-, -, ht⟩
    · exact .inl hno
    · exact .inr ⟨hash', q, hb, ih b hq⟩
    · cases ht

/-- **A change elsewhere does not affect a tree.** -/
theorem Held.frame (hl : Held sha stored h c t r F) (hc : Changes c W h h') (hd : Disjoint F W) :
    Held sha stored h' c t r F := by
  induction t generalizing r F with
  | empty => exact hl
  | leaf leaf =>
    obtain ⟨ho, cw, hn, hz⟩ := hl
    obtain ⟨ho', hm⟩ := ho.frame hc hd
    exact ⟨ho', cw, hm.trans hn, hz⟩
  | inner ch ih =>
    obtain ⟨ho, hash, cw, g, sl, hn, h0, G, hG, hi, hsl⟩ := hl
    obtain ⟨ho', hm⟩ := ho.frame hc hd
    refine ⟨ho', hash, cw, g, sl, hm.trans hn, h0, G, hG, hi, fun b => ?_⟩
    rcases hsl b with hno | ⟨hash', q, hb, hq⟩ | ht
    · exact .inl hno
    · exact .inr (.inl ⟨hash', q, hb, ih b hq (hd.mono_left (hG b).1)⟩)
    · exact .inr (.inr ht)

variable {slot : Option Slot}

theorem SlotFor.frame (hs : SlotFor sha stored h c t slot F) (hc : Changes c W h h')
    (hd : Disjoint F W) : SlotFor sha stored h' c t slot F := by
  rcases hs with hn | ⟨hash, q, hb, hq⟩ | ht
  · exact .inl hn
  · exact .inr (.inl ⟨hash, q, hb, hq.frame hc hd⟩)
  · exact .inr (.inr ht)

theorem Pointer.frame (hp : Pointer sha stored h c t o F) (hc : Changes c W h h') (hd : Disjoint F W) : Pointer sha stored h' c t o F := by
  rcases hp with hn | ⟨q, hb, hq⟩
  · exact .inl hn
  · exact .inr ⟨q, hb, hq.frame hc hd⟩

theorem Hole.frame (hh : Hole sha stored h c ch b r F) (hc : Changes c W h h') (hd : Disjoint F W) :
    Hole sha stored h' c ch b r F := by
  obtain ⟨ho, sl, hn, G, hG, hi, hl⟩ := hh
  obtain ⟨ho', hm⟩ := ho.frame hc hd
  refine ⟨ho', sl, ?_, G, hG, hi, fun b' hb => (hl b' hb).frame hc (hd.mono_left (hG b').1)⟩
  rw [Heap.InnerAt, hm]
  exact hn

/-- What is below the hole does not matter. -/
theorem Hole.congr (hh : Hole sha stored h c ch b r F) {ch' : Branch → MapTree}
    (he : ∀ b', b' ≠ b → ch' b' = ch b') : Hole sha stored h c ch' b r F := by
  obtain ⟨ho, sl, hi, G, hG, hd, hl⟩ := hh
  refine ⟨ho, sl, hi, G, hG, hd, fun b' hb => ?_⟩
  rw [he b' hb]
  exact hl b' hb

/-- The node of a tree may be given more room. -/
theorem Owns.mono (ho : Owns h c r F) (hF : F ⊆ W) (hW : ∀ q ∈ W, q < h.next) : Owns h c r W :=
  ⟨ho.le, ho.lt, fun hc => hF (ho.mem hc), hW⟩

theorem Held.mono (hl : Held sha stored h c t r F) (hF : F ⊆ W) (hW : ∀ q ∈ W, q < h.next) :
    Held sha stored h c t r W := by
  cases t with
  | empty => exact hl
  | leaf leaf => exact ⟨hl.1.mono hF hW, hl.2⟩
  | inner ch =>
    obtain ⟨ho, hash, cw, g, sl, hn, h0, G, hG, hr⟩ := hl
    exact ⟨ho.mono hF hW, hash, cw, g, sl, hn, h0, G, fun b => ⟨(hG b).1.trans hF, (hG b).2⟩, hr⟩

/-- **A tree is a node without one of its branches, and that branch**, with nothing owned in common. -/
theorem Held.split (hl : Held sha stored h c (.inner ch) r F) (b : Branch) :
    ∃ Fh G sl, Hole sha stored h c ch b r Fh ∧ h.InnerAt r sl ∧ SlotFor sha stored h c (ch b) (sl b) G ∧
      Fh ⊆ F ∧ G ⊆ F ∧ Disjoint Fh G := by
  obtain ⟨ho, hash, cw, g, sl, hn, -, G, hG, hd, hsl⟩ := hl
  have hi : h.InnerAt r sl := ⟨hash, cw, g, hn⟩
  refine ⟨F \ G b, G b, sl, ⟨?_, sl, hi, update G b ∅, fun b' => ?_, fun b1 b2 he => ?_,
    fun b' hb => ?_⟩, hi, hsl b, sdiff_subset, (hG b).1, disjoint_sdiff_left⟩
  · exact ⟨ho.le, ho.lt, fun hc => ⟨ho.mem hc, (hG b).2⟩, fun q hq => ho.old q hq.1⟩
  · by_cases hb : b' = b
    · subst hb
      rw [update_self]
      exact ⟨empty_subset _, notMem_empty _⟩
    · rw [update_of_ne hb]
      exact ⟨fun q hq => ⟨(hG b').1 hq, fun hqb => disjoint_left.mp (hd b' b hb) hq hqb⟩, (hG b').2⟩
  · by_cases h1 : b1 = b
    · subst h1
      rw [update_self]
      exact empty_disjoint _
    · by_cases h2 : b2 = b
      · subst h2
        rw [update_self]
        exact disjoint_empty _
      · rw [update_of_ne h1, update_of_ne h2]
        exact hd b1 b2 he
  · rw [update_of_ne hb]
    exact hsl b'

variable {sl : Slots}

/-- An inner node stands for an inner tree. -/
theorem Held.inner_of_innerAt (hl : Held sha stored h c t r F) (hin : h.InnerAt r sl) : ∃ ch, t = .inner ch := by
  cases t with
  | empty => exact hl.elim
  | leaf leaf =>
    obtain ⟨-, cw, hn, -⟩ := hl
    have hi := hin.isInner
    rw [hn] at hi
    cases hi
  | inner ch => exact ⟨ch, rfl⟩

variable {hash : SHAMapHash}

/-- A loaded child stands for the tree of its branch. -/
theorem SlotFor.loaded (hs : SlotFor sha stored h c t slot F) (hq : slot = some ⟨hash, some q⟩) : Held sha stored h c t q F := by
  subst hq
  rcases hs with ⟨hn, -⟩ | ⟨hash', q', ho, hl⟩ | ⟨ho, -⟩
  · cases hn
  · cases ho
    exact hl
  · cases ho

/-! ### Filling a hole -/

/-- An owned node with a hole takes a branch. -/
theorem Hole.fill (hc : c ≠ 0) (hh : Hole sha stored h c ch b r F) (hn : h.node r = ⟨hash, c, .inner g sl⟩)
    (hp : SlotFor sha stored h c u slot G) (hd : Disjoint F G) (hG : ∀ q ∈ G, q < h.next) (hash' : SHAMapHash) :
    Held sha stored (h.set r ⟨hash', c, .inner g (update sl b slot)⟩) c (.inner (update ch b u)) r (F ∪ G) ∧
      Changes c F h (h.set r ⟨hash', c, .inner g (update sl b slot)⟩) := by
  obtain ⟨ho, sl', hin, G', hG', hi, hl⟩ := hh
  obtain rfl : sl = sl' := Heap.InnerAt.unique ⟨_, _, _, hn⟩ hin
  have hrF : r ∈ F := ho.mem (by rw [hn])
  have hch : ∀ W, r ∈ W → ∀ n, Changes c W h (h.set r n) := fun W hr n =>
    Changes.set (fun _ => ⟨by rw [hn], hr⟩) n
  refine ⟨⟨⟨?_, ho.lt, fun _ => .inl hrF, ?_⟩, hash', c, g, _, node_set_self .., fun h0 => absurd h0 hc,
    fun b' => if b' = b then G else G' b', fun b' => ?_, fun b1 b2 he => ?_, fun b' => ?_⟩, hch F hrF _⟩
  · rw [node_set_self]
  · intro q hq
    rcases hq with hq | hq
    · exact ho.old q hq
    · exact hG q hq
  · by_cases hb : b' = b
    · simp only [if_pos hb]
      exact ⟨subset_union_right, disjoint_left.mp hd hrF⟩
    · simp only [if_neg hb]
      exact ⟨(hG' b').1.trans subset_union_left, (hG' b').2⟩
  · by_cases h1 : b1 = b
    · have h2 : b2 ≠ b := fun h2 => he (h1.trans h2.symm)
      simp only [if_pos h1, if_neg h2]
      exact (hd.mono_left (hG' b2).1).symm
    · by_cases h2 : b2 = b
      · simp only [if_neg h1, if_pos h2]
        exact hd.mono_left (hG' b1).1
      · simp only [if_neg h1, if_neg h2]
        exact hi b1 b2 he
  · by_cases hb : b' = b
    · subst hb
      simp only [if_true, update_self]
      exact hp.frame (hch F hrF _) hd.symm
    · simp only [if_neg hb, update_of_ne hb]
      exact (hl b' hb).frame (hch {r} rfl _) (disjoint_singleton_right.mpr (hG' b').2)

/-- The slot that `set_child` makes of a pointer. -/
theorem Pointer.slotFor (hp : Pointer sha stored h c u o G) :
    SlotFor sha stored h c u (o.map fun q => ⟨0, some q⟩) G := by
  rcases hp with ⟨rfl, rfl⟩ | ⟨q, rfl, hq⟩
  · exact .inl ⟨rfl, rfl⟩
  · exact .inr (.inl ⟨0, q, rfl, hq⟩)

/-! ### The programs -/

section

/-- An owned node is left as it is, any other one is copied. -/
theorem wp_unshareNode {n : SHAMapTreeNode} (hs : s.tree.cowid = c) (hl : (s.heap.node r).cowid ≤ c)
    (hn : (s.heap.node r).cloneWithCowid c = .ok n) (ho : (s.heap.node r).cowid = c → Q r s)
    (hco : (s.heap.node r).cowid ≠ c → ∀ tree : MutableTree, tree.cowid = c →
      (nid.isRoot = false → tree = s.tree) → Q s.heap.next ⟨s.heap.alloc n, tree⟩) :
    wp (unshareNode r nid) Q E P s := by
  simp only [unshareNode, wp_bind, wp_read, hs, not_lt.mpr hl, if_false]
  by_cases hc : (s.heap.node r).cowid = c
  · simp only [hc, if_true]
    exact ho hc
  · simp only [hc, if_false, hn, wp_bind, wp_lift_ok, onHeap, wp_zoom, allocate, wp_read, wp_update, wp_pure]
    cases hr : nid.isRoot with
    | true => exact hco hc ⟨s.heap.next, s.tree.cowid⟩ hs (fun h => by rw [hr] at h; cases h)
    | false => exact hco hc s.tree hs fun _ => rfl

/-- Copying a node with a hole. -/
theorem wp_unshareNode_hole (hs : s.tree.cowid = c) (hh : Hole sha stored s.heap c ch b r F) :
    wp (unshareNode r nid) (fun r' s' => s'.tree.cowid = c ∧ Changes c ∅ s.heap s'.heap ∧
        ∃ F' hash g sl, Hole sha stored s'.heap c ch b r' F' ∧ s'.heap.node r' = ⟨hash, c, .inner g sl⟩ ∧
          F' ⊆ F ∪ {q | s.heap.next ≤ q}) E P s := by
  obtain ⟨ho, sl, hi, G, hG, hd, hl⟩ := id hh
  obtain ⟨hash, cw, g, hn⟩ := hi
  refine wp_unshareNode (n := ⟨hash, c, .inner g sl⟩) hs ho.le (by rw [hn]; rfl) (fun hc => ?_) fun hc tree ht _ => ?_
  · rw [hn] at hc
    subst hc
    exact ⟨hs, Changes.refl _ _ _, F, hash, g, sl, hh, hn, subset_union_left⟩
  · have hch : Changes c ∅ s.heap (s.heap.alloc ⟨hash, c, .inner g sl⟩) := Changes.alloc _ _ _ _
    refine ⟨ht, hch, insert s.heap.next F, hash, g, sl, ?_, node_alloc_next .., ?_⟩
    · refine ⟨⟨?_, lt_succ_self _, fun _ => mem_insert _ _, ?_⟩, sl, ?_, G, fun b => ⟨?_, ?_⟩, hd,
        fun b' hb => (hl b' hb).frame hch (disjoint_empty _)⟩
      · rw [node_alloc_next]
      · intro q hq
        rcases hq with rfl | hq
        · exact lt_succ_self _
        · exact lt_succ_of_lt (ho.old q hq)
      · exact ⟨hash, c, g, node_alloc_next ..⟩
      · exact (hG b).1.trans (subset_insert _ _)
      · exact fun hm => lt_irrefl _ (ho.old _ ((hG b).1 hm))
    · intro q hq
      rcases hq with rfl | hq
      · exact .inr (Nat.le_refl _)
      · exact .inl hq

/-- Setting the child of a node the tree owns. -/
theorem wp_setChildAt {ε : Type} {Q : Unit → Memory → Prop} {E : ε → Memory → Prop} (hc : c ≠ 0)
    (hn : s.heap.node r = ⟨hash, c, .inner g sl⟩) (o : Option Ref) :
    wp (onHeap (setChildAt r b o)) Q E P s ↔
      Q () ⟨s.heap.set r ⟨0, c, .inner g (update sl b (o.map fun q => ⟨0, some q⟩))⟩, s.tree⟩ := by
  simp only [onHeap, wp_zoom, setChildAt, deref, wp_bind, wp_read, wp_pure, hn,
    SHAMapTreeNode.setChild, hc, if_false, wp_lift_ok, store, wp_update]

/-- **Copying a node and setting a child of it** fills its hole. -/
theorem wp_fill (hc : c ≠ 0) (hs : s.tree.cowid = c) (hh : Hole sha stored s.heap c ch b r F)
    (hp : Pointer sha stored s.heap c u o G) (hd : Disjoint F G) (hG : ∀ q ∈ G, q < s.heap.next)
    (hQ : ∀ r' s' F', s'.tree.cowid = c → Changes c F s.heap s'.heap → (s'.heap.node r').cowid = c →
      Held sha stored s'.heap c (.inner (update ch b u)) r' F' → F' ⊆ F ∪ G ∪ {q | s.heap.next ≤ q} → Q r' s') :
    wp (unshareNode r nid) (fun node s' => wp (onHeap (setChildAt node b o)) (fun _ s' => Q node s') E P s') E P s := by
  refine wp_total (wp_unshareNode_hole (E := ⊥) (P := ⊥) hs hh) ?_
  rintro r' s' ⟨hs', hch, F', hash, g, sl, hh', hn, hF'⟩
  rw [wp_setChildAt hc hn]
  have hG' : ∀ q ∈ G, q < s'.heap.next := fun q hq => lt_of_lt_of_le (hG q hq) hch.next_le
  have hd' : Disjoint F' G := by
    refine disjoint_left.mpr fun q hq hqG => ?_
    rcases hF' hq with hq | hq
    · exact disjoint_left.mp hd hq hqG
    · exact Nat.not_le_of_lt (hG q hqG) hq
  obtain ⟨hl, hch'⟩ := hh'.fill hc hn (hp.frame hch (disjoint_empty _)).slotFor hd' hG' 0
  refine hQ r' _ (F' ∪ G) hs' ((hch.mono (empty_subset _)).trans hch' fun q hq ht => ?_) ?_ hl ?_
  · rcases hF' hq with hq | hq
    · exact hq
    · exact absurd ht (Nat.not_lt_of_le hq)
  · rw [node_set_self]
  · intro q hq
    rcases hq with hq | hq
    · rcases hF' hq with hq | hq
      · exact .inl (.inl hq)
      · exact .inr hq
    · exact .inl (.inr hq)

end

/-! ### Loading more of a tree -/

section

variable (sha stored) in
/-- **The callback supplies what the store knows**: under the hash it is asked for, and with nothing the tree owns. -/
structure Supply (backed : Bool) (fetch : Fetch) (c : ℕ) (h : Heap) : Prop where
  backed : ∀ hash, stored hash ≠ none → backed = true
  finds : ∀ n hash u, stored hash = some u →
    ∃ f, fetch n hash = some f ∧ (h.node f).hash = hash ∧ Held sha stored h c u f ∅

variable {backed : Bool} {fetch : Fetch}

/-- A tree that is all in memory needs no store. -/
theorem Supply.nothing (backed : Bool) (fetch : Fetch) (c : ℕ) (h : Heap) :
    Supply sha (fun _ => none) backed fetch c h := ⟨fun _ hn => absurd rfl hn, nofun⟩

variable (hS : Supply sha stored backed fetch c h)

include hS

/-- The tree does not change what is supplied. -/
theorem Supply.frame (hc : Changes c W h h') : Supply sha stored backed fetch c h' := by
  refine ⟨hS.backed, fun n hash u hu => ?_⟩
  obtain ⟨f, hf, hh, hl⟩ := hS.finds n hash u hu
  exact ⟨f, hf, by rw [(hl.owns.frame hc (empty_disjoint _)).2, hh], hl.frame hc (empty_disjoint _)⟩

variable (hs : FetchStep fetch h h')

include hs

omit hS in
theorem FetchStep.cowid_eq (r : Ref) : (h'.node r).cowid = (h.node r).cowid := by
  rcases hs.node_cases r with hm | ⟨hash, cw, g, sl, b, hash', f, hn, -, -, -, he⟩
  · rw [hm]
  · rw [he, hn]

omit hS in
theorem FetchStep.next_eq : h'.next = h.next := by
  cases hs with
  | miss => rfl
  | attach hp hb hf hh =>
    obtain ⟨nh, cw, g, hn⟩ := hp
    rw [Heap.attach_call_eq hn]
    rfl

omit hs in
omit hS in
theorem Owns.fetchStep (ho : Owns h c r F) (hs : FetchStep fetch h h') : Owns h' c r F := by
  refine ⟨?_, ?_, ?_, fun q hq => ?_⟩
  · rw [hs.cowid_eq]
    exact ho.le
  · rw [hs.next_eq]
    exact ho.lt
  · rw [hs.cowid_eq]
    exact ho.mem
  · rw [hs.next_eq]
    exact ho.old q hq

/-- Loading a child leaves what every node stands for. -/
theorem Held.fetchStep (hl : Held sha stored h c t r F) : Held sha stored h' c t r F := by
  induction t generalizing r F with
  | empty => exact hl
  | leaf leaf =>
    obtain ⟨ho, cw, hn, hz⟩ := hl
    exact ⟨ho.fetchStep hs, cw, (hs.leaf (by rw [hn]; rfl)).trans hn, hz⟩
  | inner ch ih =>
    obtain ⟨ho, hash, cw, g, sl, hn, h0, G, hG, hd, hsl⟩ := hl
    have hk : ∀ b, (sl b = none ∧ ch b = .empty) ∨
        (∃ hash q, sl b = some ⟨hash, some q⟩ ∧ Held sha stored h' c (ch b) q (G b)) ∨
        (sl b = some ⟨treeHash sha (ch b), none⟩ ∧ ch b ≠ .empty ∧ stored (treeHash sha (ch b)) = some (ch b)) := by
      intro b
      rcases hsl b with hno | ⟨hash', q, hb, hq⟩ | ht
      · exact .inl hno
      · exact .inr (.inl ⟨hash', q, hb, ih b hq⟩)
      · exact .inr (.inr ht)
    rcases hs.node_cases r with hm | ⟨nh, cowid', g', sl', b, hash', f, hn', hb, hf, -, he⟩
    · exact ⟨ho.fetchStep hs, hash, cw, g, sl, hm.trans hn, h0, G, hG, hd, hk⟩
    · obtain ⟨rfl, rfl, hbo⟩ := SHAMapTreeNode.mk.inj (hn.symm.trans hn')
      obtain ⟨rfl, rfl⟩ := NodeBody.inner.inj hbo
      refine ⟨ho.fetchStep hs, hash, cw, g, _, he, h0, G, hG, hd, fun b' => ?_⟩
      by_cases hbb : b' = b
      · -- the slot that was filled: what was supplied owns nothing
        subst hbb
        rcases hsl b' with ⟨hno, -⟩ | ⟨ha, q, hso, -⟩ | ⟨hso, hne, hst⟩
        · rw [hb] at hno
          cases hno
        · rw [hb] at hso
          cases hso
        · rw [hb] at hso
          obtain ⟨rfl, -⟩ := Slot.mk.inj (Option.some.inj hso)
          obtain ⟨f', hf', -, hl⟩ := hS.finds h.calls _ _ hst
          obtain rfl : f = f' := Option.some.inj (hf.symm.trans hf')
          refine .inr (.inl ⟨_, f, update_self .., (ih b' hl).mono (empty_subset _) fun q hq => ?_⟩)
          rw [hs.next_eq]
          exact ho.old q ((hG b').1 hq)
      · rw [update_of_ne hbb]
        exact hk b'

theorem Supply.fetchStep : Supply sha stored backed fetch c h' := by
  refine ⟨hS.backed, fun n hash u hu => ?_⟩
  obtain ⟨f, hf, hh, hl⟩ := hS.finds n hash u hu
  exact ⟨f, hf, (hs.hash_eq f).trans hh, hl.fetchStep hS hs⟩

omit hs

theorem Held.fetches (hs : Fetches fetch h h') (hl : Held sha stored h c t r F) :
    Held sha stored h' c t r F ∧ Supply sha stored backed fetch c h' := by
  induction hs with
  | refl => exact ⟨hl, hS⟩
  | tail _ hp ih => exact ⟨ih.1.fetchStep ih.2 hp, ih.2.fetchStep hp⟩

omit hS in
/-- The tree can be read. -/
theorem Held.shows (hl : Held sha stored h c t r F) : Shows stored h t r := by
  induction t generalizing r F with
  | empty => exact hl
  | leaf leaf =>
    obtain ⟨-, cw, hn, -⟩ := hl
    exact ⟨_, cw, hn⟩
  | inner ch ih =>
    obtain ⟨-, hash, cw, g, sl, hn, -, G, -, -, hsl⟩ := hl
    refine ⟨hash, cw, g, sl, hn, fun b => ?_⟩
    rcases hsl b with ho | ⟨hash', q, hb, hq⟩ | ⟨hb, hne, ht⟩
    · exact .inl ho
    · refine .inr ⟨hash', some q, hb, fun he => ?_, .inr ⟨q, rfl, ih b hq⟩⟩
      rw [he] at hq
      exact hq
    · exact .inr ⟨_, none, hb, hne, .inl ⟨rfl, ht⟩⟩

theorem Supply.backing : Backing stored backed fetch h := by
  refine ⟨hS.backed, fun n hash u hu => ?_⟩
  obtain ⟨f, hf, hh, hl⟩ := hS.finds n hash u hu
  exact ⟨f, hf, hh, hl.shows⟩

omit hS

/-- **A walk only loads children**: it follows a path through the tree as it is then. -/
theorem wp_walkTree {Q : Option Ref × List NodePathEntry → Memory → Prop} (hS : Supply sha stored backed fetch c s.heap)
    (hl : Held sha stored s.heap c t s.tree.root F) (hb : t.Bounded radix 0)
    (hQ : ∀ last path h, WalkPath h key .root s.tree.root path last → Held sha stored h c t s.tree.root F →
      Supply sha stored backed fetch c h → Q (last, path) ⟨h, s.tree⟩) : wp (walkTree key backed fetch) Q E P s := by
  simp only [walkTree, walkTowardsKeyWithPath, onHeap, wp_bind, wp_read, wp_mapErr, wp_zoom]
  refine wp_mono (wp_and (walkLoop_spec key backed fetch (leafDepth + 1) s.tree.root .root s.heap)
    (walkLoop_total key hS.backing (show t.Bounded radix SHAMapNodeId.root.depth from hb) (by decide) hl.shows))
    ?_ (fun _ _ h => h.2.elim) fun _ h => h.2.elim
  rintro ⟨last, path⟩ h ⟨⟨hw, hf⟩, -⟩
  obtain ⟨hl', hS'⟩ := hl.fetches hS hf
  exact hQ last path h hw hl' hS'

end

/-! ### Spines -/

section

variable (sha stored) in
/-- The nodes from a tree at depth `d` down to a tree `u` below it, each without the branch of the key: `F` is what
they own. -/
inductive Spine (h : Heap) (c : ℕ) (key : Uint256) : ℕ → MapTree → List NodePathEntry → MapTree → Set Ref → Prop where
  /-- No nodes. -/
  | nil {d : ℕ} {t : MapTree} : Spine h c key d t [] t ∅
  /-- A node, and the nodes below it. -/
  | cons {d : ℕ} {child : Branch → MapTree} {entry : NodePathEntry} {path : List NodePathEntry} {u : MapTree}
      {Fh F : Set Ref} (hid : entry.nodeId.depth = d) (hd : d < leafDepth)
      (hh : Hole sha stored h c child (key.nibble d) entry.node Fh)
      (hrest : Spine h c key (d + 1) (child (key.nibble d)) path u F) (hdis : Disjoint Fh F) :
      Spine h c key d (.inner child) (entry :: path) u (Fh ∪ F)

variable {d : ℕ} {path : List NodePathEntry}

variable (hs : Spine sha stored h c key d t path u F)

include hs

theorem Spine.old : ∀ q ∈ F, q < h.next := by
  induction hs with
  | nil => exact fun q hq => absurd hq (notMem_empty q)
  | cons hid hd hh hr hi ih =>
    intro q hq
    rcases hq with hq | hq
    · exact hh.1.old q hq
    · exact ih q hq

theorem Spine.frame (hc : Changes c W h h') (hd : Disjoint F W) : Spine sha stored h' c key d t path u F := by
  induction hs with
  | nil => exact .nil
  | cons hid he hh hr hi ih =>
    exact .cons hid he (hh.frame hc (hd.mono_left subset_union_left)) (ih (hd.mono_left subset_union_right)) hi

/-- A node below the last one makes a spine longer. -/
theorem Spine.snoc (en : NodePathEntry) (hid : en.nodeId.depth = d + path.length)
    (hl : en.nodeId.depth < leafDepth)
    (hh : Hole sha stored h c ch (key.nibble en.nodeId.depth) en.node Fh) (hdi : Disjoint F Fh) :
    Spine sha stored h c key d (Tree.graft radix key (.inner ch) path.length t d) (path ++ [en])
      (ch (key.nibble en.nodeId.depth)) (F ∪ Fh) := by
  induction hs with
  | @nil d t =>
    obtain rfl : en.nodeId.depth = d := hid
    rw [union_comm]
    exact .cons rfl hl hh .nil (disjoint_empty _)
  | @cons d child1 entry1 path u Fh1 F1 hi hd1 hh1 hr hd ih =>
    rw [List.length_cons] at hid
    have ih := ih (by omega) (hdi.mono_left subset_union_right)
    have hd' : Disjoint Fh1 (F1 ∪ Fh) := hd.union_right (hdi.mono_left subset_union_left)
    rw [union_assoc]
    refine .cons hi hd1 (hh1.congr fun b hb => update_of_ne hb ..) ?_ hd'
    rwa [show update child1 (radix.digit key d) _ (key.nibble d) = _ from update_self ..]

/-- Putting a leaf into a tree is putting it in below a spine. -/
theorem Spine.put_eq {leaf : Leaf} (hk : leaf.item.key = key) : Tree.put radix leaf t d =
      Tree.graft radix key (Tree.put radix leaf u (d + path.length)) path.length t d := by
  induction hs with
  | nil => rfl
  | cons hid hd hh hr hi ih =>
    subst hk
    rw [List.length_cons, ← Nat.add_assoc, Nat.add_right_comm, Tree.put, Tree.graft]
    exact congrArg (fun v => Tree.inner (update _ _ v)) ih

omit hs

/-- **Setting children all the way up** puts a new tree below the spine. -/
theorem wp_dirtyUp (hc : c ≠ 0) (hw : s.tree.cowid = c) (hs : Spine sha stored s.heap c key d t path u F)
    (hq : Held sha stored s.heap c v q G) (hi : Disjoint F G) :
    wp (dirtyUp key path q) (fun r s' => s'.tree.cowid = c ∧ Changes c F s.heap s'.heap ∧
      ∃ F', Held sha stored s'.heap c (Tree.graft radix key v path.length t d) r F' ∧
        F' ⊆ F ∪ G ∪ {q | s.heap.next ≤ q}) E P s := by
  induction hs with
  | nil => exact ⟨hw, Changes.refl _ _ _, G, hq, fun q hq => .inl (.inr hq)⟩
  | @cons d ch en path u Fh F hid hd hh hr hdi ih =>
    simp only [dirtyUp, wp_bind]
    refine wp_imp (ih (hi.mono_left subset_union_right)) ?_
    rintro r s1 ⟨hco, hch, F1, hl, hF1⟩
    rw [selectBranch_eq (hid ▸ hd), wp_lift_ok, hid]
    -- what is below was changed, what is beside was not
    have hh1 := hh.frame hch hdi
    have hdis1 : Disjoint Fh F1 := by
      refine disjoint_left.mpr fun q hq hq1 => ?_
      rcases hF1 hq1 with (hq1 | hq1) | hq1
      · exact disjoint_left.mp hdi hq hq1
      · exact disjoint_left.mp hi (.inl hq) hq1
      · exact Nat.not_lt_of_le hq1 (hh.1.old q hq)
    refine wp_fill hc hco hh1 (.inr ⟨r, rfl, hl⟩) hdis1 hl.owns.old ?_
    intro r' s' F' hcow' hch' ho hl' hF'
    refine ⟨hcow', (hch.mono subset_union_right).trans hch' fun q hq _ => .inl hq, F', hl', fun q hq => ?_⟩
    rcases hF' hq with (hq | hq) | hq
    · exact .inl (.inl (.inl hq))
    · rcases hF1 hq with (hq | hq) | hq
      · exact .inl (.inl (.inr hq))
      · exact .inl (.inr hq)
      · exact .inr hq
    · exact .inr (le_trans hch.next_le hq)

/-- Where a walk towards a key ends: at a leaf, or at an inner node whose branch is empty. -/
def WalkEnd (key : Uint256) (u : MapTree) (entry : NodePathEntry) (last : Option Ref) : Prop :=
  (∃ leaf, u = .leaf leaf ∧ last = some entry.node) ∨
    ∃ child, u = .inner child ∧ child (key.nibble entry.nodeId.depth) = .empty ∧ last = none ∧
      entry.nodeId.depth < leafDepth

/-- **A walk takes a tree apart** into the spine it passes and the tree it ends at. -/
theorem Held.walk (hw : WalkPath h key nid r path last) (hl : Held sha stored h c t r F) :
    ∃ fr en u Ff G, path = fr ++ [en] ∧ Spine sha stored h c key nid.depth t fr u Ff ∧
      Held sha stored h c u en.node G ∧ Disjoint Ff G ∧ Ff ⊆ F ∧ G ⊆ F ∧
      en.nodeId.depth = nid.depth + fr.length ∧ WalkEnd key u en last := by
  induction hw generalizing t F with
  | @leaf nid r hr =>
    cases t with
    | empty => exact hl.elim
    | leaf leaf =>
      exact ⟨[], ⟨r, nid⟩, .leaf leaf, ∅, F, rfl, .nil, hl, empty_disjoint _, empty_subset _, subset_rfl, rfl,
        .inl ⟨leaf, rfl, rfl⟩⟩
    | inner ch =>
      obtain ⟨-, hash, cw, g, sl, hn, -⟩ := hl
      rw [hn] at hr
      cases hr
  | @empty nid r sl hd hr hb =>
    obtain ⟨ch, rfl⟩ := hl.inner_of_innerAt hr
    obtain ⟨_, _, sl', -, hin, hsl, -⟩ := hl.split (key.nibble nid.depth)
    obtain rfl : sl = sl' := hr.unique hin
    rw [hb] at hsl
    rcases hsl with ⟨-, hm⟩ | ⟨hash, q, ho, -⟩ | ⟨ho, -⟩
    · exact ⟨[], ⟨r, nid⟩, .inner ch, ∅, F, rfl, .nil, hl, empty_disjoint _, empty_subset _, subset_rfl, rfl,
        .inr ⟨ch, rfl, hm, rfl, hd⟩⟩
    · cases ho
    · cases ho
  | @step nid ci r q sl hash path last hr hb hid ht ih =>
    obtain ⟨ch, rfl⟩ := hl.inner_of_innerAt hr
    obtain ⟨hd, hc⟩ := depth_of_getChildNodeId hid
    obtain ⟨Fh, G, sl', hh, hin, hsl, hFh, hG, hi⟩ := hl.split (key.nibble nid.depth)
    obtain rfl : sl = sl' := hr.unique hin
    obtain ⟨fr, en, u, Ff, G', rfl, hs, hu, hdi, hFf, hG', hp, he⟩ := ih (hsl.loaded hb)
    rw [hc] at hs hp
    refine ⟨⟨r, nid⟩ :: fr, en, u, Fh ∪ Ff, G', rfl, .cons rfl hd hh hs (hi.mono_right hFf), hu,
      disjoint_union_left.mpr ⟨hi.mono_right hG', hdi⟩, union_subset hFh (hFf.trans hG), hG'.trans hG, ?_,
      he⟩
    rw [List.length_cons]
    omega

end

end Xrpld.SHAMap
