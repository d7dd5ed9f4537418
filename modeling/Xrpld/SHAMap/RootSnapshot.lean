import Xrpld.SHAMap.FailedMutation
import Xrpld.SHAMap.SyncTree

/-!
# Snapshots that share the root

`share_root_snapshot` gives a second tree the root of the first. A root that has been changed
has no hash, and is given one first: the hash of the hashes its branches store. A branch that
has been changed stores none.

## The model

`Stale` says that a node stands for a tree of items while some of it waits to be hashed: where a
hash is stored it is right, and a child that is not loaded has one.

## What is proved

`hash` makes up for everything that waits (`hashes_recomputeHashesRecursive`), as long as the root has no
hash. So a snapshot keeps the map just when the root has its hash already or every branch
of the root stores one (`keepsMap_iff`). Otherwise both trees report a hash that is no map's.
-/

namespace Xrpld.SHAMap

open Option SHAMapTreeNode

variable {ε : Type} {d levels : ℕ} {hash hash' : SHAMapHash}

section

variable (sha : Sha)

/-- A hash that waits to be computed, or is right. -/
def ClearOr (hash right : SHAMapHash) : Prop := hash = 0 ∨ hash = right

/-- **A node stands for a tree, some of it not yet hashed**: the hash of a node and of a branch is zero or right, and a
child that is not loaded has its hash. -/
def Stale (h : Heap) : MapTree → Ref → Prop
  | .empty, _ => False
  | .leaf leaf, r => ∃ hash cowid, h.node r = ⟨hash, cowid, .leaf leaf.type leaf.item⟩ ∧
      ClearOr hash (leaf.hash sha)
  | .inner child, r => ∃ hash cowid g slots, h.node r = ⟨hash, cowid, .inner g slots⟩ ∧
      ClearOr hash (treeHash sha (.inner child)) ∧
      ∀ b, (slots b = none ∧ child b = .empty) ∨
        ∃ hash c, slots b = some ⟨hash, c⟩ ∧ child b ≠ .empty ∧ ClearOr hash (treeHash sha (child b)) ∧
          ((c = none ∧ hash = treeHash sha (child b)) ∨ ∃ q, c = some q ∧ Stale h (child b) q)

/-- What the last clause says of the slots of a node. -/
def StaleSlots (h : Heap) (child : Branch → MapTree) (slots : Branch → Option Slot) : Prop :=
  ∀ b, (slots b = none ∧ child b = .empty) ∨
    ∃ hash c, slots b = some ⟨hash, c⟩ ∧ child b ≠ .empty ∧ ClearOr hash (treeHash sha (child b)) ∧
      ((c = none ∧ hash = treeHash sha (child b)) ∨ ∃ q, c = some q ∧ Stale sha h (child b) q)

/-- The same of a node that need not be in the heap. -/
def StaleNode (h : Heap) (n : SHAMapTreeNode) : MapTree → Prop
  | .empty => False
  | .leaf leaf => ∃ hash cowid, n = ⟨hash, cowid, .leaf leaf.type leaf.item⟩ ∧ ClearOr hash (leaf.hash sha)
  | .inner child => ∃ hash cowid g slots, n = ⟨hash, cowid, .inner g slots⟩ ∧
      ClearOr hash (treeHash sha (.inner child)) ∧ StaleSlots sha h child slots

end

variable {sha : Sha} {h h' h'' : Heap} {t : MapTree} {r : Ref} {child : Branch → MapTree} {sl : Slots} {b : Branch}

/-- A hash that has been computed is right. -/
theorem Stale.hash_eq (hs : Stale sha h t r) (h0 : (h.node r).hash ≠ 0) : (h.node r).hash = treeHash sha t := by
  cases t with
  | empty => exact hs.elim
  | leaf leaf =>
    obtain ⟨hash, cw, hn, hc⟩ := hs
    rw [hn] at h0 ⊢
    exact hc.resolve_left h0
  | inner child =>
    obtain ⟨hash, cw, g, sl, hn, hc, -⟩ := hs
    rw [hn] at h0 ⊢
    exact hc.resolve_left h0

theorem Stale.staleSlots (hs : Stale sha h (.inner child) r) (hi : h.InnerAt r sl) : StaleSlots sha h child sl := by
  obtain ⟨hash, cw, g, sl', hn, -, hl⟩ := hs
  obtain rfl : sl = sl' := hi.unique ⟨_, _, _, hn⟩
  exact hl

theorem Stale.below (hs : Stale sha h (.inner child) r) {q : Ref} (hb : (h.node r).getChild b = some q) :
    Stale sha h (child b) q := by
  obtain ⟨hash, cw, g, sl, hn, -, hl⟩ := hs
  have hi : h.InnerAt r sl := ⟨_, _, _, hn⟩
  rw [hi.getChild] at hb
  rcases hl b with ⟨hno, -⟩ | ⟨hash, c, ho, -, -, ⟨rfl, -⟩ | ⟨q', rfl, hq⟩⟩
  · rw [hno] at hb
    cases hb
  · rw [ho] at hb
    cases hb
  · rw [ho] at hb
    cases hb
    exact hq

/-- **A node stands for trees of one hash only**, so hashing it for one place where it is used is right for all. -/
theorem Stale.hash_unique {t' : MapTree} (hs : Stale sha h t r) (hs' : Stale sha h t' r) :
    treeHash sha t = treeHash sha t' := by
  induction t generalizing r t' with
  | empty => exact hs.elim
  | leaf leaf =>
    obtain ⟨hash, cw, hn, -⟩ := hs
    cases t' with
    | empty => exact hs'.elim
    | leaf lf' =>
      obtain ⟨_, _, hn', -⟩ := hs'
      rw [hn, mk.injEq, NodeBody.leaf.injEq] at hn'
      rw [treeHash, treeHash, Leaf.hash, Leaf.hash, hn'.2.2.1, hn'.2.2.2]
    | inner ch' =>
      obtain ⟨_, _, _, _, hn', -⟩ := hs'
      rw [hn] at hn'
      cases hn'
  | inner child ih =>
    obtain ⟨hash, cw, g, sl, hn, -, hsl⟩ := hs
    cases t' with
    | empty => exact hs'.elim
    | leaf lf' =>
      obtain ⟨_, _, hn', -⟩ := hs'
      rw [hn] at hn'
      cases hn'
    | inner ch' =>
      have hl := hs'.staleSlots ⟨_, _, _, hn⟩
      have hm : ∀ b, child b = .empty ↔ ch' b = .empty := by
        intro b
        rcases hsl b with ⟨hno, he⟩ | ⟨_, _, hso, hne, -⟩
        · rcases hl b with ⟨-, he'⟩ | ⟨_, _, hso', -⟩
          · exact ⟨fun _ => he', fun _ => he⟩
          · rw [hno] at hso'
            cases hso'
        · rcases hl b with ⟨ho, -⟩ | ⟨_, _, -, hne', -⟩
          · rw [hso] at ho
            cases ho
          · exact ⟨fun he => absurd he hne, fun he => absurd he hne'⟩
      have hha : ∀ b, treeHash sha (child b) = treeHash sha (ch' b) := by
        intro b
        rcases hsl b with ⟨hno, he⟩ | ⟨hash, c, hso, hne, -, hc⟩
        · rw [he, (hm b).mp he]
        · rcases hl b with ⟨ho, -⟩ | ⟨hash', c', hso', -, -, hc'⟩
          · rw [hso] at ho
            cases ho
          · rw [hso] at hso'
            cases hso'
            rcases hc with ⟨rfl, hh⟩ | ⟨q, rfl, hq⟩
            · rcases hc' with ⟨-, hh'⟩ | ⟨q', hq', -⟩
              · exact hh.symm.trans hh'
              · cases hq'
            · rcases hc' with ⟨hq', -⟩ | ⟨q', hq', hs'⟩
              · cases hq'
              · cases hq'
                exact ih b hq hs'
      have ha : (∀ b, (child b).isEmpty) ↔ ∀ b, (ch' b).isEmpty :=
        forall_congr' fun b => by rw [Tree.isEmpty_iff, Tree.isEmpty_iff, hm b]
      simp only [treeHash, ha, hha]

/-! ### Hashing -/

variable (sha) in
/-- What hashing may do to the heap: every node still stands for what it stood for, with the same children, and a hash
that was right stays. -/
structure Settles (h h' : Heap) : Prop where
  stale : ∀ t r, Stale sha h t r → Stale sha h' t r
  hash : ∀ t r, Stale sha h t r → (h.node r).hash = treeHash sha t →
    (h'.node r).hash = treeHash sha t
  getChild : ∀ r b, (h'.node r).getChild b = (h.node r).getChild b

theorem Settles.refl (h : Heap) : Settles sha h h := ⟨fun _ _ h => h, fun _ _ _ h => h, fun _ _ => rfl⟩

theorem Settles.trans (h1 : Settles sha h h') (h2 : Settles sha h' h'') : Settles sha h h'' :=
  ⟨fun t r hs => h2.stale t r (h1.stale t r hs),
    fun t r hs hh => h2.hash t r (h1.stale t r hs) (h1.hash t r hs hh),
    fun r b => (h2.getChild r b).trans (h1.getChild r b)⟩

theorem Settles.staleSlots (hs : ∀ b q, Stale sha h (child b) q → Stale sha h' (child b) q)
    (hl : StaleSlots sha h child sl) : StaleSlots sha h' child sl := by
  intro b
  rcases hl b with hn | ⟨hash, c, ho, he, hc, hb | ⟨q, rfl, hq⟩⟩
  · exact .inl hn
  · exact .inr ⟨hash, c, ho, he, hc, .inl hb⟩
  · exact .inr ⟨hash, some q, ho, he, hc, .inr ⟨q, rfl, hs b q hq⟩⟩

/-- **Giving a node its hash** is right wherever the node is used. -/
theorem Settles.set {n : SHAMapTreeNode} (ht : Stale sha h t r) (ha : n.hash = treeHash sha t)
    (hn : ∀ u, Stale sha h u r → StaleNode sha h n u)
    (hg : ∀ b, n.getChild b = (h.node r).getChild b) : Settles sha h (h.set r n) := by
  refine ⟨fun u => ?_, fun u q hu hh => ?_, fun q b => ?_⟩
  · induction u with
    | empty => exact fun q hq => hq
    | leaf leaf =>
      intro q hq
      by_cases hr : q = r
      · subst hr
        obtain ⟨hash, cw, rfl, hc⟩ := hn _ hq
        exact ⟨hash, cw, node_set_self .., hc⟩
      · obtain ⟨hash, cw, hq, hc⟩ := hq
        exact ⟨hash, cw, by rw [node_set_of_ne hr, hq], hc⟩
    | inner child ih =>
      intro q hq
      by_cases hr : q = r
      · subst hr
        obtain ⟨hash, cw, g, sl, rfl, hc, hs⟩ := hn _ hq
        exact ⟨hash, cw, g, sl, node_set_self .., hc, Settles.staleSlots ih hs⟩
      · obtain ⟨hash, cw, g, sl, hq, hc, hs⟩ := hq
        exact ⟨hash, cw, g, sl, by rw [node_set_of_ne hr, hq], hc, Settles.staleSlots ih hs⟩
  · by_cases hr : q = r
    · subst hr
      rw [node_set_self, ha, ht.hash_unique hu]
    · rw [node_set_of_ne hr, hh]
  · by_cases hr : q = r
    · subst hr
      rw [node_set_self, hg]
    · rw [node_set_of_ne hr]

/-- A leaf is hashed. -/
theorem Settles.leaf {leaf : Leaf} (ht : Stale sha h (.leaf leaf) r) :
    Settles sha h (h.set r ((h.node r).updateHash sha)) ∧ ((h.node r).updateHash sha).hash = leaf.hash sha := by
  obtain ⟨hash, cw, hn, hc⟩ := id ht
  have hp : (h.node r).updateHash sha = ⟨leaf.hash sha, cw, .leaf leaf.type leaf.item⟩ := by
    rw [hn]
    rfl
  refine ⟨.set ht (by rw [hp]; rfl) (fun u hu => ?_) fun b => by rw [hp, hn]; rfl, by rw [hp]⟩
  have hun := ht.hash_unique hu
  rw [hp]
  cases u with
  | empty => exact hu.elim
  | leaf lf' =>
    obtain ⟨_, _, hn', -⟩ := hu
    rw [hn, mk.injEq] at hn'
    exact ⟨leaf.hash sha, cw, by rw [hn'.2.2], .inr hun⟩
  | inner child =>
    obtain ⟨_, _, _, _, hn', -⟩ := hu
    rw [hn] at hn'
    cases hn'

/-- The children of a node have their hashes. -/
def ChildrenHashed (sha : List UInt8 → Uint256) (h : Heap) (child : Branch → MapTree) (r : Ref)
    (bs : List Branch) : Prop :=
  ∀ b ∈ bs, ∀ q, (h.node r).getChild b = some q → (h.node q).hash = treeHash sha (child b)

/-- A slot of a node whose children have their hashes. -/
theorem StaleSlots.refreshSlots (hs : StaleSlots sha h child sl) (hi : h.InnerAt r sl)
    (hc : ChildrenHashed sha h child r (List.finRange 16)) (b : Branch) :
    (sl b = none ∧ refreshSlots h sl b = none ∧ child b = .empty) ∨
      ∃ hash c, sl b = some ⟨hash, c⟩ ∧ refreshSlots h sl b = some ⟨treeHash sha (child b), c⟩ ∧ child b ≠ .empty := by
  rcases hs b with ⟨hn, he⟩ | ⟨hash, c, ho, hne, -, ⟨rfl, hh⟩ | ⟨q, rfl, hq⟩⟩
  · exact .inl ⟨hn, by rw [SHAMap.refreshSlots, hn, map_none], he⟩
  · exact .inr ⟨hash, none, ho, by rw [SHAMap.refreshSlots, ho, map_some, hh], hne⟩
  · refine .inr ⟨hash, some q, ho, ?_, hne⟩
    rw [SHAMap.refreshSlots, ho, map_some]
    exact congrArg (fun hash => some (Slot.mk hash (some q)))
      (hc b (List.mem_finRange b) q (by rw [hi.getChild, ho]; rfl))

/-- An inner node is hashed, once its children are. -/
theorem wp_updateHashDeep {Q : Unit → Heap → Prop} {E : ε → Heap → Prop} {P : Fault → Prop}
    (ht : Stale sha h (.inner child) r) (hch : ChildrenHashed sha h child r (List.finRange 16))
    (hQ : ∀ h', Settles sha h h' → (h'.node r).hash = treeHash sha (.inner child) → Q () h') :
    wp (updateHashDeep sha r) Q E P h := by
  obtain ⟨hash, cw, g, sl, hn, -, hs⟩ := id ht
  have hi : h.InnerAt r sl := ⟨_, _, _, hn⟩
  have hr := StaleSlots.refreshSlots hs hi hch
  have ha : computeInnerHash sha (SHAMap.refreshSlots h sl) = treeHash sha (.inner child) := by
    refine computeInnerHash_of_slots fun b => ?_
    rcases hr b with ⟨-, hno, he⟩ | ⟨_, c, -, hso, hne⟩
    · exact .inl ⟨hno, he⟩
    · exact .inr ⟨c, hso, hne⟩
  simp only [updateHashDeep, wp_bind, wp_read, hn, store, wp_update, ha]
  refine hQ _ (.set ht rfl (fun u hu => ?_) fun b => ?_) (by rw [node_set_self])
  · -- for any other tree the node stands for, its hash and those of its children are the same
    have hun := ht.hash_unique hu
    cases u with
    | empty => exact hu.elim
    | leaf leaf =>
      obtain ⟨_, _, hn', -⟩ := hu
      rw [hn] at hn'
      cases hn'
    | inner ch' =>
      refine ⟨_, cw, g, _, rfl, .inr hun, fun b => ?_⟩
      rcases hu.staleSlots hi b with ⟨hno, he⟩ | ⟨hash', c, hso, hne, -, hc⟩
      · exact .inl ⟨by rw [SHAMap.refreshSlots, hno, map_none], he⟩
      · rcases hr b with ⟨hno, -⟩ | ⟨_, c', ho, hl, -⟩
        · rw [hso] at hno
          cases hno
        · rw [hso] at ho
          cases ho
          have hm : treeHash sha (child b) = treeHash sha (ch' b) := by
            rcases hc with ⟨rfl, hh⟩ | ⟨q, rfl, hq⟩
            · rw [SHAMap.refreshSlots, hso, map_some, some.injEq, Slot.mk.injEq] at hl
              exact hl.1.symm.trans hh
            · exact (ht.below (by rw [hi.getChild, hso]; rfl)).hash_unique hq
          refine .inr ⟨_, c, hl, hne, .inr hm, ?_⟩
          rcases hc with ⟨rfl, -⟩ | hq
          · exact .inl ⟨rfl, hm⟩
          · exact .inr hq
  · rw [hi.getChild]
    show (SHAMap.refreshSlots h sl b).bind Slot.child = _
    rcases hr b with ⟨hno, hl, -⟩ | ⟨_, c, hso, hl, -⟩
    · rw [hno, hl]
    · rw [hso, hl]
      rfl

/-- What hashing a node with all that is below it does. -/
def Hashes {ε : Type} (sha : List UInt8 → Uint256) (t : MapTree) (p : Ref → HeapM ε Unit) : Prop :=
  ∀ (h : Heap) (r : Ref), Stale sha h t r → wp (p r)
    (fun _ h' => Settles sha h h' ∧ (h'.node r).hash = treeHash sha t) (fun _ _ => False) (fun _ => False) h

/-- **The children of a node are hashed** one after another. -/
theorem wp_recomputeBranches {recompute : Ref → HeapM ε Unit}
    (hr : ∀ b, child b ≠ .empty → Hashes sha (child b) recompute) (ht : Stale sha h (.inner child) r)
    (bs : List Branch) : wp (recomputeBranches recompute r bs)
      (fun _ h' => Settles sha h h' ∧ ChildrenHashed sha h' child r bs) ⊥ ⊥ h := by
  induction bs generalizing h with
  | nil => exact ⟨.refl h, fun b hb => absurd hb List.not_mem_nil⟩
  | cons b bs ih =>
    -- the rest of the loop, once the child of this branch has its hash
    have hre : ∀ h1, Settles sha h h1 →
        (∀ q, (h.node r).getChild b = some q → (h1.node q).hash = treeHash sha (child b)) →
        wp (recomputeBranches recompute r bs) (fun _ h' => Settles sha h h' ∧
          ChildrenHashed sha h' child r (b :: bs)) ⊥ ⊥ h1 := by
      intro h1 hs hb
      refine wp_imp (ih (hs.stale _ _ ht)) ?_
      rintro - h2 ⟨hs2, hch⟩
      refine ⟨hs.trans hs2, fun b' hb' q hq => ?_⟩
      rcases List.mem_cons.mp hb' with rfl | hb'
      · rw [(hs.trans hs2).getChild] at hq
        exact hs2.hash _ _ (hs.stale _ _ (ht.below hq)) (hb q hq)
      · exact hch b' hb' q hq
    simp only [recomputeBranches, deref, wp_bind, wp_read, wp_pure]
    cases hc : (h.node r).getChild b with
    | none => exact hre h (.refl h) fun q hq => by rw [hc] at hq; cases hq
    | some q =>
      have hq := ht.below hc
      have hn : child b ≠ .empty := by
        intro he
        rw [he] at hq
        exact hq
      simp only [wp_bind, wp_read, wp_pure, wp_when, decide_eq_true_eq, decide_eq_false_iff_not]
      refine ⟨fun _ => ?_, fun h0 => ?_⟩
      · refine wp_imp (hr b hn h q hq) ?_
        rintro - h1 ⟨hs, hh⟩
        refine hre h1 hs fun q' hq' => ?_
        rw [hc] at hq'
        cases hq'
        exact hh
      · refine hre h (.refl h) fun q' hq' => ?_
        rw [hc] at hq'
        cases hq'
        exact hq.hash_eq h0

/-- **`recompute_hashes_recursive` gives a node its hash**, whatever waits to be hashed below it. -/
theorem hashes_recomputeHashesRecursive (hb : t.Bounded radix d) (hd : d ≤ leafDepth)
    (hl : leafDepth < d + levels) : Hashes (ε := ε) sha t (recomputeHashesRecursive sha levels) := by
  induction levels generalizing t d with
  | zero => omega
  | succ levels ih =>
    intro h r ht
    simp only [recomputeHashesRecursive, deref, wp_bind, wp_read, wp_pure]
    cases t with
    | empty => exact ht.elim
    | leaf leaf =>
      obtain ⟨hash, cw, hn, -⟩ := id ht
      have hf : (h.node r).isInner = false := by rw [hn]; rfl
      simp only [hf, Bool.false_eq_true, if_false, wp_when, decide_eq_true_eq, decide_eq_false_iff_not, store,
        wp_update]
      refine ⟨fun _ => ?_, fun h0 => ⟨.refl h, ht.hash_eq h0⟩⟩
      obtain ⟨hs, hh⟩ := Settles.leaf ht
      exact ⟨hs, by rw [node_set_self, hh]; rfl⟩
    | inner child =>
      obtain ⟨hlt, hb⟩ := hb
      obtain ⟨hash, cw, g, sl, hn, -⟩ := id ht
      have hi : (h.node r).isInner := by rw [hn]; rfl
      simp only [hi, if_true, wp_bind]
      refine wp_imp (wp_recomputeBranches (fun b _ => ih (hb b) hlt (by omega)) ht _) ?_
      rintro - h1 ⟨hs1, hc⟩
      exact wp_updateHashDeep (hs1.stale _ _ ht) hc fun h2 hs2 hh => ⟨hs1.trans hs2, hh⟩

/-! ### Snapshots -/

section

variable (sha : Sha) (levels : ℕ)

/-- `hash` returns a hash. -/
def HashGives (h : Heap) (tree : SyncTree) (hash : SHAMapHash) : Prop :=
  wp (tree.hash (ε := Empty) sha levels) (fun x _ => x = hash) (fun _ _ => False) (fun _ => False) h

/-- **A snapshot keeps the map**: it has the items the tree has, its hash is that of the map, and the tree has the hash
it had without the snapshot. -/
def KeepsMap (type : LeafType) (m : PlainMap) (h : Heap) (tree : SyncTree) : Prop :=
  wp (tree.shareRootSnapshot (ε := Empty) sha) (fun snapshot h' =>
    (∀ D n key, contents D h' n snapshot.root key = contents D h n tree.root key) ∧
      HashGives sha levels h' snapshot (mapHash sha type m) ∧
      ∀ hash, HashGives sha levels h tree hash → HashGives sha levels h' tree hash)
    (fun _ _ => False) (fun _ => False) h

/-- The root has its hash, or each of its branches stores one. -/
def RootHashed (h : Heap) (root : Ref) : Prop :=
  (h.node root).hash ≠ 0 ∨ ∀ b, (h.node root).slots b ≠ none → (h.node root).getChildHash b ≠ 0

end

variable {tree : SyncTree} {type : LeafType} {m : PlainMap} {S : Set (List UInt8)}

theorem HashGives.unique (hg : HashGives sha levels h tree hash) (hg' : HashGives sha levels h tree hash') : hash = hash' := by
  obtain ⟨x, -, -, hx, hx'⟩ := returns_of_wp
    (wp_mono (wp_and hg hg') (fun _ _ h => h) (fun _ _ h => h.1) fun _ h => h.1)
  exact hx.symm.trans hx'

/-- **`hash` returns the hash of the map**, whatever waits to be hashed. -/
theorem Stale.hashGives (ht : Stale sha h (.inner child) tree.root) (hc : Tree.Children radix 0 child)
    (hl : leafDepth < levels) : HashGives sha levels h tree (treeHash sha (.inner child)) := by
  simp only [HashGives, SyncTree.hash, deref, wp_bind, wp_read, wp_pure, wp_ite]
  refine ⟨fun h0 => ht.hash_eq h0, fun _ => ?_⟩
  refine wp_imp (hashes_recomputeHashesRecursive (hc.bounded (by decide)) (Nat.zero_le _) (by omega) h _ ht) ?_
  exact fun _ h' hp => hp.2

/-- Hashing the root changes no items. -/
theorem contents_updateHash (D : Stored) (n : ℕ) (q : Ref) (key : Uint256) :
    contents D (h.set r ((h.node r).updateHash sha)) n q key = contents D h n q key := by
  induction n generalizing q with
  | zero => rfl
  | succ n ih =>
    have hb : ((h.set r ((h.node r).updateHash sha)).node q).body = (h.node q).body := by
      by_cases hq : q = r
      · subst hq
        rw [node_set_self, updateHash]
        split <;> rfl
      · rw [node_set_of_ne hq]
    simp only [contents, hb, ih]

/-- A tree that holds something has a hash. -/
theorem treeHash_ne_zero (hS : CollisionFree sha S) (hc : Tree.Canon radix d t) (ht : HashedIn sha S t)
    (hne : t ≠ .empty) : treeHash sha t ≠ 0 := by
  cases t with
  | empty => exact absurd rfl hne
  | leaf leaf => exact hS.ne_zero _ ht
  | inner child =>
    have hn : ¬ ∀ b, child b = .empty := by
      intro he
      obtain ⟨-, leaf, ⟨b, hl⟩, -⟩ := hc
      rw [he b] at hl
      exact hl
    rw [treeHash_inner _ hn]
    exact hS.ne_zero _ (ht.1 hn)

/-- The root of a stale tree, as `share_root_snapshot` leaves it. -/
theorem Stale.wp_shareRootSnapshot {Q : SyncTree → Heap → Prop} (ht : Stale sha h (.inner child) tree.root) :
    wp (tree.shareRootSnapshot (ε := Empty) sha) Q (fun _ _ => False) (fun _ => False) h ↔
      ((h.node tree.root).hash ≠ 0 → Q { tree with state := .modifying } h) ∧ ((h.node tree.root).hash = 0 →
        Q { tree with state := .modifying } (h.set tree.root ((h.node tree.root).updateHash sha))) := by
  obtain ⟨hash, cw, g, sl, hn, -⟩ := ht
  have hi : (h.node tree.root).isInner := by rw [hn]; rfl
  simp only [SyncTree.shareRootSnapshot, deref, wp_bind, wp_read, wp_pure, hi, Bool.and_true,
    wp_when, decide_eq_true_eq, decide_eq_false_iff_not, store, wp_update, ne_eq]
  exact And.comm

/-- With the hashes of its branches the root is given the right one. -/
theorem keepsMap_of_rootHashed (hm : IsTreeOf type m child) (ht : Stale sha h (.inner child) tree.root)
    (hl : leafDepth < levels) (hr : RootHashed h tree.root) : KeepsMap sha levels type m h tree := by
  rw [KeepsMap, ht.wp_shareRootSnapshot, hm.mapHash_eq]
  refine ⟨fun _ => ⟨fun _ _ _ => rfl, ht.hashGives hm.children hl, fun _ hg => hg⟩, fun h0 => ?_⟩
  have ho := hr.resolve_left fun he => he h0
  obtain ⟨hash, cw, g, sl, hn, -, hsl⟩ := id ht
  have hi : h.InnerAt tree.root sl := ⟨_, _, _, hn⟩
  have hrg : computeInnerHash sha sl = treeHash sha (.inner child) := by
    refine computeInnerHash_of_slots fun b => ?_
    rcases hsl b with hno | ⟨hash, c, hso, he, hc, -⟩
    · exact .inl hno
    · have h0 := ho b (by rw [hi.slots_eq, hso]; exact some_ne_none _)
      rw [hi.getChildHash, slotHash_some hso] at h0
      exact .inr ⟨c, by rw [hso, hc.resolve_left h0], he⟩
  have hp : (h.node tree.root).updateHash sha = ⟨treeHash sha (.inner child), cw, .inner g sl⟩ := by
    rw [hn, ← hrg]
    rfl
  have hs : Settles sha h (h.set tree.root ((h.node tree.root).updateHash sha)) := by
    refine .set ht (by rw [hp]) (fun u hu => ?_) fun b => by rw [hp, hn]; rfl
    rw [hp, ht.hash_unique hu]
    cases u with
    | empty => exact hu.elim
    | leaf leaf =>
      obtain ⟨_, _, hn', -⟩ := hu
      rw [hn] at hn'
      cases hn'
    | inner ch' => exact ⟨_, cw, g, sl, rfl, .inr rfl, hu.staleSlots hi⟩
  have hgi := (hs.stale _ _ ht).hashGives hm.children hl
  refine ⟨fun D n key => contents_updateHash D n tree.root key, hgi, fun hash hg => ?_⟩
  rw [hg.unique (ht.hashGives hm.children hl)]
  exact hgi

/-- A branch without a hash makes the root's hash wrong. -/
theorem rootHashed_of_keepsMap (hm : IsTreeOf type m child) (ht : Stale sha h (.inner child) tree.root)
    (hS : CollisionFree sha S) (hin : HashedIn sha S (.inner child))
    (hr : (h.node tree.root).bytes ∈ S) (hk : KeepsMap sha levels type m h tree) : RootHashed h tree.root := by
  rw [KeepsMap, ht.wp_shareRootSnapshot, hm.mapHash_eq] at hk
  refine or_iff_not_imp_left.mpr fun h0 b hb hz => ?_
  obtain ⟨-, hg, -⟩ := hk.2 (not_not.mp h0)
  obtain ⟨hash, cw, g, sl, hn, -, hsl⟩ := id ht
  have hi : h.InnerAt tree.root sl := ⟨_, _, _, hn⟩
  rw [hi.slots_eq] at hb
  rw [hi.getChildHash] at hz
  have hne : child b ≠ .empty := by
    rcases hsl b with ⟨hno, -⟩ | ⟨_, _, -, hne, -⟩
    · exact absurd hno hb
    · exact hne
  have ho : ¬ ∀ b, child b = .empty := fun he => hne (he b)
  -- the root is given the hash of its slots, and `hash` returns it
  have hs : ¬ (setBranches sl).isEmpty := by
    intro hl
    have := mem_setBranches.mpr hb
    rw [List.isEmpty_iff.mp hl] at this
    cases this
  have hy : (h.node tree.root).bytes = innerBytes (slotHash sl) := by rw [hn]; rfl
  have hu : ((h.node tree.root).updateHash sha).hash = sha (innerBytes (slotHash sl)) := by
    rw [hn]
    exact if_neg hs
  rw [hy] at hr
  simp only [HashGives, SyncTree.hash, deref, wp_bind, wp_read, wp_pure, node_set_self, hu, wp_ite] at hg
  have hsm := hg.1 (hS.ne_zero _ hr)
  rw [treeHash_inner _ ho] at hsm
  have hh := congrFun (innerBytes_injective (hS.inj hr (hin.1 ho) hsm)) b
  rw [hz] at hh
  exact treeHash_ne_zero hS (hm.children b).1 (hin.2 b) hne hh.symm

/-- **A snapshot keeps the map just when the root can be hashed from what its branches store**: the root has its hash
already, or no branch of it waits for one. -/
theorem keepsMap_iff (hm : IsTreeOf type m child) (ht : Stale sha h (.inner child) tree.root)
    (hS : CollisionFree sha S) (hin : HashedIn sha S (.inner child))
    (hroot : (h.node tree.root).bytes ∈ S) (hlevels : leafDepth < levels) :
    KeepsMap sha levels type m h tree ↔ RootHashed h tree.root :=
  ⟨rootHashed_of_keepsMap hm ht hS hin hroot, keepsMap_of_rootHashed hm ht hlevels⟩

/-! ### A root that has been changed -/

namespace SmallMap

variable (m : SmallMap)

/-- The bytes of an inner node none of whose branches has a hash. -/
def staleBytes : List UInt8 := innerBytes fun _ => 0

/-- What SHA-512 makes of them. -/
def staleHash : SHAMapHash :=
  ⟨[0x0A, 0xD3, 0xC1, 0x82, 0xB3, 0x62, 0xBE, 0xA4, 0x52, 0x91, 0x80, 0xE0, 0xC2, 0xB7, 0xD6, 0x24, 0x6A, 0xC7, 0x74, 0xAB,
    0x13, 0x0C, 0xF8, 0x26, 0x73, 0xE3, 0xD8, 0xFF, 0x61, 0x5F, 0x9C, 0x8F], rfl⟩

/-- SHA-512 on the bytes of the map, and on those of its root while that waits to be hashed. -/
def staleSha (bytes : List UInt8) : Uint256 := if bytes = staleBytes then staleHash else m.sha512Half bytes

/-- The map just after its leaf was added: the branch of the root stores `hash`, the root has none. -/
def changedHeap (hash : SHAMapHash) : Heap where
  next := 2
  node := fun r =>
    if r = 0 then ⟨0, 1, .inner 0 fun b => if b = m.branch then some ⟨hash, some 1⟩ else none⟩
    else ⟨m.leafHash, 1, .leaf .accountState m.item⟩
  calls := 0

theorem staleSha_leaf : m.staleSha m.leafBytes = m.leafHash := by
  have hn : m.leafBytes ≠ staleBytes := serializeLeafWithPrefix_ne_innerBytes _ _ _
  rw [staleSha, if_neg hn, m.sha512Half_leaf]

theorem staleSha_root : m.staleSha m.rootBytes = m.rootHash := by
  have hn : m.rootBytes ≠ staleBytes := by
    intro he
    have := congrFun (innerBytes_injective he) m.branch
    rw [if_pos rfl] at this
    exact m.leafHash_ne this
  rw [staleSha, if_neg hn, m.sha512Half_root]

theorem staleSha_stale : m.staleSha staleBytes = staleHash := if_pos rfl

theorem staleTreeHash_child (b : Branch) :
    treeHash m.staleSha (Tree.single m.branch (.leaf m.leaf) b) = if b = m.branch then m.leafHash else 0 := by
  rw [single_apply]
  split
  · exact m.staleSha_leaf
  · rfl

theorem isTreeOf : IsTreeOf .accountState (PlainMap.empty.insert m.item) (Tree.single m.branch (.leaf m.leaf)) := by
  obtain ⟨child, hp, ht⟩ := (IsTreeOf.empty .accountState).insert m.item
  cases hp
  exact ht

theorem stale (hc : ClearOr hash m.leafHash) : Stale m.staleSha (m.changedHeap hash) m.tree 0 := by
  refine ⟨0, 1, 0, _, rfl, .inl rfl, fun b => ?_⟩
  rw [staleTreeHash_child, single_apply]
  by_cases hb : b = m.branch
  · simp only [if_pos hb]
    exact .inr ⟨hash, some 1, rfl, nofun, hc, .inr ⟨1, rfl, m.leafHash, 1, rfl, .inr m.staleSha_leaf.symm⟩⟩
  · simp [if_neg hb]

theorem stale_hashedIn : HashedIn m.staleSha {m.leafBytes, m.rootBytes, staleBytes} m.tree := by
  refine ⟨fun _ => .inr (.inl ?_), fun b => ?_⟩
  · simp only [staleTreeHash_child]
    rfl
  · rw [single_apply]
    split
    · exact .inl rfl
    · trivial

end SmallMap

theorem sampleMap_collisionFree : CollisionFree sampleMap.staleSha
    {sampleMap.leafBytes, sampleMap.rootBytes, SmallMap.staleBytes} where
  inj := by
    rintro x (rfl | rfl | rfl) y (rfl | rfl | rfl) h <;>
      simp only [SmallMap.staleSha_leaf, SmallMap.staleSha_root, SmallMap.staleSha_stale] at h <;>
      first | rfl | exact absurd h (by decide)
  ne_zero := by
    rintro x (rfl | rfl | rfl)
    · rw [SmallMap.staleSha_leaf]
      decide
    · rw [SmallMap.staleSha_root]
      decide
    · rw [SmallMap.staleSha_stale]
      decide

/-- The tree of the small map that has been changed. -/
def sampleTree : SyncTree := ⟨0, .state, true, 1, .modifying⟩

/-- A root that was changed while its branch has its hash: the snapshot keeps the map. -/
theorem keepsMap_iff_sample : RootHashed (sampleMap.changedHeap sampleMap.leafHash) 0 ∧
      (KeepsMap sampleMap.staleSha 65 .accountState (PlainMap.empty.insert sampleMap.item)
        (sampleMap.changedHeap sampleMap.leafHash) sampleTree ↔
          RootHashed (sampleMap.changedHeap sampleMap.leafHash) 0) :=
  ⟨.inr (by decide), keepsMap_iff sampleMap.isTreeOf (sampleMap.stale (.inr rfl)) sampleMap_collisionFree
    sampleMap.stale_hashedIn (.inr (.inl (by decide +kernel))) (by decide)⟩

/-- A branch that was changed: the snapshot and the tree report the hash of a root without the branch's hash. -/
theorem not_keepsMap_changed :
    ¬ ∀ (sha : List UInt8 → Uint256) (S : Set (List UInt8)) (levels : ℕ) (type : LeafType) (m : PlainMap)
      (child : Branch → MapTree) (h : Heap) (tree : SyncTree), IsTreeOf type m child →
      Stale sha h (.inner child) tree.root → CollisionFree sha S → HashedIn sha S (.inner child) →
      (h.node tree.root).bytes ∈ S → leafDepth < levels → KeepsMap sha levels type m h tree := by
  intro hc
  have hb : ((sampleMap.changedHeap 0).node sampleTree.root).bytes ∈
      ({sampleMap.leafBytes, sampleMap.rootBytes, SmallMap.staleBytes} : Set (List UInt8)) :=
    .inr (.inr (by decide +kernel))
  have hs : Stale sampleMap.staleSha (sampleMap.changedHeap 0) sampleMap.tree sampleTree.root :=
    sampleMap.stale (.inl rfl)
  have hk := hc _ _ 65 _ _ _ _ sampleTree sampleMap.isTreeOf hs sampleMap_collisionFree
    sampleMap.stale_hashedIn hb (by decide)
  have hr := rootHashed_of_keepsMap sampleMap.isTreeOf hs sampleMap_collisionFree sampleMap.stale_hashedIn hb
    hk
  rcases hr with h0 | hl
  · exact h0 rfl
  · exact hl sampleMap.branch (by decide) (by decide)

end Xrpld.SHAMap
