import Xrpld.SHAMap.MutationSpec
import Xrpld.SHAMap.Flush
import Xrpld.SHAMap.Codec

/-!
# Hashing and flushing a tree

`unshare` walks over the nodes a tree owns, from the leaves up: each is hashed from the
hashes of its children and then given up, so that its `cowid` is zero. A node of another
tree is copied first, and one that is shared already has its hash. A flush does the same and hands
each node to a writer.

## The model

`dirty` lists the nodes that are not shared, from the leaves up. `Takes` is what a walk needs of its way to
take a node, `Serves` what it needs of the writer, and `Wrote` what the writer was asked for.

## What is proved

A walk asks the writer for the dirty nodes in the order of the list, each ready to be written, and what it leaves
stands for the same tree (`flushes_flushNode`, `wp_tryWalkSubtreeImpl`, `wp_tryWalkSubtreeDetachedImpl`). After
`unshare` the root has the hash of the tree of items (`wp_unshareTree`), whatever was done to the tree before.
-/

namespace Xrpld.SHAMap

open Function (update update_self update_of_ne update_eq_self update_idem)
open List Nat Option Bool Set SHAMapTreeNode Prod Changes

variable {sha : Sha} {stored : MapStore} {h : Heap} {c : ℕ}
  {t u : MapTree} {r : Ref} {F : Set Ref} {child : Branch → MapTree} {b : Branch} {ε : Type}
  {E : ε → Heap → Prop} {P : Fault → Prop}

variable {q r' : Ref} {wr : Option (Writer ε)} {h₀ : Heap} {lv : ℕ}

/-- A shared node has its hash, and so has any leaf. -/
theorem Held.hash_eq (hl : Held sha stored h c t r F) (h0 : (h.node r).cowid = 0) :
    (h.node r).hash = treeHash sha t := by
  cases t with
  | empty => exact hl.elim
  | leaf leaf =>
    obtain ⟨-, cw, hn, -⟩ := hl
    rw [hn]
    rfl
  | inner child =>
    obtain ⟨-, hash, cw, g, sl, hn, hh, -⟩ := hl
    rw [hn] at h0 ⊢
    exact hh h0

/-! ### The children of a node -/

/-- The children outside a list of branches are shared. -/
def SharedOutside (h : Heap) (r : Ref) (bs : List Branch) : Prop :=
  ∀ b ∉ bs, ∀ q, (h.node r).getChild b = some q → (h.node q).cowid = 0

theorem Held.getChild (hl : Held sha stored h c (.inner child) r F) (hb : (h.node r).getChild b = some q) :
    ∃ Fh G hash sl, Hole sha stored h c child b r Fh ∧ h.InnerAt r sl ∧ sl b = some ⟨hash, some q⟩ ∧
      Held sha stored h c (child b) q G ∧ Fh ⊆ F ∧ G ⊆ F ∧ Disjoint Fh G := by
  obtain ⟨Fh, G, sl, hh, hi, hsl, hFh, hG, hd⟩ := hl.split b
  rw [hi.getChild] at hb
  obtain ⟨⟨hash, o⟩, hs, ho⟩ := bind_eq_some_iff.mp hb
  obtain rfl : o = some q := ho
  exact ⟨Fh, G, hash, sl, hh, hi, hs, hsl.loaded hs, hFh, hG, hd⟩

/-- What is below the other branches of a node with a hole. -/
theorem Hole.sibling {b' : Branch} (hh : Hole sha stored h c child b r F) (hb : b' ≠ b)
    (hq : (h.node r).getChild b' = some q) : ∃ G, Held sha stored h c (child b') q G ∧ G ⊆ F ∧ r ∉ G := by
  obtain ⟨-, sl, ⟨hash, cw, g, hn⟩, G, hG, -, hsl⟩ := hh
  obtain ⟨⟨hash', o⟩, hs, ho⟩ : ∃ slot, sl b' = some slot ∧ slot.child = some q := by
    rw [hn] at hq
    exact bind_eq_some_iff.mp hq
  obtain rfl : o = some q := ho
  exact ⟨G b', (hsl b' hb).loaded hs, hG b'⟩

/-! ### Taking a node -/

theorem wp_deref {f : SHAMapTreeNode → HeapM ε α} {Q : α → Heap → Prop} :
    wp (deref r >>= f) Q E P h ↔ wp (f (h.node r)) Q E P h := by
  simp only [deref, wp_bind, wp_read, wp_pure]

theorem SHAMapTreeNode.isLeaf_of_isEmpty {n : SHAMapTreeNode} (he : n.isEmpty) : n.isLeaf = false := by
  rw [isEmpty, and_eq_true] at he
  rw [isLeaf, he.1]
  rfl

variable (sha stored) in
/-- **A way to take a node of a tree**: what it gives is owned, stands for the same tree and has the same children.
`ok` is what the leaves must be for it. -/
def Takes (c : ℕ) (ok : Leaf → Prop) (take : Ref → HeapM ε Ref) : Prop :=
  ∀ (t : MapTree) (h : Heap) (r : Ref) (F : Set Ref) (Q : Ref → Heap → Prop) (E : ε → Heap → Prop) (P : Fault → Prop),
    (∀ leaf ∈ t, ok leaf) → Held sha stored h c t r F → (h.node r).cowid ≠ 0 →
    (∀ r' h' F', Changes c ∅ h h' → h'.calls = h.calls → (∀ b, (h'.node r').getChild b = (h.node r).getChild b) →
      Held sha stored h' c t r' F' → (h'.node r').cowid = c → F' ⊆ F ∪ {q | h.next ≤ q} → Q r' h') →
    wp (take r) Q E P h

variable {Q : Ref → Heap → Prop}

/-- A copy of a node. -/
theorem wp_cloneNode (hc : c ≠ 0) (hl : Held sha stored h c t r F) (hz : ∀ leaf, t = .leaf leaf → leaf.item.Sized)
    (hQ : ∀ r' h' F', Changes c ∅ h h' → h'.calls = h.calls → (∀ b, (h'.node r').getChild b = (h.node r).getChild b) →
      Held sha stored h' c t r' F' → (h'.node r').cowid = c → F' ⊆ F ∪ {q | h.next ≤ q} → Q r' h') :
    wp (cloneNode c r) Q E P h := by
  simp only [cloneNode, deref, wp_bind, wp_read, wp_pure]
  have hw : ∀ n : SHAMapTreeNode, n.cowid = c → Owns (h.alloc n) c h.next (insert h.next F) := by
    intro n hn
    refine ⟨by rw [node_alloc_next, hn], lt_succ_self _, fun _ => mem_insert _ _, fun q hq => ?_⟩
    rcases hq with rfl | hq
    · exact lt_succ_self _
    · exact lt_succ_of_lt (hl.owns.old q hq)
  have hs : insert h.next F ⊆ F ∪ {q | h.next ≤ q} := by
    intro q hq
    rcases hq with rfl | hq
    · exact .inr (Nat.le_refl _)
    · exact .inl hq
  cases t with
  | empty => exact hl.elim
  | leaf leaf =>
    obtain ⟨ho, cw, hn, -⟩ := hl
    have hcn : (h.node r).cloneWithCowid c = .ok ⟨leaf.hash sha, c, .leaf leaf.type leaf.item⟩ := by
      rw [hn]
      exact if_pos (hz leaf rfl)
    simp only [hcn, wp_lift_ok, allocate, wp_bind, wp_read, wp_update, wp_pure]
    refine hQ _ _ _ (alloc _ _ _ _) rfl (fun b => ?_) ⟨hw _ rfl, c, node_alloc_next ..,
      fun _ he => absurd rfl he⟩ (by rw [node_alloc_next]) hs
    rw [node_alloc_next, hn]
    rfl
  | inner child =>
    obtain ⟨ho, hash, cw, g, sl, hn, -, G, hG, hd, hsl⟩ := hl
    have hcn : (h.node r).cloneWithCowid c = .ok ⟨hash, c, .inner g sl⟩ := by rw [hn]; rfl
    simp only [hcn, wp_lift_ok, allocate, wp_bind, wp_read, wp_update, wp_pure]
    have hh : Changes c ∅ h (h.alloc ⟨hash, c, .inner g sl⟩) := alloc _ _ _ _
    refine hQ _ _ _ hh rfl (fun b => ?_) ⟨hw _ rfl, hash, c, g, sl, node_alloc_next ..,
      fun h0 => absurd h0 hc, G, fun b => ⟨(hG b).1.trans (subset_insert _ _), fun hm => ?_⟩, hd, fun b => ?_⟩
      (by rw [node_alloc_next]) hs
    · rw [node_alloc_next, hn]
      rfl
    · exact lt_irrefl _ (ho.old _ ((hG b).1 hm))
    · exact SlotFor.frame (hsl b) hh (disjoint_empty _)

theorem takes_cloneNode (hc : c ≠ 0) : Takes (ε := ε) sha stored c (fun leaf => leaf.item.Sized) (cloneNode c) :=
  fun _ _ _ _ _ _ _ hs hl _ hQ => wp_cloneNode hc hl (fun leaf ht => hs leaf (by rw [ht]; rfl)) hQ

/-- A node is copied unless the tree owns it. -/
theorem takes_preFlushNode (hc : c ≠ 0) : Takes (ε := ε) sha stored c ⊤ fun node => preFlushNode node c := by
  intro t h r F Q E P _ hl h0 hQ
  simp only [preFlushNode, deref, wp_bind, wp_read, wp_pure]
  by_cases ho : (h.node r).cowid = c
  · simp only [ho, if_true]
    exact hQ r h F (refl _ _ _) rfl (fun _ => rfl) hl ho subset_union_left
  · simp only [ho, if_false]
    refine wp_cloneNode hc hl (fun leaf ht => ?_) hQ
    subst ht
    obtain ⟨-, cw, hn, hs⟩ := hl
    rw [hn] at h0 ho
    exact hs h0 ho

/-! ### Writing a node -/

/-- The bytes of a tree that its hash is of. -/
def treeBytes (sha : List UInt8 → Uint256) : MapTree → List UInt8
  | .empty => []
  | .leaf leaf => serializeLeafWithPrefix leaf.type leaf.item
  | .inner child => innerBytes fun b => treeHash sha (child b)

theorem treeHash_eq_bytes (hn : t ≠ .empty) (ht : t.Filled) : treeHash sha t = sha (treeBytes sha t) := by
  cases t with
  | empty => exact absurd rfl hn
  | leaf leaf => rfl
  | inner child =>
    obtain ⟨⟨b, hb⟩, -⟩ := ht
    exact treeHash_inner _ fun he => hb (he b)

variable (sha) in
/-- **A node that is ready to be written**: it is shared, and its hash and its bytes are those of its tree. -/
structure Written (h : Heap) (r : Ref) (t : MapTree) : Prop where
  cowid : (h.node r).cowid = 0
  hash : (h.node r).hash = treeHash sha t
  bytes : (h.node r).serializeWithPrefix = .ok (treeBytes sha t)

variable (sha stored) in
/-- **A writer that serves a walk**: asked for the trees of a list one after another, from the call number `i` on, it
keeps the node it is given, or a shared one that stands for the same tree, or it fails in a state where it may. -/
def Serves (writer : Option (Writer ε)) (E : ε → Heap → Prop) (c : ℕ) (h₀ : Heap) (i : ℕ) (ts : List MapTree) : Prop :=
  ∀ write, writer = some write → ∀ k t, ts[k]? = some t → ∀ h r F, h.calls = i + k → Changes c Set.univ h₀ h →
    Held sha stored h c t r F → Written sha h r t →
    (∃ r', write h r = .ok r' ∧ (r' = r ∨ (Held sha stored h c t r' ∅ ∧ (h.node r').cowid = 0))) ∨
      ∃ e, write h r = .error e ∧ E e { h with calls := h.calls + 1 }

variable (sha) in
/-- **What a writer was asked for**: the trees of a list one after another, from the call number `i` up to `j`, and it
answered each time. -/
structure Wrote (writer : Option (Writer ε)) (i : ℕ) (ts : List MapTree) (j : ℕ) : Prop where
  calls : j = if writer.isSome then i + ts.length else i
  answered : ∀ write, writer = some write → ∀ k t, ts[k]? = some t →
    ∃ h r, h.calls = i + k ∧ Written sha h r t ∧ ∃ r', write h r = .ok r'

section

variable {i j k : ℕ} {ts us : List MapTree}

theorem Wrote.nil (i : ℕ) : Wrote sha wr i [] i := by
  refine ⟨?_, fun _ _ k t hk => by cases hk⟩
  cases wr <;> rfl

theorem Wrote.append (h1 : Wrote sha wr i ts j) (h2 : Wrote sha wr j us k) : Wrote sha wr i (ts ++ us) k := by
  constructor
  · rw [h2.calls, h1.calls, length_append]
    split <;> omega
  · intro write hw n t hn
    subst hw
    rw [getElem?_append] at hn
    split at hn
    · exact h1.answered write rfl n t hn
    · next he =>
      obtain ⟨h, r, ha, hr⟩ := h2.answered write rfl _ t hn
      have hj : j = i + ts.length := h1.calls
      exact ⟨h, r, by omega, hr⟩

theorem Serves.left (hs : Serves sha stored wr E c h₀ i (ts ++ us)) : Serves sha stored wr E c h₀ i ts := by
  intro write hw k t hk
  exact hs write hw k t (by rw [List.getElem?_append_left (List.getElem?_eq_some_iff.mp hk).1]; exact hk)

theorem Serves.right (hs : Serves sha stored wr E c h₀ i (ts ++ us)) (hw : Wrote sha wr i ts j) :
    Serves sha stored wr E c h₀ j us := by
  intro write hr k t hk h r F ha
  subst hr
  have hj : j = i + ts.length := hw.calls
  refine hs write rfl (ts.length + k) t ?_ h r F (by omega)
  rw [List.getElem?_append_right (Nat.le_add_right _ _), Nat.add_sub_cancel_left]
  exact hk

/-- What is kept stands for the tree that was written. -/
theorem wp_tryMaybeWriteNode (hs : Serves sha stored wr E c h₀ h.calls [t])
    (hb : Changes c univ h₀ h) (hl : Held sha stored h c t r F) (hw : Written sha h r t)
    (hQ : ∀ r' h' F', Changes c ∅ h h' → Wrote sha wr h.calls [t] h'.calls → Held sha stored h' c t r' F' →
      (h'.node r').cowid = 0 → F' ⊆ F → Q r' h') : wp (tryMaybeWriteNode wr r) Q E P h := by
  cases wr with
  | none => exact hQ r h F (refl _ _ _) ⟨rfl, fun _ hw => by cases hw⟩ hl hw.cowid subset_rfl
  | some write =>
    simp only [tryMaybeWriteNode, wp_bind, wp_read, wp_update]
    have hh : Changes c ∅ h { h with calls := h.calls + 1 } := (refl _ _ _).calls _
    rcases hs write rfl 0 t rfl h r F rfl hb hl hw with ⟨r', hr, hp⟩ | ⟨e, he, hE⟩
    · rw [hr]
      have hwt : Wrote sha (some write) h.calls [t] (h.calls + 1) := by
        refine ⟨rfl, fun write' hwr k u hk => ?_⟩
        cases hwr
        obtain ⟨hlt, rfl⟩ := List.getElem?_eq_some_iff.mp hk
        obtain rfl : k = 0 := lt_one_iff.mp hlt
        exact ⟨h, r, rfl, hw, r', hr⟩
      rcases hp with rfl | ⟨hl', hz⟩
      · exact hQ r' _ F hh hwt (hl.frame hh (disjoint_empty _)) hw.cowid subset_rfl
      · exact hQ r' _ ∅ hh hwt (hl'.frame hh (disjoint_empty _)) hz (empty_subset _)
    · rw [he]
      exact hE

end

/-! ### The nodes to be written -/

/-- The nodes below one that are not shared, from the leaves up, each with the tree it stands for. -/
def dirty (h : Heap) : MapTree → Ref → List (Ref × MapTree)
  | .empty, _ => []
  | .leaf leaf, r => if (h.node r).cowid = 0 then [] else [(r, .leaf leaf)]
  | .inner child, r =>
    if (h.node r).cowid = 0 then []
    else ((List.finRange 16).flatMap fun b =>
      match (h.node r).getChild b with
      | none => []
      | some q => dirty h (child b) q) ++ [(r, .inner child)]

/-- Those below some branches of a node. -/
def dirtyBelow (h : Heap) (child : Branch → MapTree) (r : Ref) (bs : List Branch) : List (Ref × MapTree) :=
  bs.flatMap fun b =>
    match (h.node r).getChild b with
    | none => []
    | some q => dirty h (child b) q

theorem dirty_inner (h0 : (h.node r).cowid ≠ 0) :
    dirty h (.inner child) r = dirtyBelow h child r (finRange 16) ++ [(r, .inner child)] := by
  rw [dirty, if_neg h0]
  rfl

theorem dirty_shared (h0 : (h.node r).cowid = 0) : dirty h t r = [] := by
  cases t with
  | empty => rfl
  | leaf leaf => exact if_pos h0
  | inner child => rw [dirty, if_pos h0]

theorem dirtyBelow_cons_none (hb : (h.node r).getChild b = none) (bs : List Branch) :
    dirtyBelow h child r (b :: bs) = dirtyBelow h child r bs := by
  rw [dirtyBelow, flatMap_cons, hb]
  rfl

theorem dirtyBelow_cons_some (hb : (h.node r).getChild b = some q) (bs : List Branch) :
    dirtyBelow h child r (b :: bs) = dirty h (child b) q ++ dirtyBelow h child r bs := by
  rw [dirtyBelow, flatMap_cons, hb]
  rfl

variable {h' : Heap}

/-- A change elsewhere does not make nodes dirty. -/
theorem Held.dirty_frame {W : Set Ref} (hl : Held sha stored h c t r F) (hh : Changes c W h h')
    (hd : Disjoint F W) : dirty h' t r = dirty h t r := by
  induction t generalizing r F with
  | empty => rfl
  | leaf leaf => rw [dirty, dirty, (hl.owns.frame hh hd).2]
  | inner child ih =>
    have hs := (hl.owns.frame hh hd).2
    by_cases h0 : (h.node r).cowid = 0
    · rw [dirty_shared h0, dirty_shared (by rw [hs]; exact h0)]
    · rw [dirty_inner h0, dirty_inner (by rw [hs]; exact h0)]
      congr 1
      refine flatMap_congr fun b _ => ?_
      rw [hs]
      cases hb : (h.node r).getChild b with
      | none => rfl
      | some q =>
        obtain ⟨_, G, _, _, -, -, -, hq, -, hG, -⟩ := hl.getChild hb
        exact ih b hq (hd.mono_left hG)

/-- Nor does taking a node change what is below it. -/
theorem Held.dirtyBelow_take (hl : Held sha stored h c (.inner child) r F) (hch : Changes c ∅ h h')
    (hh : ∀ b, (h'.node r').getChild b = (h.node r).getChild b) (bs : List Branch) :
    dirtyBelow h' child r' bs = dirtyBelow h child r bs := by
  refine flatMap_congr fun b _ => ?_
  rw [hh]
  cases hb : (h.node r).getChild b with
  | none => rfl
  | some q =>
    obtain ⟨_, G, _, _, -, -, -, hq, -, -, -⟩ := hl.getChild hb
    exact hq.dirty_frame hch (disjoint_empty _)

theorem Held.dirty_take (hl : Held sha stored h c t r F) (h0 : (h.node r).cowid ≠ 0) (hch : Changes c ∅ h h')
    (hh : ∀ b, (h'.node r').getChild b = (h.node r).getChild b) (h0' : (h'.node r').cowid ≠ 0) : (dirty h' t r').map snd = (dirty h t r).map snd := by
  cases t with
  | empty => rfl
  | leaf leaf =>
    rw [dirty, dirty, if_neg h0, if_neg h0']
    rfl
  | inner child =>
    rw [dirty_inner h0, dirty_inner h0', hl.dirtyBelow_take hch hh, map_append, map_append]
    rfl

/-- A leaf is given up. -/
theorem wp_flushLeaf {Q : Unit → Heap → Prop} {leaf : Leaf} (hc : c ≠ 0) (hl : Held sha stored h c (.leaf leaf) r F)
    (hw : (h.node r).cowid = c)
    (hQ : ∀ h', Changes c F h h' → h'.calls = h.calls → Held sha stored h' c (.leaf leaf) r F →
      Written sha h' r (.leaf leaf) → Q () h') : wp (flushLeaf sha r) Q E P h := by
  obtain ⟨ho, cw, hn, -⟩ := hl
  have hf : ((h.node r).updateHash sha).unshare = ⟨leaf.hash sha, 0, .leaf leaf.type leaf.item⟩ := by rw [hn]; rfl
  simp only [flushLeaf, deref, wp_bind, wp_read, wp_pure, store, wp_update, hf]
  refine hQ _ (set (fun _ => ⟨hw, ho.mem hw⟩) _) rfl ⟨⟨?_, ho.lt, fun h0 => ?_, ho.old⟩, 0,
    node_set_self .., fun h0 => absurd rfl h0⟩ ⟨?_, ?_, ?_⟩
  · rw [node_set_self]
    exact zero_le _
  · rw [node_set_self] at h0
    exact absurd h0.symm hc
  · rw [node_set_self]
  · rw [node_set_self]
    rfl
  · rw [node_set_self]
    rfl

/-! ### The branches of a node -/

variable (sha stored) in
/-- What flushing a node does: it may change the nodes owned below, writes the dirty ones, and what it gives for the
node is shared. -/
def Flushes (writer : Option (Writer ε)) (E : ε → Heap → Prop) (c : ℕ) (h₀ : Heap) (t : MapTree)
    (p : Ref → HeapM ε (Ref × ℕ)) : Prop :=
  ∀ (h : Heap) (q : Ref) (G : Set Ref) (Q : Ref × ℕ → Heap → Prop) (P : Fault → Prop),
    Held sha stored h c t q G → (h.node q).cowid = c → Changes c Set.univ h₀ h →
    Serves sha stored writer E c h₀ h.calls ((dirty h t q).map Prod.snd) →
    (∀ q' h' G', Changes c G h h' → Wrote sha writer h.calls ((dirty h t q).map Prod.snd) h'.calls →
      Held sha stored h' c t q' G' → (h'.node q').cowid = 0 → G' ⊆ G ∪ {q | h.next ≤ q} →
      Q (q', (dirty h t q).length) h') → wp (p q) Q E P h

variable {walk : Ref → HeapM ε (Ref × ℕ)}

/-- A child that was taken is flushed. -/
theorem wp_tryFlushChild {Q : Ref × ℕ → Heap → Prop} (hc : c ≠ 0) (hl : Held sha stored h c t r F)
    (ho : (h.node r).cowid = c)
    (ha : Changes c univ h₀ h) (hk : ∀ gr, t = .inner gr → Flushes sha stored wr E c h₀ t walk)
    (hse : Serves sha stored wr E c h₀ h.calls ((dirty h t r).map snd))
    (hQ : ∀ q' h' G', Changes c F h h' → Wrote sha wr h.calls ((dirty h t r).map snd) h'.calls →
      Held sha stored h' c t q' G' → (h'.node q').cowid = 0 → G' ⊆ F ∪ {q | h.next ≤ q} →
      Q (q', (dirty h t r).length) h') : wp (tryFlushChild sha wr walk r) Q E P h := by
  simp only [tryFlushChild, deref, wp_bind, wp_read, wp_pure]
  cases t with
  | empty => exact hl.elim
  | leaf leaf =>
    obtain ⟨-, cw, hn, -⟩ := id hl
    have hd : dirty h (.leaf leaf) r = [(r, .leaf leaf)] := if_neg (by rw [ho]; exact hc)
    rw [hd] at hse hQ
    simp only [hn, isInner, false_eq_true, if_false, wp_bind, wp_pure]
    refine wp_flushLeaf hc hl ho fun h1 hh hca hl1 hw => ?_
    have hb := ha.trans hh fun _ _ _ => trivial
    refine wp_tryMaybeWriteNode (hca.symm ▸ hse) hb hl1 hw fun r' h2 F' hch hwt hl2 hz hF' => ?_
    exact hQ r' h2 F' (hh.trans hch fun q hq _ => absurd hq (notMem_empty q)) (hca ▸ hwt) hl2 hz
      (hF'.trans subset_union_left)
  | inner gr =>
    have hi : (h.node r).isInner := by
      obtain ⟨-, _, _, _, _, hn, -⟩ := hl
      rw [hn]
      rfl
    simp only [hi, if_true]
    exact hk gr rfl h r F _ _ hl ho ha hse hQ

variable {take : Ref → HeapM ε Ref} {ok : Leaf → Prop}

/-- **The branches of an owned node** are flushed one after another. -/
theorem wp_flushBranches {Q : ℕ → Heap → Prop} (hc : c ≠ 0)
    (htk : Takes sha stored c ok take) (bs : List Branch) (hu : bs.Nodup)
    (hl : Held sha stored h c (.inner child) r F) (hown : (h.node r).cowid = c) (hsh : SharedOutside h r bs)
    (hok : ∀ leaf ∈ (.inner child : MapTree), ok leaf) (hba : Changes c Set.univ h₀ h)
    (hwk : ∀ b gr, child b = .inner gr → Flushes sha stored wr E c h₀ (child b) walk)
    (hse : Serves sha stored wr E c h₀ h.calls ((dirtyBelow h child r bs).map Prod.snd))
    (hQ : ∀ h' F', Changes c F h h' → Wrote sha wr h.calls ((dirtyBelow h child r bs).map Prod.snd) h'.calls →
      Held sha stored h' c (.inner child) r F' → (h'.node r).cowid = c → SharedOutside h' r [] →
      F' ⊆ F ∪ {q | h.next ≤ q} → Q (dirtyBelow h child r bs).length h') :
    wp (flushBranches sha take wr walk r bs) Q E P h := by
  induction bs generalizing h F Q with
  | nil =>
    exact hQ h F (Changes.refl _ _ _) (.nil _) hl hown hsh Set.subset_union_left
  | cons b bs ih =>
    obtain ⟨hb, hu⟩ := List.nodup_cons.mp hu
    simp only [flushBranches, deref, wp_bind, wp_read, wp_pure]
    -- a branch that needs no work
    have hk : (∀ q, (h.node r).getChild b = some q → (h.node q).cowid = 0) → SharedOutside h r bs := by
      intro hb b' hb' q hq
      by_cases hbb : b' = b
      · subst hbb
        exact hb q hq
      · exact hsh b' (by simp [hbb, hb']) q hq
    cases hi : (h.node r).getChild b with
    | none =>
      rw [dirtyBelow_cons_none hi] at hse hQ
      exact ih hu hl hown (hk fun q hq => by rw [hi] at hq; cases hq) hba hse hQ
    | some q =>
      rw [dirtyBelow_cons_some hi] at hse hQ
      simp only [wp_bind, wp_read, wp_pure]
      by_cases h0 : (h.node q).cowid = 0
      · simp only [h0, if_true]
        rw [dirty_shared h0, List.nil_append] at hse hQ
        exact ih hu hl hown (hk fun q' hq' => by rw [hi] at hq'; cases hq'; exact h0) hba hse hQ
      · simp only [h0, if_false, wp_bind]
        rw [List.map_append] at hse
        rw [List.length_append] at hQ
        obtain ⟨Fh, G, hash, sl, hh, hin, hsl, hq, hFh, hG, hdis⟩ := hl.getChild hi
        refine htk (child b) h q G _ _ _ (fun leaf hf => hok leaf ⟨b, hf⟩) hq h0
          fun q1 h1 G1 hch1 hca hs hq1 ho hG1 => ?_
        have ha := hba.trans hch1 fun _ _ _ => trivial
        have hr : (dirty h1 (child b) q1).map Prod.snd = (dirty h (child b) q).map Prod.snd :=
          hq.dirty_take h0 hch1 hs (by rw [ho]; exact hc)
        have hle : (dirty h1 (child b) q1).length = (dirty h (child b) q).length := by
          simpa using congrArg List.length hr
        refine wp_tryFlushChild hc hq1 ho ha (fun gr hg => hwk b gr hg)
          (by rw [hr, hca]; exact hse.left) fun q2 h2 G2 hch2 hw hq2 hz hG2 => ?_
        rw [hr, hca] at hw
        rw [hle]
        -- the child is put back
        have hch : Changes c G h h2 := (hch1.mono (Set.empty_subset _)).trans hch2 fun q hq hlt =>
          (hG1 hq).resolve_right (Nat.not_le_of_lt hlt)
        have hG2' : G2 ⊆ G ∪ {q | h.next ≤ q} := by
          intro q hq
          rcases hG2 hq with hq | hq
          · exact hG1 hq
          · exact .inr (Nat.le_trans hch1.next_le hq)
        have hdi : Disjoint Fh G2 := by
          refine Set.disjoint_left.mpr fun q hq hm => ?_
          rcases hG2' hm with hm | hm
          · exact Set.disjoint_left.mp hdis hq hm
          · exact Nat.not_lt_of_le hm (hh.1.old q hq)
        have hsm : h2.node r = h.node r := (hh.1.frame hch hdis).2
        obtain ⟨nh, cw, g, hn⟩ := id hin
        obtain rfl : cw = c := by rw [hn] at hown; exact hown
        have hn2 : h2.node r = ⟨nh, cw, .inner g sl⟩ := hsm.trans hn
        have hqr : q2 ≠ r := by
          rintro rfl
          rw [hn2] at hz
          exact hc hz
        obtain ⟨hl3, hch3⟩ := (hh.frame hch hdis).fill hc hn2
          (show SlotFor sha stored h2 cw (child b) (some ⟨hash, some q2⟩) G2 from
            .inr (.inl ⟨hash, q2, rfl, hq2⟩)) hdi hq2.owns.old nh
        rw [update_eq_self] at hl3
        simp only [shareChildAt, deref, wp_bind, wp_read, wp_pure, hn2, SHAMapTreeNode.shareChild, hc,
          if_false, hsl, wp_lift_ok, store, wp_update]
        have hch03 : Changes cw F h (h2.set r ⟨nh, cw, .inner g (update sl b (some ⟨hash, some q2⟩))⟩) :=
          (hch.mono hG).trans hch3 fun q hq _ => hFh hq
        have hot : ∀ b', b' ≠ b → ((h2.set r ⟨nh, cw, .inner g (update sl b
            (some ⟨hash, some q2⟩))⟩).node r).getChild b' = (h.node r).getChild b' := by
          intro b' hbb
          rw [node_set_self, hn]
          simp only [SHAMapTreeNode.getChild, SHAMapTreeNode.slots, update_of_ne hbb]
        -- what is below the other branches was not touched
        have hbl : dirtyBelow (h2.set r ⟨nh, cw, .inner g (update sl b (some ⟨hash, some q2⟩))⟩) child r
            bs = dirtyBelow h child r bs := by
          refine List.flatMap_congr fun b' hb' => ?_
          have hbb : b' ≠ b := by
            rintro rfl
            exact hb hb'
          rw [hot b' hbb]
          cases hb'' : (h.node r).getChild b' with
          | none => rfl
          | some q' =>
            obtain ⟨G', hq', hG', hr'⟩ := hh.sibling hbb hb''
            have hd : Disjoint G' G := hdis.mono_left hG'
            have he : ∀ n, Changes cw {r} h2 (h2.set r n) := Changes.set fun _ => ⟨by rw [hn2], rfl⟩
            exact ((hq'.frame hch hd).dirty_frame (he _) (Set.disjoint_singleton_right.mpr hr')).trans
              (hq'.dirty_frame hch hd)
        refine ih hu hl3 (by rw [node_set_self]) ?_ (hba.trans hch03 fun _ _ _ => trivial) ?_
          fun h' F' hch' hwt hl' how hsh' hF' => ?_
        · intro b' hb' q' hq'
          by_cases hbb : b' = b
          · subst hbb
            rw [node_set_self] at hq'
            simp only [SHAMapTreeNode.getChild, SHAMapTreeNode.slots, update_self, Option.bind_some,
              Option.some.injEq] at hq'
            subst hq'
            rwa [node_set_of_ne hqr]
          · rw [hot b' hbb] at hq'
            have hz' := hsh b' (by simp [hbb, hb']) q' hq'
            obtain ⟨_, _, _, _, -, -, -, hlo, -⟩ := hl.getChild hq'
            have hne : q' ≠ r := by
              rintro rfl
              rw [hn] at hz'
              exact hc hz'
            rw [node_set_of_ne hne, hch.same q' hlo.owns.lt fun hco => absurd (hz'.symm.trans hco).symm hc]
            exact hz'
        · rw [hbl]
          exact hse.right hw
        · rw [hbl] at hwt ⊢
          refine hQ h' F' ?_ ?_ hl' how hsh' fun q hq => ?_
          · refine hch03.trans hch' fun q hq hlt => ?_
            rcases hq with hq | hq
            · exact hFh hq
            · exact hG ((hG2' hq).resolve_right (Nat.not_le_of_lt hlt))
          · rw [List.map_append]
            exact hw.append hwt
          · rcases hF' hq with (hq | hq) | hq
            · exact .inl (hFh hq)
            · exact (hG2' hq).imp (fun hq => hG hq) id
            · exact .inr (Nat.le_trans hch.next_le hq)

/-! ### The tree -/

section

variable {sl : Slots} (hl : Held sha stored h c (.inner child) r F)

include hl

/-- The slots of a node whose children are shared, with their hashes. -/
theorem Held.refreshSlots (hin : h.InnerAt r sl) (hh : SharedOutside h r []) (b : Branch) :
    (sl b = none ∧ refreshSlots h sl b = none ∧ child b = .empty) ∨
      ∃ hash o, sl b = some ⟨hash, o⟩ ∧ refreshSlots h sl b = some ⟨treeHash sha (child b), o⟩ ∧ child b ≠ .empty := by
  obtain ⟨_, _, sl', -, hi, hsl, -⟩ := hl.split b
  obtain rfl : sl = sl' := hin.unique hi
  rcases hsl with ⟨hn, hm⟩ | ⟨hash, q, hs, hq⟩ | ⟨hs, hne, -⟩
  · refine .inl ⟨hn, ?_, hm⟩
    rw [SHAMap.refreshSlots, hn, map_none]
  · have hz := hh b (not_mem_nil) q (by rw [hin.getChild, hs]; rfl)
    refine .inr ⟨hash, some q, hs, ?_, fun he => ?_⟩
    · rw [SHAMap.refreshSlots, hs, map_some]
      exact congrArg (fun hash => some (Slot.mk hash (some q))) (hq.hash_eq hz)
    · rw [he] at hq
      exact hq
  · exact .inr ⟨_, none, hs, by rw [SHAMap.refreshSlots, hs]; rfl, hne⟩

/-- Their hash is the hash of the tree. -/
theorem Held.computeInnerHash (hi : h.InnerAt r sl) (hs : SharedOutside h r []) :
    computeInnerHash sha (SHAMap.refreshSlots h sl) = treeHash sha (.inner child) := by
  refine computeInnerHash_of_slots fun b => ?_
  rcases hl.refreshSlots hi hs b with ⟨-, hn, he⟩ | ⟨hash, o, -, ho, hne⟩
  · exact .inl ⟨hn, he⟩
  · exact .inr ⟨o, ho, hne⟩

/-- A node with refreshed slots has the bytes of its tree. -/
theorem Held.written {g : ℕ} (hi : h.InnerAt r sl) (hh : SharedOutside h r [])
    (hf : (Tree.inner child).Filled)
    (hn : h'.node r = ⟨treeHash sha (.inner child), 0, .inner g (SHAMap.refreshSlots h sl)⟩) :
    Written sha h' r (.inner child) := by
  have hsl : slotHash (SHAMap.refreshSlots h sl) = fun b => treeHash sha (child b) := by
    funext b
    rcases hl.refreshSlots hi hh b with ⟨-, hno, he⟩ | ⟨hash, o, -, ho, -⟩
    · rw [slotHash_none hno, he, treeHash]
    · rw [slotHash_some ho]
  obtain ⟨⟨b, hb⟩, -⟩ := hf
  have hs : setBranches (SHAMap.refreshSlots h sl) ≠ [] := by
    have hm : b ∈ setBranches (SHAMap.refreshSlots h sl) := by
      rw [SHAMap.mem_setBranches]
      rcases hl.refreshSlots hi hh b with ⟨-, -, he⟩ | ⟨hash, o, -, ho, -⟩
      · exact absurd he hb
      · rw [ho]
        exact some_ne_none _
    exact ne_nil_of_mem hm
  refine ⟨by rw [hn], by rw [hn], ?_⟩
  rw [hn]
  simp only [serializeWithPrefix, serializeInnerWithPrefix]
  rw [if_neg (by simpa using hs), treeBytes, ← hsl]
  rfl

end

/-- **An owned node is flushed** with all that is below it. -/
theorem flushes_flushNode (hc : c ≠ 0) (htk : Takes sha stored c ok take) {d : ℕ}
    (hbd : (Tree.inner child).Bounded radix d) (hlev : leafDepth ≤ d + lv)
    (hf : (Tree.inner child).Filled) (hk : ∀ leaf ∈ (.inner child : MapTree), ok leaf) :
    Flushes sha stored wr E c h₀ (.inner child) (flushNode sha take wr lv) := by
  induction lv generalizing child d with
  | zero => exact absurd hbd.1 (Nat.not_lt_of_le hlev)
  | succ lv ih =>
    intro h r F Q P hl hown ha hse hQ
    have h0 : (h.node r).cowid ≠ 0 := by rw [hown]; exact hc
    rw [dirty_inner h0, map_append] at hse
    rw [dirty_inner h0, length_append, length_singleton] at hQ
    simp only [flushNode, wp_bind]
    refine wp_flushBranches hc htk (finRange 16) (nodup_finRange 16) hl hown
      (fun b hb => absurd (mem_finRange b) hb) hk ha (fun b gr hg => ?_) hse.left ?_
    · rw [hg]
      exact ih (hg ▸ hbd.2 b) (by omega) (hg ▸ hf.2 b) fun leaf hlf => hk leaf ⟨b, hg ▸ hlf⟩
    · intro h1 F1 hch1 hwr hl1 how hsh hF1
      obtain ⟨ho, hash, cw, g, sl, hn, -, G, hG, hd, hsl⟩ := id hl1
      obtain rfl : cw = c := by rw [hn] at how; exact how
      have hi : h1.InnerAt r sl := ⟨hash, cw, g, hn⟩
      simp only [updateHashDeep, deref, wp_bind, wp_read, hn, store, wp_update, wp_pure, node_set_self, unshare]
      rw [hl1.computeInnerHash hi hsh]
      have hset : ∀ n n' : SHAMapTreeNode, (h1.set r n).set r n' = h1.set r n' := fun n n' =>
        congrArg (fun f => { h1 with node := f }) (update_idem ..)
      rw [hset]
      have hch : ∀ W, r ∈ W → ∀ n, Changes cw W h1 (h1.set r n) := fun W hr n =>
        set (fun _ => ⟨by rw [hn], hr⟩) n
      have hch2 := hch F1 (ho.mem how) ⟨treeHash sha (.inner child), 0, .inner g (SHAMap.refreshSlots h1 sl)⟩
      have hw : Written sha (h1.set r ⟨treeHash sha (.inner child), 0, .inner g
          (SHAMap.refreshSlots h1 sl)⟩) r (.inner child) :=
        hl1.written hi hsh hf (node_set_self ..)
      have hl2 : Held sha stored (h1.set r ⟨treeHash sha (.inner child), 0, .inner g
          (SHAMap.refreshSlots h1 sl)⟩) cw (.inner child) r F1 := by
        refine ⟨⟨?_, ho.lt, fun h0 => ?_, ho.old⟩, _, 0, g, _, node_set_self .., fun _ => rfl, G, hG, hd, fun b => ?_⟩
        · rw [node_set_self]
          exact zero_le _
        · rw [node_set_self] at h0
          exact absurd h0.symm hc
        · rcases hl1.refreshSlots hi hsh b with ⟨-, hno, hm⟩ | ⟨hash', o, hso, hre, -⟩
          · exact .inl ⟨hno, hm⟩
          · rcases hsl b with ⟨hno, -⟩ | ⟨hash'', q, hs, hq⟩ | ⟨hs, hne, hst⟩
            · rw [hso] at hno
              cases hno
            · rw [hso] at hs
              cases hs
              exact .inr (.inl ⟨_, q, hre, hq.frame (hch {r} rfl _) (disjoint_singleton_right.mpr (hG b).2)⟩)
            · rw [hso] at hs
              cases hs
              exact .inr (.inr ⟨hre, hne, hst⟩)
      have hh : Changes cw F h _ := hch1.trans hch2 fun q hq hlt => (hF1 hq).resolve_right (Nat.not_le_of_lt hlt)
      refine wp_tryMaybeWriteNode (hse.right hwr) (ha.trans hh fun _ _ _ => trivial) hl2 hw
        fun r' h3 F' hch3 he hl3 hz hF' => ?_
      refine hQ r' h3 F' (hh.trans hch3 fun q hq _ => absurd hq (notMem_empty q)) ?_ hl3 hz (hF'.trans hF1)
      rw [map_append]
      exact hwr.append he

/-- What a node is follows from the tree it stands for. -/
theorem Held.isInner_eq {F' : Set Ref} (hl : Held sha stored h c t r F) (hl' : Held sha stored h' c t r' F') : (h'.node r').isInner = (h.node r).isInner := by
  cases t with
  | empty => exact hl.elim
  | leaf leaf =>
    obtain ⟨-, _, hn, -⟩ := hl
    obtain ⟨-, _, hn', -⟩ := hl'
    rw [hn, hn']
    rfl
  | inner child =>
    obtain ⟨-, _, _, _, _, hn, -⟩ := hl
    obtain ⟨-, _, _, _, _, hn', -⟩ := hl'
    rw [hn, hn']
    rfl

theorem Held.isEmpty_iff (hl : Held sha stored h c t r F) :
    (h.node r).isEmpty ↔ ∃ child, t = .inner child ∧ ∀ b, child b = .empty := by
  cases t with
  | empty => exact hl.elim
  | leaf leaf =>
    obtain ⟨-, _, hn, -⟩ := hl
    rw [hn]
    simp [SHAMapTreeNode.isEmpty, SHAMapTreeNode.isInner]
  | inner child =>
    obtain ⟨sl, hi⟩ : ∃ sl, h.InnerAt r sl := by
      obtain ⟨-, hash, cw, g, sl, hn, -⟩ := hl
      exact ⟨sl, hash, cw, g, hn⟩
    rw [SHAMapTreeNode.isEmpty, hi.isInner, Bool.true_and, branchCount_eq hi, beq_iff_eq, List.length_eq_zero_iff,
      List.eq_nil_iff_forall_not_mem]
    refine ⟨fun ho => ⟨child, rfl, fun b => by_contra fun hb => ho b ((hl.mem_setBranches hi b).mpr hb)⟩, ?_⟩
    rintro ⟨ch', he, ho⟩ b hb
    cases he
    exact (hl.mem_setBranches hi b).mp hb (ho b)

/-- What a tree with a root must be: below the root, every inner node has two items or more. -/
def RootCanon (t : MapTree) : Prop := ∀ child, t = .inner child → Tree.Children radix 0 child

theorem RootCanon.bounded (ht : RootCanon t) : t.Bounded radix 0 := by
  cases t with
  | empty => trivial
  | leaf leaf => trivial
  | inner child => exact (ht child rfl).bounded (by decide)

/-- A root with a branch. -/
theorem RootCanon.filled (ht : RootCanon t) (hl : Held sha stored h c t r F)
    (he : (h.node r).isEmpty = false) : t.Filled := by
  cases t with
  | empty => trivial
  | leaf leaf => trivial
  | inner child =>
    refine (ht child rfl).filled (by_contra fun hn => ?_)
    push Not at hn
    rw [hl.isEmpty_iff.mpr ⟨child, rfl, hn⟩] at he
    cases he

/-- **A tree whose root is taken** is flushed with all that is below it. -/
theorem wp_flushRoot {Q : Ref × ℕ → Heap → Prop} (hc : c ≠ 0) (hk : Takes sha stored c ok take)
    (hlev : leafDepth ≤ lv) (hl : Held sha stored h c t r F) (ht : RootCanon t) (hok : ∀ leaf ∈ t, ok leaf)
    (h0 : (h.node r).cowid ≠ 0) (hm : (h.node r).isEmpty = false) {rest : Ref → HeapM ε (Ref × ℕ)}
    (hre : ∀ h' r' F', Held sha stored h' c t r' F' →
      wp (tryFlushChild sha wr (flushNode sha take wr lv) r') Q E P h' → wp (rest r') Q E P h')
    (hse : Serves sha stored wr E c h h.calls ((dirty h t r).map snd))
    (hQ : ∀ r' h' F', Changes c F h h' → Wrote sha wr h.calls ((dirty h t r).map snd) h'.calls →
      Held sha stored h' c t r' F' → (h'.node r').cowid = 0 → Q (r', (dirty h t r).length) h') :
    wp (take r >>= rest) Q E P h := by
  rw [wp_bind]
  refine hk t h r F _ _ _ hok hl h0 fun r1 h1 F1 hh ha hs hl1 ho hF1 => ?_
  have hr : (dirty h1 t r1).map snd = (dirty h t r).map snd :=
    hl.dirty_take h0 hh hs (by rw [ho]; exact hc)
  have he : (dirty h1 t r1).length = (dirty h t r).length := by simpa using congrArg length hr
  refine hre h1 r1 F1 hl1 <| wp_tryFlushChild hc hl1 ho (hh.mono (empty_subset _)) (fun gr hg => ?_)
    (by rw [hr, ha]; exact hse) fun r2 h2 F2 hch hw hl2 hz hF2 => ?_
  · subst hg
    exact flushes_flushNode hc hk ht.bounded (by omega) (ht.filled hl hm) hok
  · rw [hr, ha] at hw
    rw [he]
    exact hQ r2 h2 F2 ((hh.mono (empty_subset _)).trans hch fun q hq hlt =>
      (hF1 hq).resolve_right (Nat.not_le_of_lt hlt)) hw hl2 hz

/-- The nodes that are given to a writer: a root without branches is not. -/
def toWrite (h : Heap) (t : MapTree) (r : Ref) : List (Ref × MapTree) :=
  if (h.node r).isEmpty then [] else dirty h t r

theorem toWrite_shared (h0 : (h.node r).cowid = 0) : dirty h t r = [] ∧ toWrite h t r = [] := by
  have hn : dirty h t r = [] := dirty_shared h0
  exact ⟨hn, by rw [toWrite, hn, ite_self]⟩

/-- A new root stands for a tree with nothing in it. -/
theorem wp_allocate_empty (hc : c ≠ 0) (hl : Held sha stored h c t r F) (he : (h.node r).isEmpty)
    (hQ : ∀ r' h', Changes c ∅ h h' → h'.calls = h.calls → Held sha stored h' c t r' ∅ → (h'.node r').cowid = 0 →
      Q r' h') : wp (allocate (newInner 0)) Q E P h := by
  obtain ⟨child, rfl, hn⟩ := hl.isEmpty_iff.mp he
  refine hQ _ _ (alloc _ _ _ _) rfl ⟨⟨?_, lt_succ_self _, fun h0 => ?_,
    fun q hq => absurd hq (notMem_empty q)⟩, 0, 0, 0, fun _ => none, node_alloc_next ..,
    fun _ => (treeHash_inner_empty _ hn).symm, fun _ => ∅, fun _ => ⟨empty_subset _, notMem_empty _⟩,
    fun _ _ _ => disjoint_empty _, fun b => .inl ⟨rfl, hn b⟩⟩ (by rw [node_alloc_next]; rfl)
  · rw [node_alloc_next]
    exact zero_le _
  · rw [node_alloc_next] at h0
    exact absurd h0.symm hc

theorem dirty_length_of_isEmpty (hl : Held sha stored h c t r F) (he : (h.node r).isEmpty)
    (h0 : (h.node r).cowid ≠ 0) : (dirty h t r).length = 1 := by
  obtain ⟨child, rfl, hn⟩ := hl.isEmpty_iff.mp he
  have hbl : dirtyBelow h child r (finRange 16) = [] := by
    refine flatMap_eq_nil_iff.mpr fun b _ => ?_
    cases hb : (h.node r).getChild b with
    | none => rfl
    | some q =>
      obtain ⟨_, _, _, _, -, -, -, hq, -⟩ := hl.getChild hb
      rw [hn b] at hq
      exact hq.elim
  rw [dirty_inner h0, hbl]
  rfl

section

variable {Q : Ref × ℕ → Heap → Prop} (hc : c ≠ 0) (hlev : leafDepth ≤ lv) (hl : Held sha stored h c t r F)
  (ht : RootCanon t) (hse : Serves sha stored wr E c h h.calls ((toWrite h t r).map Prod.snd))
  (hQ : ∀ r' h' F', Changes c F h h' → Wrote sha wr h.calls ((toWrite h t r).map Prod.snd) h'.calls →
    Held sha stored h' c t r' F' → (h'.node r').cowid = 0 → Q (r', (dirty h t r).length) h')

include hc hlev hl ht hse hQ

/-- **Flushing a tree**: the dirty nodes are written and counted, and what is left stands for the same tree. A root
without branches is replaced and not written. -/
theorem wp_tryWalkSubtreeImpl : wp (tryWalkSubtreeImpl sha wr lv r c) Q E P h := by
  simp only [tryWalkSubtreeImpl]
  rw [wp_deref]
  by_cases h0 : (h.node r).cowid = 0
  · rw [if_pos h0]
    obtain ⟨hi, hn⟩ := toWrite_shared (t := t) h0
    rw [hi, hn] at hQ
    exact hQ r h F (refl _ _ _) (.nil _) hl h0
  · rw [if_neg h0]
    by_cases he : (h.node r).isEmpty
    · rw [dirty_length_of_isEmpty hl he h0, toWrite, if_pos he] at hQ
      rw [SHAMapTreeNode.isLeaf_of_isEmpty he, if_neg Bool.false_ne_true, if_pos he, wp_bind]
      refine wp_allocate_empty hc hl he fun r' h' hh ha hl' hz => ?_
      refine hQ r' h' ∅ (hh.mono (empty_subset _)) ?_ hl' hz
      rw [ha]
      exact .nil _
    · rw [toWrite, if_neg he] at hse hQ
      have ho : (h.node r).isEmpty = false := not_eq_true _ ▸ he
      cases hin : (h.node r).isInner with
      | false =>
        rw [isLeaf, hin, if_pos (by decide)]
        refine wp_flushRoot hc (takes_preFlushNode hc) hlev hl ht (fun _ _ => trivial) h0 ho
          (fun h' r' F' hl' hw => ?_) hse hQ
        rw [tryFlushChild, wp_deref, hl.isInner_eq hl', hin, if_neg Bool.false_ne_true] at hw
        exact hw
      | true =>
        rw [isLeaf, hin, if_neg (by decide), if_neg he]
        refine wp_flushRoot hc (takes_preFlushNode hc) hlev hl ht (fun _ _ => trivial) h0 ho
          (fun h' r' F' hl' hw => ?_) hse hQ
        rw [tryFlushChild, wp_deref, hl.isInner_eq hl', hin, if_pos rfl] at hw
        rw [tryWalkNode_eq]
        exact hw

/-- **Flushing a copy of a tree**: the same nodes are written, and no old node changes. -/
theorem wp_tryWalkSubtreeDetachedImpl (hs : ∀ leaf ∈ t, leaf.item.Sized) :
    wp (tryWalkSubtreeDetachedImpl sha wr lv r c) Q E P h := by
  simp only [tryWalkSubtreeDetachedImpl]
  rw [wp_deref]
  by_cases h0 : (h.node r).cowid = 0
  · rw [if_pos h0]
    obtain ⟨hi, hn⟩ := toWrite_shared (t := t) h0
    rw [hi, hn] at hQ
    exact hQ r h F (refl _ _ _) (.nil _) hl h0
  · rw [if_neg h0]
    by_cases hem : (h.node r).isEmpty
    · rw [dirty_length_of_isEmpty hl hem h0, toWrite, if_pos hem] at hQ
      rw [wp_bind]
      refine wp_cloneNode hc hl (fun leaf he => hs leaf (by rw [he]; rfl)) fun r1 h1 F1 hh ha _ hl1 _ hF1 => ?_
      have hm : (h1.node r1).isEmpty := hl1.isEmpty_iff.mpr (hl.isEmpty_iff.mp hem)
      have hin : (h1.node r1).isLeaf = false := isLeaf_of_isEmpty hm
      rw [wp_deref, hin, hm, if_neg Bool.false_ne_true, if_pos rfl, wp_bind]
      refine wp_allocate_empty hc hl1 hm fun r' h' hch hca hl' hz => ?_
      refine hQ r' h' ∅ ((hh.trans hch fun _ hq _ => hq).mono (empty_subset _)) ?_ hl' hz
      rw [hca, ha]
      exact .nil _
    · rw [toWrite, if_neg hem] at hse hQ
      refine wp_flushRoot hc (takes_cloneNode hc) hlev hl ht hs h0 (not_eq_true _ ▸ hem)
        (fun h' r' F' hl' hw => ?_) hse hQ
      have hem' : ¬ (h'.node r').isEmpty := fun he => hem (hl.isEmpty_iff.mpr (hl'.isEmpty_iff.mp he))
      rw [tryFlushChild, wp_deref] at hw
      rw [wp_deref]
      cases hin : (h'.node r').isInner with
      | false =>
        rw [hin, if_neg Bool.false_ne_true] at hw
        rw [isLeaf, hin, if_pos (by decide)]
        exact hw
      | true =>
        rw [hin, if_pos rfl] at hw
        rw [isLeaf, hin, if_neg (by decide), if_neg hem']
        exact hw

end

/-- **After hashing, the root has the hash of the tree of items.** -/
theorem wp_unshareTree {s : Memory} {Q : ℕ → Memory → Prop} {E : ε → Memory → Prop} (hc : c ≠ 0)
    (ho : s.tree.cowid = c) (hlev : leafDepth ≤ lv)
    (hl : Held sha stored s.heap c (.inner child) s.tree.root F) (hh : Tree.Children radix 0 child)
    (hQ : ∀ n s' F', s'.tree.cowid = c → Held sha stored s'.heap c (.inner child) s'.tree.root F' →
      (s'.heap.node s'.tree.root).hash = treeHash sha (.inner child) → Q n s') :
    wp (unshareTree sha lv) Q E P s := by
  simp only [unshareTree, wp_bind, wp_read, ho]
  rw [wp_onHeap, ← tryWalkSubtreeImpl_none]
  have ht : RootCanon (.inner child) := fun ch' he => by cases he; exact hh
  refine wp_tryWalkSubtreeImpl hc hlev hl ht (fun write hw => by cases hw) fun r' h' F' _ _ hl' hz => ?_
  exact hQ _ _ F' ho hl' (hl'.hash_eq hz)

end Xrpld.SHAMap
