import Xrpld.SHAMap.MapTree

/-!
# Reading a tree

To find something in a tree its hashes need not be up to date: a walk only needs that the nodes are
there, in memory or behind the fetch callback. `Shows` is `Represents` without the hashes, so it also
speaks of a tree that is being changed. What a walk does to the heap, `Reads`, keeps it: children are loaded,
and every node shows the tree it showed before.

`wp_descendThrow_shows` is the one step all walks are made of.
-/

namespace Xrpld.SHAMap

open Option

variable {r : Ref} {child : Branch → MapTree} {b : Branch} {n : ℕ} {nid : SHAMapNodeId} {key : Uint256}

section

variable (store : MapStore)

/-- **A node shows a tree**: the branches that are set are those that are not empty, and the child of such a branch is
loaded, or the store knows it by the hash of the branch. -/
def Shows (h : Heap) : MapTree → Ref → Prop
  | .empty, _ => False
  | .leaf leaf, r => ∃ hash cowid, h.node r = ⟨hash, cowid, .leaf leaf.type leaf.item⟩
  | .inner child, r => ∃ hash cowid g slots, h.node r = ⟨hash, cowid, .inner g slots⟩ ∧
      ∀ b, (slots b = none ∧ child b = .empty) ∨
        ∃ hash c, slots b = some ⟨hash, c⟩ ∧ child b ≠ .empty ∧
          ((c = none ∧ store hash = some (child b)) ∨ ∃ q, c = some q ∧ Shows h (child b) q)

/-- The callback finds what the store knows, under the hash it is asked for, and is asked at all. -/
structure Backing (backed : Bool) (fetch : Fetch) (h : Heap) : Prop where
  backed : ∀ hash, store hash ≠ none → backed = true
  finds : ∀ n hash u, store hash = some u → ∃ f, fetch n hash = some f ∧ (h.node f).hash = hash ∧ Shows store h u f

/-- What reading does: every node shows what it showed, and so do the callback's. -/
structure Reads (backed : Bool) (fetch : Fetch) (h h' : Heap) : Prop where
  backing : Backing store backed fetch h'
  shows : ∀ t r, Shows store h t r → Shows store h' t r

end

variable {sha : Sha} {store : MapStore} {backed : Bool} {fetch : Fetch} {h h' : Heap}

variable {t : MapTree}

/-- A tree with its hashes can be read. -/
theorem Represents.shows (hr : Represents sha store h t r) : Shows store h t r := by
  induction t generalizing r with
  | empty => exact hr
  | leaf leaf =>
    obtain ⟨cw, hn⟩ := hr
    exact ⟨_, cw, hn⟩
  | inner child ih =>
    obtain ⟨cw, g, sl, hn, hl⟩ := hr
    refine ⟨_, cw, g, sl, hn, fun b => ?_⟩
    rcases hl b with ho | ⟨c, hc, he, -, hs | ⟨q, rfl, hq⟩⟩
    · exact .inl ho
    · exact .inr ⟨_, c, hc, he, .inl hs⟩
    · exact .inr ⟨_, some q, hc, he, .inr ⟨q, rfl, ih b hq⟩⟩

theorem FetchRight.backing (hf : FetchRight sha store h fetch) (hb : ∀ hash, store hash ≠ none → backed)
    (hs : ∀ hash u, store hash = some u → treeHash sha u = hash) : Backing store backed fetch h where
  backed := hb
  finds n hash u hu := by
    obtain ⟨f, he, hr⟩ := hf n hash u hu
    exact ⟨f, he, hr.hash_eq.trans (hs hash u hu), hr.shows⟩

variable (sha store) in
/-- The part of a store that has every tree under its hash. -/
def rightPart (hash : SHAMapHash) : Option MapTree := (store hash).filter fun u => treeHash sha u = hash

theorem rightPart_eq_some {hash : SHAMapHash} {u : MapTree} :
    rightPart sha store hash = some u ↔ store hash = some u ∧ treeHash sha u = hash := by
  simp [rightPart]

/-- A tree with its hashes only needs that part. -/
theorem Represents.rightPart (hr : Represents sha store h t r) : Represents sha (rightPart sha store) h t r := by
  induction t generalizing r with
  | empty => exact hr
  | leaf leaf => exact hr
  | inner child ih =>
    obtain ⟨cw, g, sl, hn, hl⟩ := hr
    refine ⟨cw, g, sl, hn, fun b => ?_⟩
    rcases hl b with ho | ⟨c, hc, he, h0, ⟨rfl, hs⟩ | ⟨q, rfl, hq⟩⟩
    · exact .inl ho
    · exact .inr ⟨none, hc, he, h0, .inl ⟨rfl, rightPart_eq_some.mpr ⟨hs, rfl⟩⟩⟩
    · exact .inr ⟨some q, hc, he, h0, .inr ⟨q, rfl, ih b hq⟩⟩

theorem FetchRight.rightPart (hf : FetchRight sha store h fetch) (hb : ∀ hash, store hash ≠ none → backed) :
    Backing (rightPart sha store) backed fetch h := by
  refine FetchRight.backing (fun n hash u hu => ?_) (fun hash hn => ?_) fun hash u hu => (rightPart_eq_some.mp hu).2
  · obtain ⟨f, he, hr⟩ := hf n hash u (rightPart_eq_some.mp hu).1
    exact ⟨f, he, hr.rightPart⟩
  · obtain ⟨u, hu⟩ := ne_none_iff_exists'.mp hn
    exact hb hash (by rw [(rightPart_eq_some.mp hu).1]; exact some_ne_none u)

variable {leaf : Leaf}

namespace Shows

theorem leaf_node (hr : Shows store h (.leaf leaf) r) :
    (h.node r).isInner = false ∧ (h.node r).peekItem = some leaf.item := by
  obtain ⟨hash, cw, hn⟩ := hr
  rw [hn]
  exact ⟨rfl, rfl⟩

theorem isInner (hr : Shows store h (.inner child) r) : (h.node r).isInner := by
  obtain ⟨hash, cw, g, sl, hn, -⟩ := hr
  rw [hn]
  rfl

theorem isEmptyBranch (hr : Shows store h (.inner child) r) (b : Branch) :
    (h.node r).isEmptyBranch b = (child b).isEmpty := by
  obtain ⟨hash, cw, g, sl, hn, hs⟩ := hr
  have hi : h.InnerAt r sl := ⟨_, _, _, hn⟩
  rw [hi.isEmptyBranch]
  rcases hs b with ⟨ho, hm⟩ | ⟨hash', c, hc, hne, -⟩
  · rw [ho, hm]
    rfl
  · rw [hc, isNone_some, Eq.comm, Bool.eq_false_iff]
    exact fun he => hne (Tree.isEmpty_iff.mp he)

/-- Loading a child that the store knows leaves what every node shows. -/
theorem fetchStep (hB : Backing store backed fetch h) (hs : FetchStep fetch h h')
    (hr : Shows store h t r) : Shows store h' t r := by
  induction t generalizing r with
  | empty => exact hr
  | leaf leaf =>
    obtain ⟨hash, cw, hn⟩ := hr
    exact ⟨hash, cw, (hs.leaf (by rw [hn]; rfl)).trans hn⟩
  | inner child ih =>
    obtain ⟨hash, cw, g, sl, hn, hl⟩ := hr
    rcases hs.node_cases r with hm | ⟨nh, cowid', g', sl', b, hash', f, hn', hb, hf, -, he⟩
    · refine ⟨hash, cw, g, sl, hm.trans hn, fun b => ?_⟩
      rcases hl b with ho | ⟨hash', c, hc, hne, ht | ⟨q, rfl, hq⟩⟩
      · exact .inl ho
      · exact .inr ⟨hash', c, hc, hne, .inl ht⟩
      · exact .inr ⟨hash', some q, hc, hne, .inr ⟨q, rfl, ih b hq⟩⟩
    · obtain ⟨rfl, rfl, hbo⟩ := SHAMapTreeNode.mk.inj (hn.symm.trans hn')
      obtain ⟨rfl, rfl⟩ := NodeBody.inner.inj hbo
      refine ⟨hash, cw, g, _, he, fun b' => ?_⟩
      by_cases hbb : b' = b
      · -- the slot that was filled
        subst hbb
        rcases hl b' with ⟨ho, -⟩ | ⟨ha, c, hc, hne, ⟨rfl, ht⟩ | ⟨q, rfl, hq⟩⟩
        · rw [hb] at ho
          cases ho
        · rw [hb] at hc
          obtain ⟨rfl, -⟩ := Slot.mk.inj (some.inj hc)
          obtain ⟨f', hf', -, hw⟩ := hB.finds h.calls _ _ ht
          obtain rfl : f = f' := some.inj (hf.symm.trans hf')
          exact .inr ⟨hash', some f, Function.update_self .., hne, .inr ⟨f, rfl, ih b' hw⟩⟩
        · rw [hb] at hc
          cases hc
      · rw [Function.update_of_ne hbb]
        rcases hl b' with ho | ⟨ha, c, hc, hne, ht | ⟨q, rfl, hq⟩⟩
        · exact .inl ho
        · exact .inr ⟨ha, c, hc, hne, .inl ht⟩
        · exact .inr ⟨ha, some q, hc, hne, .inr ⟨q, rfl, ih b' hq⟩⟩

end Shows

/-- A step of a walk leaves the hash of a node. -/
theorem FetchStep.hash_eq (hs : FetchStep fetch h h') (r : Ref) : (h'.node r).hash = (h.node r).hash := by
  rcases hs.node_cases r with hm | ⟨hash, cw, g, sl, b, hash', f, hn, -, -, -, he⟩
  · rw [hm]
  · rw [he, hn]

namespace Reads

theorem refl (hB : Backing store backed fetch h) : Reads store backed fetch h h := ⟨hB, fun _ _ h => h⟩

theorem trans {h1 h2 : Heap} (h12 : Reads store backed fetch h h1) (h23 : Reads store backed fetch h1 h2) :
    Reads store backed fetch h h2 :=
  ⟨h23.backing, fun t r hr => h23.shows t r (h12.shows t r hr)⟩

theorem of_fetchStep (hB : Backing store backed fetch h) (hs : FetchStep fetch h h') : Reads store backed fetch h h' where
  backing := ⟨hB.backed, fun n hash u hu => by
    obtain ⟨f, hf, hh, hw⟩ := hB.finds n hash u hu
    exact ⟨f, hf, (hs.hash_eq f).trans hh, hw.fetchStep hB hs⟩⟩
  shows _ _ hr := hr.fetchStep hB hs

end Reads

/-- **Going down a branch** that is not empty gives its child, loaded. -/
theorem wp_descendThrow_shows (hB : Backing store backed fetch h) (hr : Shows store h (.inner child) r)
    (hb : child b ≠ .empty) {Q : Option Ref → Heap → Prop} {E : TraversalError → Heap → Prop} {F : Fault → Prop}
    (hQ : ∀ q h', Shows store h' (child b) q → Reads store backed fetch h h' → Q (some q) h') :
    wp (descendThrow r b backed fetch) Q E F h := by
  obtain ⟨hash, cw, g, sl, hn, hl⟩ := id hr
  have hi : h.InnerAt r sl := ⟨_, _, _, hn⟩
  rcases hl b with ⟨-, he⟩ | ⟨hash', c, hc, -, ⟨rfl, ht⟩ | ⟨q, rfl, hq⟩⟩
  · exact absurd he hb
  · obtain rfl := hB.backed _ (by rw [ht]; exact some_ne_none _)
    obtain ⟨f, hf, hh, hw⟩ := hB.finds h.calls _ _ ht
    have hs : FetchStep fetch h (h.call.attach r b f) := .attach hi hc hf hh
    rw [wp_descendThrow_fetch hi hc]
    simp only [hf, hh, if_true]
    exact hQ f _ (hw.fetchStep hB hs) (Reads.of_fetchStep hB hs)
  · rw [wp_descendThrow_loaded hi hc]
    exact hQ q h hq (.refl hB)

/-- **A walk in a tree that can be read ends** at the leaf that following the key leads to, if any. -/
theorem wp_walkLoop_shows (key : Uint256) (hB : Backing store backed fetch h) (hb : t.Bounded radix nid.depth)
    (hn : leafDepth < nid.depth + n) (hr : Shows store h t r) : wp (walkLoop key backed fetch n r nid) (fun res h' => Reads store backed fetch h h' ∧
      match Tree.follow radix key t nid.depth with
      | none => res.1 = none
      | some leaf => ∃ q, res.1 = some q ∧ Shows store h' (.leaf leaf) q) ⊥ ⊥ h := by
  induction t generalizing h n r nid with
  | empty => exact hr.elim
  | leaf leaf =>
    obtain _ | n := n
    · have := nid.depth_le
      omega
    simp only [walkLoop, deref, wp_bind, wp_read, wp_pure, hr.leaf_node.1, Bool.false_eq_true, if_false]
    exact ⟨.refl hB, r, rfl, hr⟩
  | inner child ih =>
    obtain ⟨hd, hb⟩ := hb
    obtain _ | n := n
    · have := nid.depth_le
      omega
    obtain ⟨ci, hid, hcd⟩ := getChildNodeId_ok hd (key.nibble nid.depth)
    have hf : Tree.follow radix key (.inner child) nid.depth =
        Tree.follow radix key (child (key.nibble nid.depth)) ci.depth := by rw [hcd]; rfl
    rw [hf]
    simp only [walkLoop, deref, wp_bind, wp_read, wp_pure, hr.isInner, if_true, selectBranch_eq hd,
      wp_lift_ok, hr.isEmptyBranch]
    by_cases hm : child (key.nibble nid.depth) = .empty
    · simp only [hm, Tree.isEmpty, if_true]
      exact ⟨.refl hB, rfl⟩
    · have hne : (child (key.nibble nid.depth)).isEmpty = false :=
        Bool.eq_false_iff.mpr fun he => hm (Tree.isEmpty_iff.mp he)
      simp only [hne, Bool.false_eq_true, if_false, wp_bind]
      -- the walk goes on in the child, once it is loaded
      refine wp_descendThrow_shows hB hr hm fun q h1 hq hrd => ?_
      have hb' := hcd.symm ▸ hb (key.nibble nid.depth)
      simp only [hid, wp_bind, wp_pure]
      refine wp_prefetchNextChild (fun hi => ?_) (wp_imp (ih _ hrd.backing hb' (by omega) hq)
        (fun _ _ hp => ⟨hrd.trans hp.1, hp.2⟩))
      cases hc : child (key.nibble nid.depth) with
      | empty => exact absurd hc hm
      | leaf leaf =>
        rw [hc] at hq
        rw [hq.leaf_node.1] at hi
        cases hi
      | inner gr =>
        rw [hc] at hb'
        exact hb'.1

theorem walkLoop_total (key : Uint256) (hB : Backing store backed fetch h) (hb : t.Bounded radix nid.depth)
    (hn : leafDepth < nid.depth + n) (hr : Shows store h t r) : wp (walkLoop key backed fetch n r nid) ⊤ ⊥ ⊥ h :=
  wp_imp (wp_walkLoop_shows key hB hb hn hr) (fun _ _ _ => trivial)

/-- The leaf of a key in a tree whose walk ends at a leaf. -/
theorem lookup_of_follow (hf : Tree.follow radix key t 0 = some leaf) :
    Tree.lookup radix key t 0 = if leaf.item.key = key then some leaf else none := by
  rw [Tree.lookup_eq_follow, hf]
  by_cases hk : leaf.item.key = key
  · rw [if_pos hk]
    exact filter_eq_some_iff.mpr ⟨rfl, decide_eq_true hk⟩
  · rw [if_neg hk]
    exact filter_eq_none_iff.mpr fun a ha => by cases ha; exact ne_true_of_eq_false (decide_eq_false hk)

theorem lookup_of_follow_none (hf : Tree.follow radix key t 0 = none) : Tree.lookup radix key t 0 = none := by
  rw [Tree.lookup_eq_follow, hf]
  rfl

/-- The leaf that a node is, if it is one. -/
def SHAMapTreeNode.asLeaf (n : SHAMapTreeNode) : Option Leaf :=
  match n.body with
  | .inner .. => none
  | .leaf type item => some ⟨type, item⟩

theorem SHAMapTreeNode.peekItem_of_asLeaf {n : SHAMapTreeNode} (hn : n.asLeaf = some leaf) :
    n.peekItem = some leaf.item := by
  obtain ⟨hash, cw, body⟩ := n
  cases body with
  | inner g sl => cases hn
  | leaf type it =>
    cases hn
    rfl

theorem Shows.asLeaf (hr : Shows store h (.leaf leaf) r) : (h.node r).asLeaf = some leaf := by
  obtain ⟨hash, cw, hn⟩ := hr
  rw [hn]
  rfl

/-- **A search finds what the tree has under the key.** -/
theorem wp_findKey_shows (key : Uint256) (hB : Backing store backed fetch h)
    (hb : t.Bounded radix 0) (hr : Shows store h t r) :
    wp (findKey r key backed fetch) (fun o h' => Reads store backed fetch h h' ∧
      o.bind (fun q => (h'.node q).asLeaf) = Tree.lookup radix key t 0 ∧
      (o = none ↔ Tree.lookup radix key t 0 = none)) ⊥ ⊥ h := by
  simp only [findKey, walkTowardsKey, walkTowardsKeyWithPath, wp_bind, wp_pure]
  refine wp_imp (wp_walkLoop_shows key hB (show t.Bounded radix SHAMapNodeId.root.depth from hb) (by decide) hr) ?_
  rintro ⟨last, path⟩ h' ⟨hd, he⟩
  have ht : SHAMapNodeId.root.depth = 0 := rfl
  rw [ht] at he
  cases hf : Tree.follow radix key t 0 with
  | none =>
    rw [hf] at he
    obtain rfl : last = none := he
    rw [lookup_of_follow_none hf]
    exact ⟨hd, rfl, Iff.rfl.trans (by simp)⟩
  | some leaf =>
    rw [hf] at he
    obtain ⟨q, hq, hl⟩ := he
    obtain rfl : last = some q := hq
    rw [lookup_of_follow hf]
    simp only [deref, wp_bind, wp_read, wp_pure, hl.leaf_node.2, any_some, decide_eq_true_eq]
    by_cases hk : leaf.item.key = key
    · simp only [hk, if_true]
      exact ⟨hd, hl.asLeaf, by simp⟩
    · simp only [hk, if_false]
      exact ⟨hd, rfl, by simp⟩

/-- A step down without a callback changes nothing. -/
theorem descendThrow_unbacked (r : Ref) (b : Branch) (fetch : Fetch) (h : Heap) :
    wp (descendThrow r b false fetch) (fun _ h' => h' = h) (fun _ h' => h' = h) (fun _ => True) h := by
  simp only [descendThrow, descend, deref, wp_bind, wp_read, wp_pure, Bool.not_false, Bool.or_true,
    Bool.true_or, if_true, wp_ite, wp_fail, wp_abort, implies_true, and_self]

/-- Nor does a walk. -/
theorem walkLoop_unbacked (key : Uint256) (fetch : Fetch) (n : ℕ) (r : Ref) (nid : SHAMapNodeId) (h : Heap) :
    wp (walkLoop key false fetch n r nid) (fun _ h' => h' = h) (fun _ h' => h' = h) ⊤ h := by
  induction n generalizing r nid with
  | zero => exact trivial
  | succ n ih =>
    simp only [walkLoop, deref, wp_bind, wp_read, wp_pure]
    cases hn : (h.node r).isInner with
    | false => simp only [Bool.false_eq_true, if_false, wp_pure]
    | true =>
      simp only [if_true, wp_bind]
      cases hb : selectBranch nid key with
      | error e => exact trivial
      | ok b =>
        simp only [wp_lift_ok, wp_ite, wp_pure, implies_true, true_and, wp_bind]
        intro he
        refine wp_imp (descendThrow_unbacked r b fetch h) ?_
        rintro o _ rfl
        cases o with
        | none => exact trivial
        | some next =>
          cases hd : nid.getChildNodeId b with
          | error e => exact trivial
          | ok ci =>
            simp only [prefetchNextChild, deref, wp_bind, wp_read, wp_pure, wp_ite]
            refine ⟨fun hi => ?_, fun _ => ih next ci⟩
            cases selectBranch ci key with
            | error e => exact trivial
            | ok b' => exact ih next ci

theorem findKey_unbacked (r : Ref) (key : Uint256) (fetch : Fetch) (h : Heap) :
    wp (findKey r key false fetch) (fun _ h' => h' = h) (fun _ h' => h' = h) ⊤ h := by
  simp only [findKey, walkTowardsKey, walkTowardsKeyWithPath, wp_bind, wp_pure]
  refine wp_imp (walkLoop_unbacked key fetch _ r .root h) ?_
  rintro ⟨_ | last, path⟩ _ rfl
  · exact rfl
  · simp only [deref, wp_bind, wp_read, wp_pure, wp_ite, implies_true, and_self]

end Xrpld.SHAMap
