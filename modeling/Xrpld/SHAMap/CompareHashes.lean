import Xrpld.SHAMap.Compare
import Xrpld.SHAMap.RootSnapshot

/-!
# Hashes of maps that are compared

Two trees are compared by their hashes first, so a tree that has been changed is hashed before
(`ensure_loaded_hashes`). `Kept` says which trees that works for: a node that has a hash has the right one,
and so has all that is below it. Hashing one tree is right for the other too, whatever nodes they share
(`Rehashes`).

`treeHash_inj` says what equal hashes tell: canonical trees with the same hash are the same.
-/

namespace Xrpld.SHAMap

open List Option

/-! ### What a hash tells -/

variable {sha : Sha} {d : ℕ} {t u : MapTree} {ε : Type}

section

variable {S : Set (List UInt8)}

/-- The key of a plain transaction is its hash. -/
def PlainKeys (sha : List UInt8 → Uint256) (t : MapTree) : Prop :=
  ∀ leaf ∈ t, leaf.type = .transactionNm → leaf.item.key = leaf.hash sha

theorem PlainKeys.child {ch : Branch → MapTree} (h : PlainKeys sha (.inner ch)) (b : Branch) :
    PlainKeys sha (ch b) := fun leaf hl => h leaf ⟨b, hl⟩

/-- A leaf is known by the bytes its hash is of. -/
theorem Leaf.eq_of_bytes {leaf lf' : Leaf} (hy : serializeLeafWithPrefix leaf.type leaf.item =
    serializeLeafWithPrefix lf'.type lf'.item) (he : leaf.type = .transactionNm → leaf.item.key = leaf.hash sha)
    (hke : lf'.type = .transactionNm → lf'.item.key = lf'.hash sha) : leaf = lf' := by
  have ht := type_of_serializeLeafWithPrefix hy
  have hp : leafPayload leaf.type leaf.item = leafPayload lf'.type lf'.item := by
    rw [serializeLeafWithPrefix, serializeLeafWithPrefix, ht] at hy
    rw [ht]
    exact append_cancel_left hy
  have hh : leaf.hash sha = lf'.hash sha := congrArg sha hy
  obtain ⟨type, key, data, hz⟩ := leaf
  obtain ⟨type', k', data', hs⟩ := lf'
  obtain rfl : type = type' := ht
  have hb : data = data' ∧ key = k' := by
    cases type with
    | transactionNm => exact ⟨hp, (he rfl).trans (hh.trans (hke rfl).symm)⟩
    | transactionMd | accountState =>
      obtain ⟨hd, hk⟩ := append_inj' hp (key.length_data.trans k'.length_data.symm)
      obtain ⟨bytes, _⟩ := key
      obtain ⟨bytes', _⟩ := k'
      obtain rfl : bytes = bytes' := hk
      exact ⟨hd, rfl⟩
  obtain ⟨rfl, rfl⟩ := hb
  rfl

/-- Inner trees with the same hash have branches with the same hashes. -/
theorem treeHash_child_eq (hS : CollisionFree sha S) {ch ch' : Branch → MapTree}
    (ht : HashedIn sha S (.inner ch)) (hu : HashedIn sha S (.inner ch'))
    (h : treeHash sha (.inner ch) = treeHash sha (.inner ch')) (b : Branch) :
    treeHash sha (ch b) = treeHash sha (ch' b) := by
  by_cases he : ∀ b, ch b = .empty
  · by_cases he' : ∀ b, ch' b = .empty
    · rw [he, he']
    · rw [treeHash_inner_empty _ he, treeHash_inner _ he'] at h
      exact absurd h.symm (hS.ne_zero _ (hu.1 he'))
  · by_cases he' : ∀ b, ch' b = .empty
    · rw [treeHash_inner _ he, treeHash_inner_empty _ he'] at h
      exact absurd h (hS.ne_zero _ (ht.1 he))
    · rw [treeHash_inner _ he, treeHash_inner _ he'] at h
      exact congrFun (innerBytes_injective (hS.inj (ht.1 he) (hu.1 he') h)) b

/-- **Trees with the same hash are the same.** -/
theorem treeHash_inj (hS : CollisionFree sha S) (hc : Tree.Canon radix d t) (hcu : Tree.Canon radix d u)
    (ht : HashedIn sha S t) (hu : HashedIn sha S u) (hkt : PlainKeys sha t) (hk : PlainKeys sha u)
    (h : treeHash sha t = treeHash sha u) : t = u := by
  induction t generalizing u d with
  | empty =>
    by_contra hn
    exact treeHash_ne_zero hS hcu hu (Ne.symm hn) h.symm
  | leaf leaf =>
    obtain ⟨lf', rfl, -, hb⟩ := eq_leaf_of_hash hS hu ht h
    exact congrArg Tree.leaf (Leaf.eq_of_bytes hb (hkt leaf rfl) (hk lf' rfl))
  | inner ch ih =>
    cases u with
    | empty => exact absurd h (treeHash_ne_zero hS hc ht (by simp))
    | leaf leaf =>
      obtain ⟨lf', he, -⟩ := eq_leaf_of_hash hS ht hu h.symm
      cases he
    | inner ch' =>
      refine congrArg Tree.inner (funext fun b => ?_)
      exact ih b (hc.children b).1 (hcu.children b).1 (ht.2 b) (hu.2 b) (hkt.child b) (hk.child b)
        (treeHash_child_eq hS ht hu h b)

end

/-! ### Trees to be hashed -/

section

variable (sha : Sha) (store : MapStore)

/-- **A node keeps a tree**, hashed or not: the hash of an inner node is zero, or the node stands for the tree with all
its hashes; the child of a branch that is set is kept too, or the store knows it by its hash. -/
def Kept (h : Heap) : MapTree → Ref → Prop
  | .empty, _ => False
  | .leaf leaf, r => ∃ hash cowid, h.node r = ⟨hash, cowid, .leaf leaf.type leaf.item⟩ ∧
      ClearOr hash (leaf.hash sha)
  | .inner child, r => ∃ hash cowid g slots, h.node r = ⟨hash, cowid, .inner g slots⟩ ∧
      (hash = 0 ∨ Represents sha store h (.inner child) r) ∧
      ∀ b, (slots b = none ∧ child b = .empty) ∨
        ∃ hash c, slots b = some ⟨hash, c⟩ ∧ child b ≠ .empty ∧ treeHash sha (child b) ≠ 0 ∧
          ((c = none ∧ hash = treeHash sha (child b) ∧ store hash = some (child b)) ∨
            ∃ q, c = some q ∧ Kept h (child b) q)

/-- A node that need not be in the heap stands for a tree. -/
def NodeFor (h : Heap) (n : SHAMapTreeNode) : MapTree → Prop
  | .empty => False
  | .leaf leaf => ∃ cowid, n = ⟨leaf.hash sha, cowid, .leaf leaf.type leaf.item⟩
  | .inner child => ∃ cowid g slots, n = ⟨treeHash sha (.inner child), cowid, .inner g slots⟩ ∧
      Branches sha store h child slots

end

/-- A store that knows less. -/
def SubStore (s store : SHAMapHash → Option MapTree) : Prop := ∀ hash u, s hash = some u → store hash = some u

theorem SubStore.refl (store : MapStore) : SubStore store store := fun _ _ h => h

theorem SubStore.none (store : MapStore) : SubStore (fun _ => none) store :=
  fun _ _ h => by cases h

variable {s store : MapStore} {h h' h'' : Heap} {r : Ref} {ch : Branch → MapTree}

theorem Represents.mono (hs : SubStore s store) (hr : Represents sha s h t r) : Represents sha store h t r := by
  induction t generalizing r with
  | empty => exact hr
  | leaf leaf => exact hr
  | inner ch ih =>
    obtain ⟨cw, g, sl, hn, hl⟩ := hr
    refine ⟨cw, g, sl, hn, fun b => ?_⟩
    rcases hl b with ho | ⟨c, hc, he, h0, ⟨rfl, ht⟩ | ⟨q, rfl, hq⟩⟩
    · exact .inl ho
    · exact .inr ⟨none, hc, he, h0, .inl ⟨rfl, hs _ _ ht⟩⟩
    · exact .inr ⟨some q, hc, he, h0, .inr ⟨q, rfl, ih b hq⟩⟩

/-- A tree with its hashes is kept. -/
theorem Represents.kept (hr : Represents sha s h t r) : Kept sha s h t r := by
  induction t generalizing r with
  | empty => exact hr
  | leaf leaf =>
    obtain ⟨cw, hn⟩ := hr
    exact ⟨_, cw, hn, .inr rfl⟩
  | inner ch ih =>
    obtain ⟨cw, g, sl, hn, hl⟩ := id hr
    refine ⟨_, cw, g, sl, hn, .inr hr, fun b => ?_⟩
    rcases hl b with ho | ⟨c, hc, he, h0, ⟨rfl, hs⟩ | ⟨q, rfl, hq⟩⟩
    · exact .inl ho
    · exact .inr ⟨_, none, hc, he, h0, .inl ⟨rfl, rfl, hs⟩⟩
    · exact .inr ⟨_, some q, hc, he, h0, .inr ⟨q, rfl, ih b hq⟩⟩

namespace Kept

theorem mono (hs : SubStore s store) (hr : Kept sha s h t r) : Kept sha store h t r := by
  induction t generalizing r with
  | empty => exact hr
  | leaf leaf => exact hr
  | inner ch ih =>
    obtain ⟨hash, cw, g, sl, hn, ha, hl⟩ := hr
    refine ⟨hash, cw, g, sl, hn, ha.imp_right (Represents.mono hs), fun b => ?_⟩
    rcases hl b with ho | ⟨hash', c, hc, he, h0, ⟨rfl, hh, ht⟩ | ⟨q, rfl, hq⟩⟩
    · exact .inl ho
    · exact .inr ⟨hash', none, hc, he, h0, .inl ⟨rfl, hh, hs _ _ ht⟩⟩
    · exact .inr ⟨hash', some q, hc, he, h0, .inr ⟨q, rfl, ih b hq⟩⟩

/-- A node that has a hash stands for its tree. -/
theorem represents_of_hash (hr : Kept sha s h t r) (h0 : (h.node r).hash ≠ 0) : Represents sha s h t r := by
  cases t with
  | empty => exact hr
  | leaf leaf =>
    obtain ⟨hash, cw, hn, hc⟩ := hr
    rw [hn] at h0
    rw [hc.resolve_left h0] at hn
    exact ⟨cw, hn⟩
  | inner ch =>
    obtain ⟨hash, cw, g, sl, hn, hh, -⟩ := hr
    rw [hn] at h0
    exact hh.resolve_left h0

/-- **A node keeps one tree only.** -/
theorem unique (hr : Kept sha s h t r) (hr' : Kept sha s h u r) : t = u := by
  induction t generalizing r u with
  | empty => exact hr.elim
  | leaf leaf =>
    obtain ⟨hash, cw, hn, -⟩ := hr
    cases u with
    | empty => exact hr'.elim
    | leaf lf' =>
      obtain ⟨_, _, hn', -⟩ := hr'
      rw [hn, SHAMapTreeNode.mk.injEq, NodeBody.leaf.injEq] at hn'
      obtain ⟨type, it⟩ := leaf
      obtain ⟨-, -, rfl, rfl⟩ := hn'
      rfl
    | inner ch =>
      obtain ⟨_, _, _, _, hn', -⟩ := hr'
      rw [hn] at hn'
      cases hn'
  | inner ch ih =>
    obtain ⟨hash, cw, g, sl, hn, -, hl⟩ := hr
    cases u with
    | empty => exact hr'.elim
    | leaf leaf =>
      obtain ⟨_, _, hn', -⟩ := hr'
      rw [hn] at hn'
      cases hn'
    | inner ch' =>
      obtain ⟨_, _, _, sl', hn', -, hs⟩ := hr'
      obtain rfl : sl' = sl := Heap.InnerAt.unique ⟨_, _, _, hn'⟩ ⟨_, _, _, hn⟩
      refine congrArg Tree.inner (funext fun b => ?_)
      rcases hl b with ⟨hno, he⟩ | ⟨ha, c, hc, -, -, hk⟩ <;> rcases hs b with ⟨ho, he'⟩ | ⟨has, c', hc', -, -, hk'⟩
      · rw [he, he']
      · rw [hno] at hc'
        cases hc'
      · rw [ho] at hc
        cases hc
      · obtain ⟨rfl, rfl⟩ := Slot.mk.inj (some.inj (hc.symm.trans hc'))
        rcases hk with ⟨rfl, -, hst⟩ | ⟨q, rfl, hq⟩ <;> rcases hk' with ⟨hcq, -, ht⟩ | ⟨q', hcq, hq'⟩
        · exact some.inj (hst.symm.trans ht)
        · cases hcq
        · cases hcq
        · cases hcq
          exact ih b hq hq'

/-- What is left of a tree in a store that knows more, once its hashes are there. -/
theorem represents (hr : Kept sha s h t r) (he : Represents sha store h t r) : Represents sha s h t r := by
  induction t generalizing r with
  | empty => exact he
  | leaf leaf => exact he
  | inner ch ih =>
    obtain ⟨_, _, _, sl', hn', -, hs⟩ := hr
    obtain ⟨cw, g, sl, hn, hl⟩ := he
    obtain rfl : sl' = sl := Heap.InnerAt.unique ⟨_, _, _, hn'⟩ ⟨_, _, _, hn⟩
    refine ⟨cw, g, sl', hn, fun b => ?_⟩
    rcases hl b with ho | ⟨c, hc, hne, h0, hk⟩
    · exact .inl ho
    · refine .inr ⟨c, hc, hne, h0, ?_⟩
      rcases hs b with ⟨ho, -⟩ | ⟨hash', c', hc', -, -, hk'⟩
      · rw [hc] at ho
        cases ho
      · obtain ⟨rfl, rfl⟩ := Slot.mk.inj (some.inj (hc.symm.trans hc'))
        rcases hk' with ⟨rfl, -, ht⟩ | ⟨q, rfl, hq⟩
        · exact .inl ⟨rfl, ht⟩
        · refine .inr ⟨q, rfl, ih b hq ?_⟩
          rcases hk with ⟨hcq, -⟩ | ⟨q', hcq, hq'⟩
          · cases hcq
          · cases hcq
            exact hq'

theorem below (hr : Kept sha s h (.inner ch) r) {b : Branch} {q : Ref}
    (hb : (h.node r).getChild b = some q) : Kept sha s h (ch b) q := by
  obtain ⟨hash, cw, g, sl, hn, -, hl⟩ := hr
  have hi : h.InnerAt r sl := ⟨_, _, _, hn⟩
  rw [hi.getChild] at hb
  rcases hl b with ⟨ho, -⟩ | ⟨hash, c, hs, -, -, ⟨rfl, -⟩ | ⟨q', rfl, hq⟩⟩
  · rw [ho] at hb
    cases hb
  · rw [hs] at hb
    cases hb
  · rw [hs] at hb
    cases hb
    exact hq

end Kept

/-! ### Hashing -/

variable (sha store) in
/-- What hashing may do to the heap: every node keeps the tree it kept, with the same children, and with its hashes if
it had them. -/
structure Rehashes (h h' : Heap) : Prop where
  represents : ∀ s, SubStore s store → ∀ u q, Represents sha s h u q → Represents sha s h' u q
  kept : ∀ s, SubStore s store → ∀ u q, Kept sha s h u q → Kept sha s h' u q
  getChild : ∀ q b, (h'.node q).getChild b = (h.node q).getChild b

namespace Rehashes

theorem refl (h : Heap) : Rehashes sha store h h :=
  ⟨fun _ _ _ _ h => h, fun _ _ _ _ h => h, fun _ _ => rfl⟩

theorem trans (h1 : Rehashes sha store h h') (h2 : Rehashes sha store h' h'') : Rehashes sha store h h'' :=
  ⟨fun s hs u q hr => h2.represents s hs u q (h1.represents s hs u q hr),
    fun s hs u q hr => h2.kept s hs u q (h1.kept s hs u q hr),
    fun q b => (h2.getChild q b).trans (h1.getChild q b)⟩

/-- **Hashing a node** is right for every tree it is a node of, and the node stands for its tree then. -/
theorem set {n : SHAMapTreeNode} (ht : Kept sha store h t r)
    (hn : ∀ s, SubStore s store → Kept sha s h t r → NodeFor sha s h n t)
    (hg : ∀ b, n.getChild b = (h.node r).getChild b) :
    Rehashes sha store h (h.set r n) ∧ Represents sha store (h.set r n) t r := by
  have hr : ∀ s, SubStore s store → ∀ u q, Represents sha s h u q → Represents sha s (h.set r n) u q := by
    intro s hs u
    induction u with
    | empty => exact fun q hq => hq
    | leaf leaf =>
      intro q hq
      by_cases hqr : q = r
      · subst hqr
        obtain rfl := ht.unique (hq.kept.mono hs)
        obtain ⟨cw, hn⟩ := hn s hs hq.kept
        exact ⟨cw, by rw [node_set_self, hn]⟩
      · obtain ⟨cw, hq⟩ := hq
        exact ⟨cw, by rw [node_set_of_ne hqr, hq]⟩
    | inner ch ih =>
      intro q hq
      have hb : ∀ sl, Branches sha s h ch sl → Branches sha s (h.set r n) ch sl := by
        intro sl hl b
        rcases hl b with ho | ⟨c, hc, hne, h0, hst | ⟨q, rfl, hq⟩⟩
        · exact .inl ho
        · exact .inr ⟨c, hc, hne, h0, .inl hst⟩
        · exact .inr ⟨some q, hc, hne, h0, .inr ⟨q, rfl, ih b q hq⟩⟩
      by_cases hqr : q = r
      · subst hqr
        obtain rfl := ht.unique (hq.kept.mono hs)
        obtain ⟨cw, g, sl, hn, hl⟩ := hn s hs hq.kept
        exact ⟨cw, g, sl, by rw [node_set_self, hn], hb sl hl⟩
      · obtain ⟨cw, g, sl, hq, hl⟩ := hq
        exact ⟨cw, g, sl, by rw [node_set_of_ne hqr, hq], hb sl hl⟩
  have he : ∀ s, SubStore s store → Kept sha s h t r → Represents sha s (h.set r n) t r := by
    intro s hs hk
    have hf := hn s hs hk
    cases t with
    | empty => exact hf
    | leaf leaf =>
      obtain ⟨cw, hn⟩ := hf
      exact ⟨cw, by rw [node_set_self, hn]⟩
    | inner ch =>
      obtain ⟨cw, g, sl, hn, hl⟩ := hf
      refine ⟨cw, g, sl, by rw [node_set_self, hn], fun b => ?_⟩
      rcases hl b with ho | ⟨c, hc, hne, h0, hst | ⟨q, rfl, hq⟩⟩
      · exact .inl ho
      · exact .inr ⟨c, hc, hne, h0, .inl hst⟩
      · exact .inr ⟨some q, hc, hne, h0, .inr ⟨q, rfl, hr s hs _ q hq⟩⟩
  refine ⟨⟨hr, fun s hs u => ?_, fun q b => ?_⟩, he store (.refl store) ht⟩
  · induction u with
    | empty => exact fun q hq => hq
    | leaf leaf =>
      intro q hq
      by_cases hqr : q = r
      · subst hqr
        obtain rfl := ht.unique (hq.mono hs)
        exact (he s hs hq).kept
      · obtain ⟨hash, cw, hq, hcl⟩ := hq
        exact ⟨hash, cw, by rw [node_set_of_ne hqr, hq], hcl⟩
    | inner ch ih =>
      intro q hq
      by_cases hqr : q = r
      · subst hqr
        obtain rfl := ht.unique (hq.mono hs)
        exact (he s hs hq).kept
      · obtain ⟨hash, cw, g, sl, hq, hh, hl⟩ := hq
        refine ⟨hash, cw, g, sl, by rw [node_set_of_ne hqr, hq], hh.imp_right (hr s hs _ q), fun b => ?_⟩
        rcases hl b with ho | ⟨hash', c, hc, hne, h0, hst | ⟨q', rfl, hq'⟩⟩
        · exact .inl ho
        · exact .inr ⟨hash', c, hc, hne, h0, .inl hst⟩
        · exact .inr ⟨hash', some q', hc, hne, h0, .inr ⟨q', rfl, ih b q' hq'⟩⟩
  · by_cases hqr : q = r
    · subst hqr
      rw [node_set_self, hg]
    · rw [node_set_of_ne hqr]

end Rehashes

/-- The children of a node have their hashes. -/
def ChildrenKnown (sha : List UInt8 → Uint256) (store : SHAMapHash → Option MapTree) (h : Heap)
    (child : Branch → MapTree) (r : Ref) (bs : List Branch) : Prop :=
  ∀ b ∈ bs, ∀ q, (h.node r).getChild b = some q → Represents sha store h (child b) q

/-- The slots of a node whose children have their hashes, refreshed. -/
theorem Kept.branches_refreshSlots {sl : Slots} (hs : Kept sha s h (.inner ch) r)
    (hi : h.InnerAt r sl) (hh : ChildrenKnown sha store h ch r (finRange 16)) :
    Branches sha s h ch (refreshSlots h sl) := by
  obtain ⟨_, _, _, sl', hn, -, hl⟩ := id hs
  obtain rfl : sl' = sl := Heap.InnerAt.unique ⟨_, _, _, hn⟩ hi
  intro b
  rcases hl b with ⟨ho, he⟩ | ⟨hash, c, hc, hne, h0, ⟨rfl, rfl, ht⟩ | ⟨q, rfl, hq⟩⟩
  · exact .inl ⟨by rw [refreshSlots, ho, map_none], he⟩
  · exact .inr ⟨none, by rw [refreshSlots, hc, map_some], hne, h0, .inl ⟨rfl, ht⟩⟩
  · have hr := hh b (mem_finRange b) q (by rw [hi.getChild, hc]; rfl)
    refine .inr ⟨some q, ?_, hne, h0, .inr ⟨q, rfl, hq.represents hr⟩⟩
    rw [refreshSlots, hc, map_some, ← hr.hash_eq]

/-- An inner node is hashed, once its children are. -/
theorem wp_updateHashDeep_kept {Q : Unit → Heap → Prop} {E : ε → Heap → Prop} {F : Fault → Prop}
    (ht : Kept sha store h (.inner ch) r) (hc : ChildrenKnown sha store h ch r (finRange 16))
    (hQ : ∀ h', Rehashes sha store h h' → Represents sha store h' (.inner ch) r → Q () h') :
    wp (updateHashDeep sha r) Q E F h := by
  obtain ⟨hash, cw, g, sl, hn, -, -⟩ := id ht
  have hi : h.InnerAt r sl := ⟨_, _, _, hn⟩
  have hh := (ht.branches_refreshSlots hi hc).computeInnerHash_eq
  simp only [updateHashDeep, wp_bind, wp_read, hn, SHAMap.store, wp_update, hh]
  obtain ⟨hs, hr⟩ := Rehashes.set (n := ⟨treeHash sha (.inner ch), cw, .inner g (refreshSlots h sl)⟩) ht
    (fun s _ hk => ⟨cw, g, _, rfl, hk.branches_refreshSlots hi hc⟩) fun b => by
      rw [hi.getChild]
      show (refreshSlots h sl b).bind Slot.child = _
      rw [refreshSlots]
      rcases sl b with _ | ⟨hash, _ | q⟩ <;> rfl
  exact hQ _ hs hr

/-- What hashing a node with all that is below it does. -/
def HashesKept {ε : Type} (sha : List UInt8 → Uint256) (store : SHAMapHash → Option MapTree) (t : MapTree)
    (p : Ref → HeapM ε Unit) : Prop :=
  ∀ (h : Heap) (r : Ref), Kept sha store h t r → wp (p r)
    (fun _ h' => Rehashes sha store h h' ∧ Represents sha store h' t r) (fun _ _ => False) (fun _ => False) h

/-- **The loaded children of a node are hashed** one after another. -/
theorem wp_ensureChildren {ensure : Ref → HeapM ε Unit} (hr : ∀ b, HashesKept sha store (ch b) ensure)
    (ht : Kept sha store h (.inner ch) r) (bs : List Branch) :
    wp (forEach (fun b => do
        let n ← deref r
        if n.isEmptyBranch b then return () else whenSome (n.getChild b) ensure) bs)
      (fun _ h' => Rehashes sha store h h' ∧ ChildrenKnown sha store h' ch r bs) ⊥ ⊥ h := by
  induction bs generalizing h with
  | nil => exact ⟨.refl h, fun b hb => absurd hb not_mem_nil⟩
  | cons b bs ih =>
    -- the rest of the loop, once the child of this branch has its hash
    have hre : ∀ h1, Rehashes sha store h h1 →
        (∀ q, (h.node r).getChild b = some q → Represents sha store h1 (ch b) q) →
        wp (forEach (fun b => do
            let n ← deref r
            if n.isEmptyBranch b then return ()
            else whenSome (n.getChild b) ensure) bs)
          (fun _ h' => Rehashes sha store h h' ∧ ChildrenKnown sha store h' ch r (b :: bs)) ⊥ ⊥ h1 := by
      intro h1 hs hb
      refine wp_imp (ih (hs.kept _ (.refl _) _ _ ht)) ?_
      rintro - h2 ⟨hs2, hc⟩
      refine ⟨hs.trans hs2, fun b' hb' q hq => ?_⟩
      rcases mem_cons.mp hb' with rfl | hb'
      · rw [(hs.trans hs2).getChild] at hq
        exact hs2.represents _ (.refl _) _ _ (hb q hq)
      · exact hc b' hb' q hq
    simp only [forEach, deref, wp_bind, wp_read, wp_pure]
    obtain ⟨hash, cw, g, sl, hn, -, -⟩ := id ht
    have hi : h.InnerAt r sl := ⟨_, _, _, hn⟩
    rw [hi.isEmptyBranch]
    cases hl : sl b with
    | none =>
      refine hre h (.refl h) fun q hq => ?_
      rw [hi.getChild, hl] at hq
      cases hq
    | some slot =>
      rw [hi.getChild, hl]
      obtain ⟨hash', _ | q⟩ := slot
      · refine hre h (.refl h) fun q hq => ?_
        rw [hi.getChild, hl] at hq
        cases hq
      · have hg : (h.node r).getChild b = some q := by rw [hi.getChild, hl]; rfl
        refine wp_imp (hr b h q (ht.below hg)) ?_
        rintro - h1 ⟨hs, he⟩
        refine hre h1 hs fun q' hq' => ?_
        rw [hg] at hq'
        cases hq'
        exact he

/-- **`ensure_loaded_hashes` gives a tree its hashes**, whatever waits to be hashed. -/
theorem hashesKept_ensureLoadedHashes {lv : ℕ} (hb : t.Bounded radix d) (hd : d ≤ leafDepth)
    (hl : leafDepth < d + lv) : HashesKept (ε := ε) sha store t (ensureLoadedHashes sha lv) := by
  induction lv generalizing t d with
  | zero => omega
  | succ lv ih =>
    intro h r ht
    simp only [ensureLoadedHashes, deref, wp_bind, wp_read, wp_pure, wp_ite]
    refine ⟨fun h0 => ⟨.refl h, ht.represents_of_hash h0⟩, fun _ => ?_⟩
    cases t with
    | empty => exact ht.elim
    | leaf leaf =>
      obtain ⟨hash, cw, hn, -⟩ := id ht
      have hu : (h.node r).updateHash sha = ⟨leaf.hash sha, cw, .leaf leaf.type leaf.item⟩ := by
        rw [hn]
        rfl
      refine ⟨fun hi => ?_, fun _ => ?_⟩
      · rw [hn] at hi
        cases hi
      · rw [SHAMap.store, wp_update, hu]
        exact Rehashes.set ht (fun s _ _ => ⟨cw, rfl⟩) fun b => by rw [hn]; rfl
    | inner ch =>
      obtain ⟨hlt, hb⟩ := hb
      obtain ⟨hash, cw, g, sl, hn, -⟩ := id ht
      refine ⟨fun _ => ?_, fun hi => ?_⟩
      · refine wp_imp (wp_ensureChildren (fun b => ih (hb b) hlt (by omega)) ht _) ?_
        rintro - h1 ⟨hs, hc⟩
        exact wp_updateHashDeep_kept (hs.kept _ (.refl _) _ _ ht) hc fun h2 hs2 hr => ⟨hs.trans hs2, hr⟩
      · rw [hn] at hi
        exact absurd rfl hi

end Xrpld.SHAMap
