import Xrpld.Lib.RadixTree
import Xrpld.SHAMap.Search

/-!
# The map a tree of nodes stands for

The nodes in the heap are one way to keep a radix tree of items. This module says which
(`Represents`): every loaded node is a node of the tree, its hash is the hash of what is
below it, and a child that is not loaded is one that a store knows by its hash.

`treeHash` is the hash of a tree of items itself. It depends on nothing else, so two maps
with the same tree have the same root hash.
-/

namespace Xrpld.SHAMap

open SHAMapTreeNode

/-- A leaf of a map. -/
structure Leaf where
  type : LeafType
  item : SHAMapItem
  deriving DecidableEq

/-- The keys of a map are read half byte by half byte. -/
def radix : Radix Branch Uint256 Leaf where
  digit := Uint256.nibble
  key := fun leaf => leaf.item.key
  depth := leafDepth
  ext := fun _ _ h => Uint256.ext_nibble h

/-- A map as a tree of its leaves. -/
abbrev MapTree := Tree Branch Leaf

/-- The maps that nodes with a hash stand for. -/
abbrev MapStore := SHAMapHash → Option MapTree

variable {child : Branch → MapTree}

section

variable (sha512Half : Sha)

/-- The hash of a leaf. -/
def Leaf.hash (leaf : Leaf) : SHAMapHash := computeLeafHash sha512Half leaf.type leaf.item

/-- The hash of a tree: of nothing, a leaf, or the hashes of the branches. -/
def treeHash : MapTree → SHAMapHash
  | .empty => 0
  | .leaf leaf => leaf.hash sha512Half
  | .inner child =>
    if ∀ b, (child b).isEmpty = true then 0 else sha512Half (innerBytes fun b => treeHash (child b))

theorem treeHash_inner (h : ¬ ∀ b, child b = .empty) :
    treeHash sha512Half (.inner child) = sha512Half (innerBytes fun b => treeHash sha512Half (child b)) := by
  rw [treeHash, if_neg (by simpa using h)]

theorem treeHash_inner_empty (h : ∀ b, child b = .empty) : treeHash sha512Half (.inner child) = 0 := by
  rw [treeHash, if_pos (by simpa using h)]

variable (store : MapStore)

/-- **A node stands for a tree**: its hash is the tree's, and so are the hashes of its branches; a branch
that is set is not empty and has a hash, its child is loaded and stands for the branch, or the store
knows the branch. -/
def Represents (h : Heap) : MapTree → Ref → Prop
  | .empty, _ => False
  | .leaf leaf, r => ∃ cowid, h.node r = ⟨leaf.hash sha512Half, cowid, .leaf leaf.type leaf.item⟩
  | .inner child, r => ∃ cowid g slots, h.node r = ⟨treeHash sha512Half (.inner child), cowid, .inner g slots⟩ ∧
      ∀ b, (slots b = none ∧ child b = .empty) ∨
        ∃ c, slots b = some ⟨treeHash sha512Half (child b), c⟩ ∧ child b ≠ .empty ∧
          treeHash sha512Half (child b) ≠ 0 ∧
          ((c = none ∧ store (treeHash sha512Half (child b)) = some (child b)) ∨
            ∃ q, c = some q ∧ Represents h (child b) q)

/-- What the last clause says of the slots of a node. -/
def Branches (h : Heap) (child : Branch → MapTree) (slots : Branch → Option Slot) : Prop :=
  ∀ b, (slots b = none ∧ child b = .empty) ∨
    ∃ c, slots b = some ⟨treeHash sha512Half (child b), c⟩ ∧ child b ≠ .empty ∧
      treeHash sha512Half (child b) ≠ 0 ∧
      ((c = none ∧ store (treeHash sha512Half (child b)) = some (child b)) ∨
        ∃ q, c = some q ∧ Represents sha512Half store h (child b) q)

/-- A complete map: a node stands for its tree, its leaves are where their keys say, and no inner node
is below the last half byte. -/
structure CompleteMap (h : Heap) (root : Ref) (t : MapTree) : Prop where
  represents : Represents sha512Half store h t root
  placed : t.Placed radix 0
  bounded : t.Bounded radix 0

end

variable {sha512Half : Sha} {store : MapStore} {h : Heap} {sl : Slots}

/-- **Slots with the hashes of the branches have the hash of the tree.** -/
theorem computeInnerHash_of_slots (hs : ∀ b, (sl b = none ∧ child b = .empty) ∨
      ∃ c, sl b = some ⟨treeHash sha512Half (child b), c⟩ ∧ child b ≠ .empty) :
    computeInnerHash sha512Half sl = treeHash sha512Half (.inner child) := by
  have hm : ∀ b, b ∈ setBranches sl ↔ child b ≠ .empty := by
    intro b
    rw [mem_setBranches]
    rcases hs b with ⟨ho, hem⟩ | ⟨c, hc, hne⟩
    · simp [ho, hem]
    · simp [hc, hne]
  by_cases hem : ∀ b, child b = .empty
  · have ht : setBranches sl = [] :=
      List.eq_nil_iff_forall_not_mem.mpr fun b hb => (hm b).mp hb (hem b)
    rw [computeInnerHash, ht, treeHash_inner_empty _ hem]
    rfl
  · have ht : ¬ (setBranches sl).isEmpty := by
      intro hn
      rw [List.isEmpty_iff] at hn
      refine hem fun b => by_contra fun hne => ?_
      have := (hm b).mpr hne
      rw [hn] at this
      cases this
    have hh : slotHash sl = fun b => treeHash sha512Half (child b) := by
      funext b
      rcases hs b with ⟨ho, he⟩ | ⟨c, hc, -⟩
      · rw [slotHash_none ho, he, treeHash]
      · rw [slotHash_some hc]
    rw [computeInnerHash, if_neg ht, hh, treeHash_inner _ hem]

variable {t : MapTree} {r : Ref}

/-- A node has the hash of the tree it stands for. -/
theorem Represents.hash_eq (hr : Represents sha512Half store h t r) : (h.node r).hash = treeHash sha512Half t := by
  cases t with
  | empty => exact hr.elim
  | leaf leaf =>
    obtain ⟨cw, hn⟩ := hr
    rw [hn]
    rfl
  | inner child =>
    obtain ⟨cw, g, sl, hn, -⟩ := hr
    rw [hn]

/-- A leaf node stands for a leaf. -/
theorem Represents.leaf_inv (hr : Represents sha512Half store h t r) (hi : (h.node r).isInner = false) :
    ∃ leaf cw, t = .leaf leaf ∧ h.node r = ⟨leaf.hash sha512Half, cw, .leaf leaf.type leaf.item⟩ := by
  cases t with
  | empty => exact hr.elim
  | leaf leaf =>
    obtain ⟨cw, hn⟩ := hr
    exact ⟨leaf, cw, rfl, hn⟩
  | inner child =>
    obtain ⟨cw, g, sl, hn, -⟩ := hr
    rw [hn] at hi
    cases hi

/-- An inner node stands for an inner tree. -/
theorem Represents.inner_inv (hr : Represents sha512Half store h t r) (hi : h.InnerAt r sl) :
    ∃ child, t = .inner child ∧ Branches sha512Half store h child sl := by
  cases t with
  | empty => exact hr.elim
  | leaf leaf =>
    obtain ⟨cw, hn⟩ := hr
    have := hi.isInner
    rw [hn] at this
    cases this
  | inner child =>
    obtain ⟨cw, g, sl', hn, hl⟩ := hr
    obtain rfl : sl = sl' := hi.unique ⟨_, _, _, hn⟩
    exact ⟨child, rfl, hl⟩

namespace Branches

variable {child : Branch → MapTree} {sl : Slots} {b : Branch}

variable (hs : Branches sha512Half store h child sl)

include hs

theorem empty (hb : sl b = none) : child b = .empty := by
  rcases hs b with ⟨-, he⟩ | ⟨c, hc, -⟩
  · exact he
  · rw [hb] at hc
    cases hc

theorem loaded {hash : SHAMapHash} {q : Ref} (hb : sl b = some ⟨hash, some q⟩) :
    hash = treeHash sha512Half (child b) ∧ Represents sha512Half store h (child b) q := by
  rcases hs b with ⟨hn, -⟩ | ⟨c, hc, -, -, hq⟩
  · rw [hb] at hn
    cases hn
  · obtain ⟨rfl, rfl⟩ := Slot.mk.inj (Option.some.inj (hb.symm.trans hc))
    rcases hq with ⟨hq, -⟩ | ⟨q', hq', hr⟩
    · cases hq
    · cases hq'
      exact ⟨rfl, hr⟩

theorem slotHash_eq : slotHash sl = fun b => treeHash sha512Half (child b) := by
  funext b
  rcases hs b with ⟨hn, he⟩ | ⟨c, hc, -⟩
  · rw [slotHash_none hn, he, treeHash]
  · rw [slotHash_some hc]

/-- A node has the hash of its branches. -/
theorem computeInnerHash_eq : computeInnerHash sha512Half sl = treeHash sha512Half (.inner child) := by
  refine computeInnerHash_of_slots fun b => ?_
  rcases hs b with hn | ⟨c, hc, he, -⟩
  · exact .inl hn
  · exact .inr ⟨c, hc, he⟩

end Branches

/-! ### Walks in a complete map -/

section

variable (sha512Half store) in
/-- The callback finds every node the store knows. -/
def FetchRight (h : Heap) (fetch : Fetch) : Prop :=
  ∀ n hash u, store hash = some u → ∃ f, fetch n hash = some f ∧ Represents sha512Half store h u f

variable {fetch : Fetch} {h' : Heap}

variable (hf : FetchRight sha512Half store h fetch)

include hf

/-- Loading a child that the store knows leaves what every node stands for. -/
theorem Represents.fetchStep (hs : FetchStep fetch h h') (hr : Represents sha512Half store h t r) :
    Represents sha512Half store h' t r := by
  induction t generalizing r with
  | empty => exact hr
  | leaf leaf =>
    obtain ⟨cw, hn⟩ := hr
    exact ⟨cw, (hs.leaf (by rw [hn]; rfl)).trans hn⟩
  | inner child ih =>
    obtain ⟨cw, g, sl, hn, hl⟩ := hr
    rcases hs.node_cases r with hm | ⟨nh, cowid', g', sl', b, hash, f, hn', hb, hfe, -, hw⟩
    · refine ⟨cw, g, sl, hm.trans hn, fun b => ?_⟩
      rcases hl b with ho | ⟨c, hc, hne, h0, ht | ⟨q, rfl, hq⟩⟩
      · exact .inl ho
      · exact .inr ⟨c, hc, hne, h0, .inl ht⟩
      · exact .inr ⟨some q, hc, hne, h0, .inr ⟨q, rfl, ih b hq⟩⟩
    · obtain ⟨rfl, rfl, hbo⟩ := mk.inj (hn.symm.trans hn')
      obtain ⟨rfl, rfl⟩ := NodeBody.inner.inj hbo
      refine ⟨cw, g, _, hw, fun b' => ?_⟩
      by_cases hbb : b' = b
      · -- the slot that was filled
        subst hbb
        rcases hl b' with ⟨ho, -⟩ | ⟨c, hc, hne, h0, ⟨rfl, ht⟩ | ⟨q, rfl, hq⟩⟩
        · rw [hb] at ho
          cases ho
        · rw [hb] at hc
          obtain ⟨rfl, -⟩ := Slot.mk.inj (Option.some.inj hc)
          obtain ⟨f', hf', he⟩ := hf h.calls _ _ ht
          obtain rfl : f = f' := Option.some.inj (hfe.symm.trans hf')
          exact .inr ⟨some f, Function.update_self .., hne, h0, .inr ⟨f, rfl, ih b' he⟩⟩
        · rw [hb] at hc
          cases hc
      · rw [Function.update_of_ne hbb]
        rcases hl b' with ho | ⟨c, hc, hne, h0, ht | ⟨q, rfl, hq⟩⟩
        · exact .inl ho
        · exact .inr ⟨c, hc, hne, h0, .inl ht⟩
        · exact .inr ⟨some q, hc, hne, h0, .inr ⟨q, rfl, ih b' hq⟩⟩

theorem FetchRight.fetchStep (hs : FetchStep fetch h h') : FetchRight sha512Half store h' fetch := by
  intro n hash u hu
  obtain ⟨f, he, hr⟩ := hf n hash u hu
  exact ⟨f, he, hr.fetchStep hf hs⟩

theorem Represents.fetches (hs : Fetches fetch h h') (hr : Represents sha512Half store h t r) :
    Represents sha512Half store h' t r ∧ FetchRight sha512Half store h' fetch := by
  induction hs with
  | refl => exact ⟨hr, hf⟩
  | tail _ hp ih => exact ⟨ih.1.fetchStep ih.2 hp, ih.2.fetchStep hp⟩

end

end Xrpld.SHAMap
