import Xrpld.SHAMap.History

/-!
# Calls that fail

`add_item_with_fetch`, `update_item_with_fetch` and `delete_item_with_fetch` on a tree whose
children may be known by their hash only. A callback is asked for those and may fail at any
time; the call then returns an error. This module asks whether the map is still what it was.

## The model

What a child that is not loaded stands for is a parameter `D`: the items under its hash, with
so many levels left. The callback is sound when a node it finds has just these items.

## What is proved

Adding and updating look for the place first and change nothing before they have found it, so
a failed call leaves the map as it was (`keeps_addItemWithFetch`, `keeps_updateItemWithFetch`).
-/

namespace Xrpld.SHAMap

open Function (update_self update_of_ne)
open Option

/-! ### What a tree holds -/

variable {sha : Sha} {fetch : Fetch} {c : ℕ} {rank : Ref → ℕ} {h h' : Heap} {r : Ref}
  {slots sl' : Slots} {α : Type} {key : Uint256}

/-- What is stored under a hash, with so many levels left. -/
abbrev Stored := SHAMapHash → ℕ → Uint256 → Option SHAMapItem

/-- The item of a key below a node, with so many levels left. -/
def contents (D : Stored) (h : Heap) : ℕ → Ref → Uint256 → Option SHAMapItem
  | 0, _, _ => none
  | n + 1, r, key =>
    match (h.node r).body with
    | .leaf _ item => if item.key = key then some item else none
    | .inner _ slots =>
      match slots (key.nibble (leafDepth - n)) with
      | none => none
      | some ⟨hash, none⟩ => D hash n key
      | some ⟨_, some c⟩ => contents D h n c key

/-- A slot with the hash of its child, if that is loaded. -/
def Slot.rehash (hashOf : Ref → SHAMapHash) : Slot → Slot
  | ⟨hash, none⟩ => ⟨hash, none⟩
  | ⟨_, some c⟩ => ⟨hashOf c, some c⟩

/-- The hash that hashing the tree gives a node: a shared node has its hash already. -/
def hashBelow (sha : List UInt8 → Uint256) (h : Heap) : ℕ → Ref → SHAMapHash
  | 0, r => (h.node r).hash
  | n + 1, r =>
    if (h.node r).cowid = 0 then (h.node r).hash
    else
      match (h.node r).body with
      | .leaf type item => computeLeafHash sha type item
      | .inner _ slots => SHAMapTreeNode.computeInnerHash sha fun b =>
          (slots b).map (Slot.rehash (hashBelow sha h n))

section

variable (sha : Sha) (D : Stored)

/-- **Two states are one map**: they have the same items and the same root hash, the one the root has as well as the
one it is given when the tree is hashed. -/
structure SameMap (s s' : Memory) : Prop where
  contents : ∀ key, contents D s'.heap (leafDepth + 1) s'.tree.root key = contents D s.heap (leafDepth + 1) s.tree.root key
  hash : (s'.heap.node s'.tree.root).hash = (s.heap.node s.tree.root).hash
  hashBelow : hashBelow sha s'.heap (leafDepth + 1) s'.tree.root =
    hashBelow sha s.heap (leafDepth + 1) s.tree.root

/-- A call that returns an error leaves the map as it was. -/
def Keeps {α : Type} (s : Memory) (p : TreeM α) : Prop :=
  ∀ e s', p s = .ok (.error e, s') → SameMap sha D s s'

end

/-- A node the callback finds has the items stored under its hash. -/
def FetchSound (D : Stored) (fetch : Fetch) (h : Heap) : Prop :=
  ∀ n hash f, fetch n hash = some f → ∀ levels key, contents D h levels f key = D hash levels key

/-- **A tree in memory**, for a tree with the id `c`: no node is below itself, also not through the callback; a
node that the tree owns is below one node only, which it owns too; and what the callback finds is shared. -/
structure WellOwned (fetch : Fetch) (c : ℕ) (rank : Ref → ℕ) (h : Heap) : Prop where
  le : ∀ r < h.next, (h.node r).cowid ≤ c
  loaded : ∀ {r q : Ref} {slots : Branch → Option Slot} {b : Branch} {hash : SHAMapHash}, r < h.next →
    h.InnerAt r slots → slots b = some ⟨hash, some q⟩ → rank q < rank r ∧ q < h.next
  fetched : ∀ {r f : Ref} {slots : Branch → Option Slot} {b : Branch} {hash : SHAMapHash} {n : ℕ}, r < h.next →
    h.InnerAt r slots → slots b = some ⟨hash, none⟩ → fetch n hash = some f →
    rank f < rank r ∧ f < h.next ∧ (h.node f).cowid = 0
  owner : ∀ {r q : Ref} {slots : Branch → Option Slot} {b : Branch} {hash : SHAMapHash}, r < h.next →
    h.InnerAt r slots → slots b = some ⟨hash, some q⟩ → (h.node q).cowid = c → (h.node r).cowid = c
  unique : ∀ {r r' q : Ref} {slots slots' : Branch → Option Slot} {b b' : Branch} {hash hash' : SHAMapHash},
    r < h.next → r' < h.next → h.InnerAt r slots → h.InnerAt r' slots' → slots b = some ⟨hash, some q⟩ →
    slots' b' = some ⟨hash', some q⟩ → (h.node q).cowid = c → r = r' ∧ b = b'

/-! ### Walks keep the map -/

section

variable {D : Stored}

theorem contents_inner (hr : h.InnerAt r slots) (n : ℕ) (key : Uint256) : contents D h (n + 1) r key =
      match slots (key.nibble (leafDepth - n)) with
      | none => none
      | some ⟨hash, none⟩ => D hash n key
      | some ⟨_, some c⟩ => contents D h n c key := by
  obtain ⟨nh, cw, g, hn⟩ := hr
  rw [contents, hn]

/-- Loading a child that the callback has found changes no items. -/
theorem contents_fetchStep (hf : FetchSound D fetch h) (hs : FetchStep fetch h h') (n : ℕ) (r : Ref) (key : Uint256) :
    contents D h' n r key = contents D h n r key := by
  induction n generalizing r with
  | zero => rfl
  | succ n ih =>
    rcases hs.node_cases r with hm | ⟨nh, cw, g, slots, b, hash, f, hn, hb, he, -, hn'⟩
    · rcases h.inner_or_leaf r with ⟨slots, hr⟩ | hr
      · have hr' : h'.InnerAt r slots := by
          rw [Heap.InnerAt, hm]
          exact hr
        rw [contents_inner hr', contents_inner hr]
        split
        · rfl
        · rfl
        · exact ih _
      · rw [contents, contents, hm]
        cases ho : (h.node r).body with
        | leaf type it => rfl
        | inner g slots => rw [SHAMapTreeNode.isInner, ho] at hr; cases hr
    · rw [contents_inner ⟨_, _, _, hn'⟩, contents_inner ⟨_, _, _, hn⟩]
      by_cases hbb : key.nibble (leafDepth - n) = b
      · -- the branch whose child was loaded
        rw [hbb, update_self, hb]
        exact (ih f).trans (hf h.calls hash f he n key)
      · rw [update_of_ne hbb]
        split
        · rfl
        · rfl
        · exact ih _

theorem FetchSound.fetchStep (hf : FetchSound D fetch h) (hs : FetchStep fetch h h') : FetchSound D fetch h' :=
  fun n hash f he lv key => (contents_fetchStep hf hs lv f key).trans (hf n hash f he lv key)

/-- The hash of slots depends on which are set and on their hashes. -/
theorem computeInnerHash_congr (he : ∀ b, (slots b).map Slot.hash = (sl' b).map Slot.hash) :
    SHAMapTreeNode.computeInnerHash sha slots = SHAMapTreeNode.computeInnerHash sha sl' := by
  have hs : setBranches slots = setBranches sl' := by
    refine List.filter_congr fun b _ => ?_
    rw [← isSome_map, he b, isSome_map]
  have hh : slotHash slots = slotHash sl' := by
    funext b
    have := he b
    cases hb : slots b with
    | none =>
      rw [hb, map_none, eq_comm, map_eq_none_iff] at this
      rw [slotHash_none hb, slotHash_none this]
    | some slot =>
      rw [hb, map_some, eq_comm, map_eq_some_iff] at this
      obtain ⟨slot', hb', hl⟩ := this
      rw [slotHash_some hb, slotHash_some hb', hl]
  rw [SHAMapTreeNode.computeInnerHash, SHAMapTreeNode.computeInnerHash, hs, hh]

/-- A slot after the step: it is as before, or its child has just been found. -/
theorem FetchStep.slot_cases (hs : FetchStep fetch h h') (hr : h'.InnerAt r sl') (b : Branch) : ∃ slots, h.InnerAt r slots ∧ (sl' b = slots b ∨
      ∃ hash f, slots b = some ⟨hash, none⟩ ∧ fetch h.calls hash = some f ∧ sl' b = some ⟨hash, some f⟩) := by
  rcases hs.node_cases r with hn | ⟨nh, cw, g, slots, b0, hash, f, hn, hb0, hf, -, hn'⟩
  · rw [Heap.InnerAt, hn] at hr
    exact ⟨sl', hr, .inl rfl⟩
  · obtain rfl := hr.unique ⟨_, _, _, hn'⟩
    refine ⟨slots, ⟨_, _, _, hn⟩, ?_⟩
    by_cases hb : b = b0
    · subst hb
      exact .inr ⟨hash, f, hb0, hf, update_self ..⟩
    · exact .inl (update_of_ne hb ..)

/-- Loading a child that the callback has found keeps a tree in memory well owned. -/
theorem WellOwned.fetchStep (hw : WellOwned fetch c rank h) (hc : c ≠ 0) (hs : FetchStep fetch h h') :
    WellOwned fetch c rank h' := by
  have hx := hs.next_eq
  refine ⟨?_, ?_, ?_, ?_, ?_⟩
  · intro r hr
    rw [hs.cowid_eq]
    exact hw.le r (hx ▸ hr)
  · intro r q sl' b hash hr hin hb
    rw [hx] at hr ⊢
    obtain ⟨slots, hn, hq | ⟨hash', f, hsb, hf, hq⟩⟩ := hs.slot_cases hin b
    · exact hw.loaded hr hn (hq ▸ hb)
    · rw [hq] at hb
      cases hb
      exact ⟨(hw.fetched hr hn hsb hf).1, (hw.fetched hr hn hsb hf).2.1⟩
  · intro r f sl' b hash n hr hin hb hf
    rw [hx] at hr ⊢
    obtain ⟨slots, hn, hq | ⟨hash', f', hsb, -, hq⟩⟩ := hs.slot_cases hin b
    · rw [hs.cowid_eq]
      exact hw.fetched hr hn (hq ▸ hb) hf
    · rw [hq] at hb
      cases hb
  · intro r q sl' b hash hr hin hb ho
    rw [hs.cowid_eq] at ho ⊢
    obtain ⟨slots, hn, hq | ⟨hash', f, hsb, hf, hq⟩⟩ := hs.slot_cases hin b
    · exact hw.owner (hx ▸ hr) hn (hq ▸ hb) ho
    · -- what the callback finds is not owned
      rw [hq] at hb
      cases hb
      exact absurd ((hw.fetched (hx ▸ hr) hn hsb hf).2.2.symm.trans ho).symm hc
  · intro r r' q slots1 slots2 b b' hash hash' hr hr' hin1 hin2 hb hb' ho
    rw [hs.cowid_eq] at ho
    rw [hx] at hr hr'
    obtain ⟨slots, hn, hq | ⟨_, f, hsb, hf, hq⟩⟩ := hs.slot_cases hin1 b
    · obtain ⟨sl', hi, he | ⟨_, f, hsb, hf, he⟩⟩ := hs.slot_cases hin2 b'
      · exact hw.unique hr hr' hn hi (hq ▸ hb) (he ▸ hb') ho
      · rw [he] at hb'
        cases hb'
        exact absurd ((hw.fetched hr' hi hsb hf).2.2.symm.trans ho).symm hc
    · rw [hq] at hb
      cases hb
      exact absurd ((hw.fetched hr hn hsb hf).2.2.symm.trans ho).symm hc

theorem rehash_congr {f f' : Ref → SHAMapHash} (b : Branch) (hf : ∀ hash q, slots b = some ⟨hash, some q⟩ → f q = f' q) :
    (slots b).map (Slot.rehash f) = (slots b).map (Slot.rehash f') := by
  rcases hb : slots b with _ | ⟨hash, _ | q⟩
  · rfl
  · rfl
  · rw [map_some, map_some, Slot.rehash, Slot.rehash, hf hash q hb]

theorem hashBelow_shared (hr : (h.node r).cowid = 0) (n : ℕ) : hashBelow sha h n r = (h.node r).hash := by
  cases n with
  | zero => rfl
  | succ n => rw [hashBelow, if_pos hr]

variable (sha) in
/-- Nor does it change a hash. -/
theorem hashBelow_fetchStep (hw : WellOwned fetch c rank h) (hs : FetchStep fetch h h') (n : ℕ) (hr : r < h.next) :
    hashBelow sha h' n r = hashBelow sha h n r ∧ (h'.node r).hash = (h.node r).hash := by
  have hh : (h'.node r).hash = (h.node r).hash := by
    rcases hs.node_cases r with hn | ⟨_, _, _, _, _, _, _, hn, -, -, -, hn'⟩
    · rw [hn]
    · rw [hn, hn']
  refine ⟨?_, hh⟩
  induction n generalizing r with
  | zero => exact hh
  | succ n ih =>
    have hch : ∀ q < h.next, hashBelow sha h' n q = hashBelow sha h n q := by
      intro q hq
      refine ih hq ?_
      rcases hs.node_cases q with hn | ⟨_, _, _, _, _, _, _, hn, -, -, -, hn'⟩
      · rw [hn]
      · rw [hn, hn']
    rw [hashBelow, hashBelow, hs.cowid_eq, hh]
    split
    · rfl
    · rcases hs.node_cases r with hn | ⟨nh, cw, g, slots, b0, hash, f, hn, hb0, hf, hfh, hn'⟩
      · rw [hn]
        cases hbo : (h.node r).body with
        | leaf type it => rfl
        | inner g slots =>
          have hi : h.InnerAt r slots := ⟨(h.node r).hash, (h.node r).cowid, g, by rw [← hbo]⟩
          refine computeInnerHash_congr fun b => ?_
          rw [rehash_congr b fun hash q hb => hch q (hw.loaded hr hi hb).2]
      · have hi : h.InnerAt r slots := ⟨_, _, _, hn⟩
        rw [hn, hn']
        refine computeInnerHash_congr fun b => ?_
        by_cases hbb : b = b0
        · -- the slot has the hash that the node found has
          subst hbb
          have ho := hw.fetched hr hi hb0 hf
          rw [update_self, hb0]
          show some (hashBelow sha h' n f) = some hash
          rw [hch f ho.2.1, hashBelow_shared ho.2.2, hfh]
        · rw [update_of_ne hbb]
          rw [rehash_congr b fun hash q hb => hch q (hw.loaded hr hi hb).2]

/-- What is below a node depends on the nodes of the heap only. -/
theorem contents_frame (hw : WellOwned fetch c rank h) (hs : ∀ q < h.next, h'.node q = h.node q) (n : ℕ)
    (hr : r < h.next) (key : Uint256) : contents D h' n r key = contents D h n r key := by
  induction n generalizing r with
  | zero => rfl
  | succ n ih =>
    rcases h.inner_or_leaf r with ⟨slots, hn⟩ | hl
    · have hi : h'.InnerAt r slots := by
        rw [Heap.InnerAt, hs r hr]
        exact hn
      rw [contents_inner hi, contents_inner hn]
      split
      · rfl
      · rfl
      · next hb => exact ih (hw.loaded hr hn hb).2
    · rw [contents, contents, hs r hr]
      cases ho : (h.node r).body with
      | leaf type it => rfl
      | inner g slots => rw [SHAMapTreeNode.isInner, ho] at hl; cases hl

theorem hashBelow_frame (hw : WellOwned fetch c rank h) (hs : ∀ q < h.next, h'.node q = h.node q) (n : ℕ)
    (hr : r < h.next) : hashBelow sha h' n r = hashBelow sha h n r := by
  induction n generalizing r with
  | zero => rw [hashBelow, hashBelow, hs r hr]
  | succ n ih =>
    rw [hashBelow, hashBelow, hs r hr]
    split
    · rfl
    · cases ho : (h.node r).body with
      | leaf type it => rfl
      | inner g slots =>
        have hi : h.InnerAt r slots := ⟨(h.node r).hash, (h.node r).cowid, g, by rw [← ho]⟩
        refine computeInnerHash_congr fun b => ?_
        rw [rehash_congr b fun hash q hb => ih (hw.loaded hr hi hb).2]

end

/-! ### Failed calls -/

section

variable {D : Stored} {s s' : Memory}

variable (sha) in
/-- **A walk keeps the map**, and all that is known of the memory. -/
theorem SameMap.of_fetches (hc : c ≠ 0) (hw : WellOwned fetch c rank s.heap) (hf : FetchSound D fetch s.heap)
    (hrt : s.tree.root < s.heap.next) (hs : Fetches fetch s.heap h') :
    SameMap sha D s ⟨h', s.tree⟩ ∧ WellOwned fetch c rank h' ∧ FetchSound D fetch h' ∧ s.tree.root < h'.next := by
  induction hs with
  | refl => exact ⟨⟨fun _ => rfl, rfl, rfl⟩, hw, hf, hrt⟩
  | tail _ hp ih =>
    obtain ⟨hm, hw1, hf1, hr⟩ := ih
    have hh := hashBelow_fetchStep sha hw1 hp (leafDepth + 1) hr
    refine ⟨⟨fun key => ?_, hh.2.trans hm.hash, hh.1.trans hm.hashBelow⟩, hw1.fetchStep hc hp,
      hf1.fetchStep hp, hp.next_eq ▸ hr⟩
    exact (contents_fetchStep hf1 hp _ _ key).trans (hm.contents key)

theorem SameMap.trans {s'' : Memory} (h1 : SameMap sha D s s') (h2 : SameMap sha D s' s'') : SameMap sha D s s'' :=
  ⟨fun key => (h2.contents key).trans (h1.contents key), h2.hash.trans h1.hash, h2.hashBelow.trans h1.hashBelow⟩

theorem SameMap.of_frame (hw : WellOwned fetch c rank s.heap) (hrt : s.tree.root < s.heap.next)
    (ht : s'.tree = s.tree) (hs : ∀ q < s.heap.next, s'.heap.node q = s.heap.node q) : SameMap sha D s s' := by
  refine ⟨fun key => ?_, ?_, ?_⟩
  · rw [ht]
    exact contents_frame hw hs _ hrt key
  · rw [ht, hs _ hrt]
  · rw [ht]
    exact hashBelow_frame hw hs _ hrt

theorem Keeps.of_wp {p : TreeM α} (hp : wp p ⊤ (fun _ s' => SameMap sha D s s') ⊤ s) : Keeps sha D s p := by
  intro e s' hr
  exact post_of_run hp hr

/-- The walk of a call, with the callback. -/
theorem wp_walkTree_fetch (key : Uint256) : wp (walkTree key true fetch)
      (fun res s' => s'.tree = s.tree ∧ Fetches fetch s.heap s'.heap ∧ WalkPath s'.heap key .root s.tree.root res.2 res.1)
      (fun _ s' => s'.tree = s.tree ∧ Fetches fetch s.heap s'.heap) ⊤ s := by
  simp only [walkTree, walkTowardsKeyWithPath, onHeap, wp_bind, wp_read, wp_mapErr, wp_zoom]
  refine wp_mono (walkLoop_spec key true fetch _ s.tree.root .root s.heap) ?_ ?_ fun _ h => h
  · rintro res h' ⟨hp, hs⟩
    exact ⟨trivial, hs, hp⟩
  · intro e h' hs
    exact ⟨trivial, hs⟩

theorem WalkPath.getLast?_ne_none {nid : SHAMapNodeId} {path : List NodePathEntry} {leaf : Option Ref}
    (hw : WalkPath h key nid r path leaf) :
    path.getLast? ≠ none := by
  cases hw <;> simp

open Prog (NeverFails)

theorem neverFails_setRoot (root : Ref) : NeverFails (setRoot root : TreeM Unit) := .update _

theorem neverFails_allocate (n : SHAMapTreeNode) : NeverFails (onHeap (allocate n) : TreeM Ref) :=
  .zoom (.bind .read fun _ => .bind (.update _) fun _ => .pure _)

theorem neverFails_setChildAt (node : Ref) (b : Branch) (ch : Option Ref) :
    NeverFails (onHeap (setChildAt node b ch) : TreeM Unit) :=
  .zoom (.bind (.bind .read fun _ => .pure _) fun _ => .bind (.lift _) fun _ => .update _)

theorem neverFails_unshareNode (node : Ref) (nid : SHAMapNodeId) : NeverFails (unshareNode node nid) := by
  refine .bind .read fun s => .ite (.abort _) (.ite (.pure _) (.bind (.lift _) fun _ =>
    .bind (neverFails_allocate _) fun r => .ite (.bind (neverFails_setRoot r) fun _ => .pure _) (.pure _)))

theorem neverFails_dirtyUp (target : Uint256) (path : List NodePathEntry) (ch : Ref) :
    NeverFails (dirtyUp target path ch) := by
  induction path with
  | nil => exact .pure _
  | cons en path ih =>
    exact .bind ih fun _ => .bind (.lift _) fun _ => .bind (neverFails_unshareNode _ _) fun _ =>
      .bind (neverFails_setChildAt _ _ _) fun _ => .pure _

theorem neverFails_newLeafNode (type : LeafType) (it : SHAMapItem) : NeverFails (newLeafNode sha type it) :=
  .bind .read fun _ => .bind (.lift _) fun _ => neverFails_allocate _

theorem neverFails_splitLoop (type : LeafType) (it ex : SHAMapItem) (n : ℕ) (gs : List NodePathEntry)
    (nid : SHAMapNodeId) (sn : Ref) :
    NeverFails (splitLoop sha type it ex n gs nid sn) := by
  induction n generalizing gs nid sn with
  | zero => exact .abort _
  | succ n ih =>
    refine .bind (.lift _) fun newBranch => .bind (.lift _) fun oldBranch => .ite ?_ ?_
    · exact .bind (neverFails_newLeafNode _ _) fun _ => .bind (neverFails_setChildAt _ _ _) fun _ =>
        .bind (neverFails_newLeafNode _ _) fun _ => .bind (neverFails_setChildAt _ _ _) fun _ =>
        .bind (neverFails_dirtyUp _ _ _) fun _ => .bind (neverFails_setRoot _) fun _ => .pure _
    · cases nid.getChildNodeId newBranch with
      | error e => exact .abort _
      | ok ci => exact .bind (.bind .read fun _ => neverFails_allocate _) fun _ => ih _ _ _

theorem neverFails_replaceItem (path : List NodePathEntry) (leafEntry : NodePathEntry) (leaf : Ref)
    (it : SHAMapItem) : NeverFails (replaceItem sha path leafEntry leaf it) := by
  refine .bind (neverFails_unshareNode _ _) fun leaf => .bind (.zoom (.bind .read fun _ => .pure _)) fun n =>
    .bind (.lift _) fun res => ?_
  exact .bind (.zoom (.update _)) fun _ => .ite (.bind (neverFails_dirtyUp _ _ _) fun _ =>
    .bind (neverFails_setRoot _) fun _ => .pure _) (.pure _)

section

variable (hc : c ≠ 0) (hw : WellOwned fetch c rank s.heap) (hf : FetchSound D fetch s.heap) (hrt : s.tree.root < s.heap.next)

include hc hw hf hrt

/-- A call that walks first fails with the map as it was if what follows the walk does so. -/
theorem keeps_of_walk {p : Option Ref × List NodePathEntry → TreeM α}
    (hp : ∀ res s1, walkTree key true fetch s = .ok (.ok res, s1) → s1.tree = s.tree → Fetches fetch s.heap s1.heap →
      WalkPath s1.heap key .root s.tree.root res.2 res.1 → SameMap sha D s s1 →
      wp (p res) ⊤ (fun _ s' => SameMap sha D s s') ⊤ s1) : Keeps sha D s (walkTree key true fetch >>= p) := by
  have hm : ∀ s1 : Memory, s1.tree = s.tree → Fetches fetch s.heap s1.heap → SameMap sha D s s1 := by
    rintro ⟨h1, tree⟩ rfl hs
    exact (SameMap.of_fetches sha hc hw hf hrt hs).1
  refine Keeps.of_wp ?_
  rw [wp_bind]
  refine wp_mono (wp_and (Prog.wp_run _) (wp_walkTree_fetch key)) ?_ ?_ fun _ _ => trivial
  · rintro res s1 ⟨hr, ht, hs, hpt⟩
    exact hp res s1 hr ht hs hpt (hm s1 ht hs)
  · rintro e s1 ⟨-, ht, hs⟩
    exact hm s1 ht hs

/-- **A failed `add_item_with_fetch`** leaves the map as it was: it fails before its first change. -/
theorem keeps_addItemWithFetch (type : LeafType) (it : SHAMapItem) :
    Keeps sha D s (addItemWithFetch sha type it fetch) := by
  refine keeps_of_walk hc hw hf hrt ?_
  rintro ⟨terminal, path⟩ s1 - htr hs hp hm
  have ha := hp.getLast?_ne_none
  cases terminal with
  | none =>
    show wp (addIntoEmptyBranch sha path it.key type it) _ _ _ _
    rw [addIntoEmptyBranch]
    cases hl : path.getLast? with
    | none => exact absurd hl ha
    | some en =>
      refine NeverFails.wp (.bind (.lift _) fun _ => .bind (neverFails_unshareNode _ _) fun _ =>
        .bind (neverFails_newLeafNode _ _) fun _ => .bind (neverFails_setChildAt _ _ _) fun _ =>
        .bind (neverFails_dirtyUp _ _ _) fun _ => .bind (neverFails_setRoot _) fun _ => .pure _)
  | some leaf =>
    show wp (addWithLeafSplit sha path leaf type it) _ _ _ _
    rw [addWithLeafSplit]
    cases hl : path.getLast? with
    | none => exact absurd hl ha
    | some en =>
      simp only [wp_bind, wp_onHeap_deref]
      cases hi : (s1.heap.node leaf).peekItem with
      | none => exact hm
      | some ex =>
        simp only [wp_ite]
        refine ⟨fun _ => trivial, fun _ => ⟨fun _ => hm, fun _ => ?_⟩⟩
        exact NeverFails.wp (.bind (.bind .read fun _ => neverFails_allocate _) fun _ => neverFails_splitLoop _ _ _ _ _ _ _)

/-- **A failed `update_item_with_fetch`** leaves the map as it was. -/
theorem keeps_updateItemWithFetch (type : LeafType) (it : SHAMapItem) :
    Keeps sha D s (updateItemWithFetch sha type it fetch) := by
  refine keeps_of_walk hc hw hf hrt ?_
  rintro ⟨terminal, path⟩ s1 - htr hs hp hm
  cases terminal with
  | none => exact hm
  | some leaf =>
    cases hl : path.getLast? with
    | none => exact absurd hl hp.getLast?_ne_none
    | some en =>
      simp only [hl, wp_bind, wp_onHeap_deref]
      cases hi : (s1.heap.node leaf).peekItem with
      | none => exact hm
      | some ex =>
        simp only [wp_ite]
        exact ⟨fun _ => hm, fun _ => ⟨fun _ => hm, fun _ => NeverFails.wp (neverFails_replaceItem _ _ _ _)⟩⟩

end

end

end Xrpld.SHAMap
