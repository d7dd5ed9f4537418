import Xrpld.SHAMap.Ownership

/-!
# What the calls on a tree do

`add_item`, `update_item` and `delete_item`, with or without a callback, against the tree of
items that the tree in memory stands for: adding and replacing an item is `Tree.put`, deleting
one is `Tree.eraseRoot`. The spine that a walk has passed is put back together around the new
branch, so each call keeps `Held`.

A leaf of fewer than 12 bytes cannot be made: `new_leaf` asserts it. `addOutcome`,
`updateOutcome` and `deleteOutcome` say what a call comes to on the tree of items, the panic and
the errors included. For a delete and an update the leaves of the tree are long enough
(`Sized`).
-/

namespace Xrpld.SHAMap

open Function (update update_self update_of_ne update_eq_self)
open List Nat Option Set Xrpld.Tree SHAMapTreeNode Changes

variable {sha : Sha} {stored : MapStore} {backed : Bool} {fetch : Fetch}
  {s : Memory} {c : ℕ} {t u : MapTree} {r : Ref} {F : Set Ref} {ch : Branch → MapTree} {b : Branch}
  {type : LeafType} {it : SHAMapItem} {key : Uint256}
  {E : MutationError → Memory → Prop} {P : Fault → Prop}

/-! ### New nodes -/

variable {Q : Ref → Memory → Prop} {ε : Type} {G Ff Fs : Set Ref} {d tn : ℕ} {h : Heap} {leaf : Leaf}

variable (stored) in
theorem wp_newLeafNode (hc : s.tree.cowid = c) (hh : ¬ it.Sized → P shortItem)
    (hQ : it.Sized → ∀ s', s'.tree = s.tree → Changes c ∅ s.heap s'.heap →
      Held sha stored s'.heap c (.leaf ⟨type, it⟩) s.heap.next {s.heap.next} → Q s.heap.next s') :
    wp (newLeafNode sha type it) Q E P s := by
  simp only [newLeafNode, wp_bind, wp_read, newLeaf, newLeafWithHash]
  by_cases hs : minItemBytes ≤ it.size
  · simp only [if_pos hs, wp_lift_ok, onHeap, wp_zoom, allocate, wp_bind, wp_read, wp_update, wp_pure, hc]
    refine hQ hs _ rfl (alloc _ _ _ _) ⟨⟨?_, lt_succ_self _, fun _ => rfl, ?_⟩, c, node_alloc_next .., fun _ _ => hs⟩
    · rw [node_alloc_next]
    · intro q hq
      rw [mem_singleton_iff.mp hq]
      exact lt_succ_self _
  · rw [if_neg hs]
    exact hh hs

variable (sha stored) in
theorem wp_newInnerNode (hc : c ≠ 0) (ho : s.tree.cowid = c)
    (hQ : ∀ s', s'.tree = s.tree → Changes c ∅ s.heap s'.heap → (s'.heap.node s.heap.next).cowid = c →
      Held sha stored s'.heap c (.inner fun _ => .empty) s.heap.next {s.heap.next} → Q s.heap.next s') :
    wp newInnerNode Q E P s := by
  simp only [newInnerNode, wp_bind, wp_read, onHeap, wp_zoom, allocate, wp_update, wp_pure, ho]
  refine hQ _ rfl (alloc _ _ _ _) (by rw [node_alloc_next]; rfl)
    ⟨⟨?_, lt_succ_self _, fun _ => rfl, ?_⟩, 0, c, 0, _, node_alloc_next .., fun h0 => absurd h0 hc,
      fun _ => ∅, fun _ => ⟨empty_subset _, notMem_empty _⟩, fun _ _ _ => disjoint_empty _,
      fun _ => .inl ⟨rfl, rfl⟩⟩
  · rw [node_alloc_next]
    exact le_refl _
  · intro q hq
    rw [mem_singleton_iff.mp hq]
    exact lt_succ_self _

/-- Setting a child of an owned node. -/
theorem wp_setChild_held {Q : Unit → Memory → Prop} {E : ε → Memory → Prop} {o : Option Ref} (hc : c ≠ 0)
    (hl : Held sha stored s.heap c (.inner ch) r F) (ho : (s.heap.node r).cowid = c)
    (hp : Pointer sha stored s.heap c u o G) (hd : Disjoint F G) (hG : ∀ q ∈ G, q < s.heap.next)
    (hQ : ∀ s', s'.tree = s.tree → Changes c F s.heap s'.heap → (s'.heap.node r).cowid = c →
      Held sha stored s'.heap c (.inner (update ch b u)) r (F ∪ G) → Q () s') :
    wp (onHeap (setChildAt r b o)) Q E P s := by
  obtain ⟨Fh, G', sl, hh, hi, -, hFh, -, -⟩ := hl.split b
  obtain ⟨hash, cw, g, hn⟩ := hi
  obtain rfl : cw = c := by rw [hn] at ho; exact ho
  obtain ⟨hl', hch⟩ := hh.fill hc hn hp.slotFor (hd.mono_left hFh) hG 0
  rw [wp_setChildAt hc hn]
  refine hQ _ rfl (hch.mono hFh) (by rw [node_set_self]) (hl'.mono (union_subset_union_left _ hFh) ?_)
  intro q hq
  rcases hq with hq | hq
  · exact hl.owns.old q hq
  · exact hG q hq

/-! ### Adding an item -/

variable {path : List NodePathEntry} {fr : List NodePathEntry} {en : NodePathEntry}

theorem Spine.follow_eq (hs : Spine sha stored h c key d t path u F) :
    follow radix key t d = follow radix key u (d + path.length) := by
  induction hs with
  | nil => rfl
  | cons hid hd hh hr hi ih =>
    rw [List.length_cons, ← Nat.add_assoc, Nat.add_right_comm, Tree.follow]
    exact ih

/-- A leaf goes into an empty branch. -/
theorem wp_addIntoEmptyBranch (hc : c ≠ 0) (ho : s.tree.cowid = c)
    (hsh : ¬ it.Sized → P shortItem)
    (hs : Spine sha stored s.heap c it.key 0 t fr (.inner ch) Ff)
    (hl : Held sha stored s.heap c (.inner ch) en.node G) (hi : Disjoint Ff G)
    (he : en.nodeId.depth = fr.length) (hlt : en.nodeId.depth < leafDepth)
    (hem : ch (it.key.nibble en.nodeId.depth) = .empty) :
    wp (addIntoEmptyBranch sha (fr ++ [en]) it.key type it)
      (fun ok s' => it.Sized ∧ ok ∧ s'.tree.cowid = c ∧ Changes c univ s.heap s'.heap ∧
        ∃ F', Held sha stored s'.heap c (put radix ⟨type, it⟩ t 0) s'.tree.root F') E P s := by
  obtain ⟨Fh, -, -, hh, -, -, hFh, -, -⟩ := hl.split (it.key.nibble en.nodeId.depth)
  simp only [addIntoEmptyBranch, getLast?_concat, dropLast_concat, wp_bind, selectBranch_eq hlt, wp_lift_ok]
  refine wp_total (wp_unshareNode_hole (E := ⊥) (P := ⊥) ho hh) ?_
  rintro parent s1 ⟨hco, hch1, F1, hash, g, sl, hh1, hn1, hF1⟩
  refine wp_newLeafNode stored hco hsh fun hz s2 ht hch2 hf => ?_
  have hh2 := hh1.frame hch2 (disjoint_empty _)
  have hn : s2.heap.node parent = ⟨hash, c, .inner g sl⟩ :=
    (hch2.same parent hh1.1.lt fun _ => notMem_empty _).trans hn1
  have hd : Disjoint F1 {s1.heap.next} :=
    disjoint_singleton_right.mpr fun hm => lt_irrefl _ (hh1.1.old _ hm)
  obtain ⟨hl3, hch3⟩ := hh2.fill hc hn (.inr (.inl ⟨0, _, rfl, hf⟩)) hd hf.owns.old 0
  rw [wp_setChildAt hc hn]
  -- the rest of the path was not changed so far
  have hch : Changes c Fh s.heap (s2.heap.set parent _) :=
    ((hch1.mono (empty_subset _)).trans hch2 fun q hq _ => absurd hq (notMem_empty q)).trans hch3
      fun q hq hlt => (hF1 hq).resolve_right (Nat.not_le_of_lt hlt)
  have hdisF : Disjoint Ff Fh := hi.mono_right hFh
  have hs3 := hs.frame hch hdisF
  have hdi : Disjoint Ff (F1 ∪ {s1.heap.next}) := by
    refine disjoint_left.mpr fun q hq hm => ?_
    rcases hm with hm | hm
    · rcases hF1 hm with hm | hm
      · exact disjoint_left.mp hdisF hq hm
      · exact Nat.not_lt_of_le hm (hs.old q hq)
    · rw [mem_singleton_iff.mp hm] at hq
      exact Nat.not_lt_of_le hch1.next_le (hs.old _ hq)
  refine wp_total (wp_dirtyUp (E := ⊥) (P := ⊥) hc ?_ hs3 hl3 hdi) ?_
  · rw [ht]
    exact hco
  · rintro r s' ⟨hw, hch', F', hl', -⟩
    refine ⟨hz, rfl, hw, (hch.mono (subset_univ _)).trans hch' fun _ _ _ => trivial, F', ?_⟩
    rw [hs.put_eq rfl, Nat.zero_add, Tree.put]
    have hp : put radix ⟨type, it⟩ (ch (it.key.nibble en.nodeId.depth)) (fr.length + 1) =
        .leaf ⟨type, it⟩ := by rw [hem, put]
    have hg : radix.digit (radix.key (⟨type, it⟩ : Leaf)) fr.length = it.key.nibble en.nodeId.depth := by rw [he]; rfl
    rw [hg, hp]
    exact hl'

/-- **Splitting a leaf**: inner nodes are added until the two keys part. -/
theorem wp_splitLoop {ex : SHAMapItem} {gs : List NodePathEntry} {nid : SHAMapNodeId} {sn : Ref}
    {n : ℕ} (hc : c ≠ 0) (hw : s.tree.cowid = c)
    (hsh : ¬ (it.Sized ∧ ex.Sized) → P shortItem)
    (hf : ∃ i, nid.depth ≤ i ∧ i < leafDepth ∧ it.key.nibble i ≠ ex.key.nibble i)
    (hn : leafDepth < nid.depth + n) (hp : nid.depth = gs.length)
    (hs : Spine sha stored s.heap c it.key 0 t gs u F)
    (hl : Held sha stored s.heap c (.inner fun _ => .empty) sn Fs) (hown : (s.heap.node sn).cowid = c)
    (hdis : Disjoint F Fs) : wp (splitLoop sha type it ex n gs nid sn)
      (fun ok s' => (it.Sized ∧ ex.Sized) ∧ ok ∧ s'.tree.cowid = c ∧ Changes c univ s.heap s'.heap ∧
        ∃ F', Held sha stored s'.heap c (graft radix it.key
          (split radix ⟨type, it⟩ ⟨type, ex⟩ (leafDepth - nid.depth) nid.depth)
          gs.length t 0) s'.tree.root F') E P s := by
  induction n generalizing s gs nid sn t u F Fs with
  | zero =>
    omega
  | succ n ih =>
    obtain ⟨i, hi, hi', hne⟩ := hf
    have hlt : nid.depth < leafDepth := lt_of_le_of_lt hi hi'
    obtain ⟨m, hm⟩ : ∃ m, leafDepth - nid.depth = m + 1 := ⟨leafDepth - nid.depth - 1, by omega⟩
    simp only [splitLoop, wp_bind, selectBranch_eq hlt, wp_lift_ok]
    by_cases hb : it.key.nibble nid.depth = ex.key.nibble nid.depth
    · -- the keys agree here: one more inner node
      obtain ⟨ci, hid, hcd⟩ := getChildNodeId_ok hlt (it.key.nibble nid.depth)
      simp only [ne_eq, hb, not_true, if_false, hb ▸ hid, wp_bind]
      refine wp_newInnerNode sha stored hc hw fun s1 ht hch1 ho hl1 => ?_
      obtain ⟨Fh, -, -, hh, -, -, hFh, -, -⟩ := hl.split (it.key.nibble nid.depth)
      have hs1 := (hs.frame hch1 (disjoint_empty _)).snoc ⟨sn, nid⟩
        (by rw [Nat.zero_add]; exact hp) hlt (hh.frame hch1 (Set.disjoint_empty _)) (hdis.mono_right hFh)
      have hd : Disjoint (F ∪ Fh) {s.heap.next} := by
        refine disjoint_singleton_right.mpr fun he => ?_
        rcases he with he | he
        · exact lt_irrefl _ (hs.old _ he)
        · exact lt_irrefl _ (hh.1.old _ he)
      have hid' : i ≠ nid.depth := by
        rintro rfl
        exact hne hb
      refine wp_imp (ih (by rw [ht]; exact hw) ⟨i, by omega, hi', hne⟩ (by omega) ?_ hs1 hl1 ho hd) ?_
      · rw [hcd, hp, length_append, length_singleton]
      · rintro ok s' ⟨hsz, rfl, hco, hch', F', hl'⟩
        refine ⟨hsz, rfl, hco, (hch1.mono (empty_subset _)).trans hch' fun _ _ _ => trivial, F', ?_⟩
        have hm' : leafDepth - ci.depth = m := by omega
        have hg : radix.digit it.key (0 + gs.length) = it.key.nibble nid.depth := by
          rw [Nat.zero_add, ← hp]
          rfl
        have hsp : split radix (⟨type, it⟩ : Leaf) ⟨type, ex⟩ (m + 1) nid.depth =
            .inner (single (it.key.nibble nid.depth) (split radix ⟨type, it⟩ ⟨type, ex⟩ m (nid.depth + 1))) := by
          exact if_pos hb
        rw [length_append, length_singleton, graft_succ, hm', hcd, hg] at hl'
        rw [hm, hsp]
        exact hl'
    · -- the keys part here
      simp only [ne_eq, hb, not_false_eq_true, if_true, wp_bind]
      refine wp_newLeafNode stored hw (fun hno => hsh fun hsz => hno hsz.1) fun hsz s1 ht hch1 hnew => ?_
      have ho : (s1.heap.node sn).cowid = c := by
        rw [hch1.same sn hl.owns.lt fun _ => notMem_empty _]
        exact hown
      have hl1 := hl.frame hch1 (disjoint_empty _)
      have hd : Disjoint Fs {s.heap.next} :=
        disjoint_singleton_right.mpr fun he => lt_irrefl _ (hl.owns.old _ he)
      refine wp_setChild_held hc hl1 ho (.inr ⟨_, rfl, hnew⟩) hd hnew.owns.old fun s2 htree2 hch2 hown2 hl2 => ?_
      have hcow2 : s2.tree.cowid = c := by
        rw [htree2, ht]
        exact hw
      refine wp_newLeafNode stored hcow2 (fun hno => hsh fun hsz => hno hsz.2) fun hz s3 htr hch3 hold => ?_
      have how : (s3.heap.node sn).cowid = c := by
        rw [hch3.same sn hl2.owns.lt fun _ => notMem_empty _]
        exact hown2
      have hl3 := hl2.frame hch3 (disjoint_empty _)
      have hdis3 : Disjoint (Fs ∪ {s.heap.next}) {s2.heap.next} :=
        disjoint_singleton_right.mpr fun he => lt_irrefl _ (hl2.owns.old _ he)
      refine wp_setChild_held hc hl3 how (.inr ⟨_, rfl, hold⟩) hdis3 hold.owns.old fun s4 hr hch4 hown4 hl4 => ?_
      have hnew_old : ∀ q ∈ ({s.heap.next} : Set Ref), ¬ q < s.heap.next := fun q hq hlt => by
        rw [mem_singleton_iff.mp hq] at hlt
        exact lt_irrefl _ hlt
      have hch : Changes c Fs s.heap s4.heap := by
        refine (((hch1.mono (empty_subset _)).trans hch2 fun q hq _ => hq).trans hch3 fun q hq _ =>
          absurd hq (notMem_empty q)).trans hch4 fun q hq hlt => ?_
        exact hq.resolve_right fun hq => hnew_old q hq hlt
      have hs4 := hs.frame hch hdis
      have hdi : Disjoint F (Fs ∪ {s.heap.next} ∪ {s2.heap.next}) := by
        refine disjoint_left.mpr fun q hq he => ?_
        rcases he with (he | he) | he
        · exact disjoint_left.mp hdis hq he
        · exact hnew_old q he (hs.old q hq)
        · rw [mem_singleton_iff.mp he] at hq
          exact Nat.not_lt_of_le (Nat.le_trans hch1.next_le hch2.next_le) (hs.old _ hq)
      refine wp_total (wp_dirtyUp (E := ⊥) (P := ⊥) hc ?_ hs4 hl4 hdi) ?_
      · rw [hr, htr]
        exact hcow2
      · rintro r s' ⟨hco, hch', F', hl', -⟩
        refine ⟨⟨hsz, hz⟩, rfl, hco, (hch.mono (subset_univ _)).trans hch' fun _ _ _ => trivial, F', ?_⟩
        have hsp : split radix (⟨type, it⟩ : Leaf) ⟨type, ex⟩ (m + 1) nid.depth =
            .inner (update (single (it.key.nibble nid.depth) (.leaf ⟨type, it⟩))
              (ex.key.nibble nid.depth) (.leaf ⟨type, ex⟩)) := by
          exact if_neg hb
        rw [hm, hsp]
        exact hl'

/-- The leaves below a spine agree with the key on its half bytes. -/
theorem Spine.agree (hs : Spine sha stored h c key d t path u F) (hp : t.Placed radix d) (hl : leaf ∈ u) :
    leaf ∈ t ∧ ∀ i, d ≤ i → i < d + path.length → leaf.item.key.nibble i = key.nibble i := by
  induction hs with
  | nil => exact ⟨hl, fun i h1 h2 => absurd h2 (Nat.not_lt_of_le h1)⟩
  | @cons d ch en path u Fh F hid hd hh hr hi ih =>
    obtain ⟨hm, ha⟩ := ih (hp _).1 hl
    refine ⟨⟨_, hm⟩, fun i h1 h2 => ?_⟩
    rw [length_cons] at h2
    rcases eq_or_lt_of_le h1 with rfl | h1
    · exact (hp _).2 leaf hm
    · exact ha i h1 (by omega)

variable (sha stored backed fetch) in
/-- **A tree in memory stands for a tree of items**, as far as it is loaded, and the callback supplies the rest. -/
structure HoldsTree (c : ℕ) (t : MapTree) (s : Memory) : Prop where
  cowid : s.tree.cowid = c
  supply : Supply sha stored backed fetch c s.heap
  held : ∃ F, Held sha stored s.heap c t s.tree.root F

/-- What a call on a tree of items comes to: a panic, or an answer and the tree it leaves. -/
abbrev CallOutcome := Except Fault (Except MutationError Bool × MapTree)

variable (sha stored backed fetch) in
/-- **A call comes to what it would on the tree of items**: it panics as that does, or gives its answer and leaves a tree
that stands for what that leaves. -/
def Comes (c : ℕ) (outcome : CallOutcome) (p : TreeM Bool) (s : Memory) : Prop :=
  wp p (fun ok s' => ∃ t, outcome = .ok (.ok ok, t) ∧ HoldsTree sha stored backed fetch c t s')
    (fun e s' => ∃ t, outcome = .ok (.error e, t) ∧ HoldsTree sha stored backed fetch c t s')
    (fun f => outcome = .error f) s

/-- **A walk from the root of a canonical tree** loads children only. It passes a spine, and the leaf or the empty
branch at its end is what following the key in the tree of items leads to. -/
theorem HoldsTree.wp_walkTree {Q : Option Ref × List NodePathEntry → Memory → Prop} (key : Uint256)
    (hs : HoldsTree sha stored backed fetch c (.inner ch) s) (hc : Tree.Children radix 0 ch)
    (hQ : ∀ fr en u last h Ff G, Spine sha stored h c key 0 (.inner ch) fr u Ff →
      Held sha stored h c u en.node G → Disjoint Ff G → en.nodeId.depth = fr.length →
      HoldsTree sha stored backed fetch c (.inner ch) ⟨h, s.tree⟩ →
      ((∃ leaf, u = .leaf leaf ∧ last = some en.node ∧ leaf ∈ (.inner ch : MapTree) ∧
          follow radix key (.inner ch) 0 = some leaf) ∨
        ∃ ch', u = .inner ch' ∧ last = none ∧ ch' (key.nibble en.nodeId.depth) = .empty ∧
          en.nodeId.depth < leafDepth ∧ follow radix key (.inner ch) 0 = none) →
      Q (last, fr ++ [en]) ⟨h, s.tree⟩) : wp (walkTree key backed fetch) Q E P s := by
  obtain ⟨F, hl⟩ := hs.held
  refine SHAMap.wp_walkTree hs.supply hl (hc.bounded (by decide)) fun last path h hw hl' hS' => ?_
  obtain ⟨fr, en, u, Ff, G, rfl, hsi, hu, hi, -, -, hd, he⟩ := hl'.walk hw
  have hd : en.nodeId.depth = fr.length := hd.trans (Nat.zero_add _)
  refine hQ fr en u last h Ff G hsi hu hi hd ⟨hs.cowid, hS', F, hl'⟩ ?_
  rcases he with ⟨leaf, rfl, ha⟩ | ⟨ch', rfl, hem, ha, ht⟩
  · obtain ⟨hm, -⟩ := hsi.agree (fun i => ⟨(hc i).1.placed, (hc i).2⟩) (mem_leaf.mpr rfl)
    exact .inl ⟨leaf, rfl, ha, hm, hsi.follow_eq.trans rfl⟩
  · have hf : follow radix key (.inner ch') (0 + fr.length) = none := by
      rw [Tree.follow, Nat.zero_add, ← hd]
      exact congrArg (fun v => follow radix key v _) hem
    exact .inr ⟨ch', rfl, ha, hem, ht, hsi.follow_eq.trans hf⟩

/-- Adding an item to a tree of items: the leaf at the end of the key's way decides. -/
def addOutcome (type : LeafType) (item : SHAMapItem) (t : MapTree) : CallOutcome :=
  match Tree.follow radix item.key t 0 with
  | none =>
    if item.Sized then .ok (.ok true, Tree.put radix ⟨type, item⟩ t 0) else .error SHAMapTreeNode.shortItem
  | some leaf =>
    if leaf.item.key = item.key then .ok (.ok false, t)
    else if leaf.type ≠ type then .ok (.error (.crossTypeChange (.leaf type) (.leaf leaf.type)), t)
    else if item.Sized ∧ leaf.item.Sized then .ok (.ok true, Tree.put radix ⟨type, item⟩ t 0)
    else .error SHAMapTreeNode.shortItem

/-- **Adding an item** puts it into the tree, unless its key is there. -/
theorem addItemWalk_comes (hc : c ≠ 0) (hs : HoldsTree sha stored backed fetch c (.inner ch) s)
    (hch : Tree.Children radix 0 ch) : Comes sha stored backed fetch c (addOutcome type it (.inner ch))
      (addItemWalk sha backed fetch type it) s := by
  simp only [Comes, addItemWalk, wp_bind]
  refine hs.wp_walkTree it.key hch fun fr en u last h Ff G hsi hu hdi hp hs' hen => ?_
  have hw := hs.cowid
  rcases hen with ⟨leaf, rfl, rfl, hme, hf⟩ | ⟨ch', rfl, rfl, hem, hlt, hf⟩
  · -- the walk ends at a leaf
    obtain ⟨-, ha⟩ := hsi.agree (fun i => ⟨(hch i).1.placed, (hch i).2⟩) (mem_leaf.mpr rfl)
    obtain ⟨-, cw, hn, -⟩ := hu
    simp only [addWithLeafSplit, getLast?_concat, dropLast_concat, wp_bind, onHeap, wp_zoom, deref,
      wp_read, wp_pure, hn, peekItem, getType, addOutcome, hf]
    by_cases hk : leaf.item.key = it.key
    · simp only [hk, if_true]
      exact ⟨_, rfl, hs'⟩
    by_cases hty : leaf.type = type
    · subst hty
      simp only [hk, if_false, ne_eq, not_true, wp_bind]
      refine wp_newInnerNode sha stored hc hw fun s1 ht hch1 ho hl1 => ?_
      have hd : Disjoint Ff {h.next} :=
        disjoint_singleton_right.mpr fun hm => lt_irrefl _ (hsi.old _ hm)
      obtain ⟨i, hi, hi', hne⟩ := exists_digit_ne (R := radix) (fun e => hk e.symm)
        (d := fr.length) fun i hi => (ha i (zero_le _) (by omega)).symm
      refine wp_imp (wp_splitLoop hc (by rw [ht]; exact hw) (fun hno => by rw [if_neg hno])
        ⟨i, by omega, hi', hne⟩ (by omega) hp (hsi.frame hch1 (disjoint_empty _)) hl1 ho hd) ?_
      rintro ok s' ⟨hz, rfl, hco, hh, F', hl⟩
      rw [if_pos hz]
      refine ⟨_, rfl, hco, (hs'.supply.frame hch1).frame hh, F', ?_⟩
      rw [hsi.put_eq rfl, Nat.zero_add, Tree.put]
      rw [hp] at hl
      rwa [if_neg (show ¬ radix.key leaf = radix.key (⟨leaf.type, it⟩ : Leaf) from hk)]
    · have hy : ¬ SHAMapNodeType.leaf leaf.type = .leaf type := fun he => hty (SHAMapNodeType.leaf.inj he)
      simp only [hk, hty, hy, ne_eq, not_false_eq_true, if_true, if_false]
      exact ⟨_, rfl, hs'⟩
  · -- the walk ends at an empty branch
    simp only [addOutcome, hf]
    refine wp_noError (wp_addIntoEmptyBranch (E := ⊥) hc hw (fun hno => by rw [if_neg hno]) hsi hu hdi hp hlt hem) ?_
    rintro ok s' ⟨hz, rfl, hco, hh, F', hl⟩
    rw [if_pos hz]
    exact ⟨_, rfl, hco, hs'.supply.frame hh, F', hl⟩

/-! ### Replacing an item -/

/-- Putting back what is below a spine changes nothing. -/
theorem Spine.graft_self (hs : Spine sha stored h c key d t path u F) : graft radix key u path.length t d = t := by
  induction hs with
  | nil => rfl
  | @cons d ch en path u Fh F hid hd hh hr hi ih =>
    have hu : update ch (key.nibble d) (graft radix key u path.length (ch (key.nibble d))
        (d + 1)) = ch := by rw [ih, update_eq_self]
    exact congrArg inner hu

/-- The leaf of a path takes another item with its key. -/
theorem wp_replaceItem (hc : c ≠ 0) (hw : s.tree.cowid = c) (hrt : en.nodeId.isRoot = false)
    (hz : leaf.item.Sized) (hk : leaf.item.key = it.key)
    (hco : leaf.hash sha = computeLeafHash sha leaf.type it → leaf.item = it)
    (hl : Held sha stored s.heap c t s.tree.root F) (hs : Spine sha stored s.heap c it.key 0 t fr (.leaf leaf) Ff)
    (hu : Held sha stored s.heap c (.leaf leaf) en.node G) (hi : Disjoint Ff G) :
    wp (replaceItem sha (fr ++ [en]) en en.node it)
      (fun ok s' => ok ∧ s'.tree.cowid = c ∧ Changes c univ s.heap s'.heap ∧
        ∃ F', Held sha stored s'.heap c (put radix ⟨leaf.type, it⟩ t 0) s'.tree.root F') E P s := by
  obtain ⟨ho, cw, hn, -⟩ := id hu
  have hp : put radix (⟨leaf.type, it⟩ : Leaf) t 0 = graft radix it.key (.leaf ⟨leaf.type, it⟩) fr.length t 0 := by
    rw [hs.put_eq rfl, put, if_pos (show radix.key leaf = radix.key (⟨leaf.type, it⟩ : Leaf) from hk)]
  -- once the leaf is owned
  have he : ∀ (r : Ref) (s1 : Memory) (G1 : Set Ref), s1.tree = s.tree → Changes c ∅ s.heap s1.heap →
      s1.heap.node r = ⟨leaf.hash sha, c, .leaf leaf.type leaf.item⟩ →
      Held sha stored s1.heap c (.leaf leaf) r G1 → Disjoint Ff G1 →
      wp (do
        let n ← onHeap (deref r)
        let p ← Prog.lift (n.setItem sha it)
        onHeap (store r p.2)
        if p.1 then
          setRoot (← dirtyUp it.key fr r)
          return true
        else return true : TreeM Bool)
        (fun ok s' => ok ∧ s'.tree.cowid = c ∧ Changes c univ s.heap s'.heap ∧
          ∃ F', Held sha stored s'.heap c (put radix ⟨leaf.type, it⟩ t 0) s'.tree.root F') E P s1 := by
    intro r s1 G1 ht hh hn1 hl1 hd
    simp only [wp_bind, onHeap, wp_zoom, deref, wp_read, wp_pure, hn1, setItem, hc,
      if_false, wp_lift_ok, store, wp_update, decide_eq_true_eq]
    have hrG : r ∈ G1 := hl1.owns.mem (by rw [hn1])
    by_cases ha : leaf.hash sha = computeLeafHash sha leaf.type it
    · -- the same item
      have him := hco ha
      simp only [← ha, ne_eq, not_true, if_false, wp_pure]
      have hsm : s1.heap.set r ⟨leaf.hash sha, c, .leaf leaf.type it⟩ = s1.heap := by
        rw [← him, ← hn1]
        exact congrArg (fun f => { s1.heap with node := f }) (update_eq_self ..)
      rw [hp, show (⟨leaf.type, it⟩ : Leaf) = leaf by rw [← him], hs.graft_self, hsm, ht]
      exact ⟨trivial, hw, hh.mono (empty_subset _), F, hl.frame hh (disjoint_empty _)⟩
    · simp only [ne_eq, ha, not_false_eq_true, if_true, wp_bind]
      have hch : Changes c G1 s1.heap (s1.heap.set r
          ⟨computeLeafHash sha leaf.type it, c, .leaf leaf.type it⟩) :=
        set (fun _ => ⟨by rw [hn1], hrG⟩) _
      have hl2 : Held sha stored (s1.heap.set r
          ⟨computeLeafHash sha leaf.type it, c, .leaf leaf.type it⟩) c (.leaf ⟨leaf.type, it⟩) r G1 :=
        ⟨⟨by rw [node_set_self], hl1.owns.lt, fun _ => hrG, hl1.owns.old⟩, c, node_set_self ..,
          fun _ hne => absurd rfl hne⟩
      refine wp_total (wp_dirtyUp (E := ⊥) (P := ⊥) hc (by rw [ht]; exact hw)
        ((hs.frame hh (disjoint_empty _)).frame hch hd) hl2 hd) ?_
      rintro r' s' ⟨hcow', hch', F', hl', -⟩
      rw [hp]
      refine ⟨rfl, hcow', ?_, F', hl'⟩
      exact ((hh.mono (empty_subset _)).trans hch fun _ _ _ => trivial).trans hch' fun _ _ _ => trivial
  rw [replaceItem, wp_bind, dropLast_concat]
  refine wp_unshareNode (n := ⟨leaf.hash sha, c, .leaf leaf.type leaf.item⟩) hw ho.le
    (by rw [hn]; exact if_pos hz) (fun how => ?_) fun how tree htr hsm => ?_
  · rw [hn] at how
    obtain rfl : cw = c := how
    exact he en.node s G rfl (refl _ _ _) hn hu hi
  · have hr := hsm hrt
    subst hr
    refine he s.heap.next _ {s.heap.next} rfl (alloc _ _ _ _) (node_alloc_next ..) ?_ ?_
    · refine ⟨⟨by rw [node_alloc_next], lt_succ_self _, fun _ => rfl, fun q hq => ?_⟩, c,
        node_alloc_next .., fun _ hne => absurd rfl hne⟩
      rw [mem_singleton_iff.mp hq]
      exact lt_succ_self _
    · exact disjoint_singleton_right.mpr fun hm => lt_irrefl _ (hs.old _ hm)

/-- Updating an item of a tree of items: its key must be there, in a leaf of its type. -/
def updateOutcome (type : LeafType) (item : SHAMapItem) (t : MapTree) : CallOutcome :=
  match Tree.lookup radix item.key t 0 with
  | none => .ok (.error (.missingExactLeaf item.key), t)
  | some leaf =>
    if leaf.type ≠ type then .ok (.error (.crossTypeChange (.leaf type) (.leaf leaf.type)), t)
    else .ok (.ok true, Tree.put radix ⟨type, item⟩ t 0)

/-- **Updating an item** puts it into the tree, if its key is there. -/
theorem updateItemWalk_comes (hc : c ≠ 0) (hs : HoldsTree sha stored backed fetch c (.inner ch) s)
    (hch : Tree.Children radix 0 ch) (hz : ∀ leaf ∈ (.inner ch : MapTree), leaf.item.Sized)
    (hco : ∀ leaf ∈ (.inner ch : MapTree), leaf.type = type → leaf.item.key = it.key →
      leaf.hash sha = computeLeafHash sha type it → leaf.item = it) :
    Comes sha stored backed fetch c (updateOutcome type it (.inner ch))
      (updateItemWalk sha backed fetch type it) s := by
  simp only [Comes, updateItemWalk, wp_bind]
  refine hs.wp_walkTree it.key hch fun fr en u last h Ff G hsi hu hi hd hs' hen => ?_
  rcases hen with ⟨leaf, rfl, rfl, hm, hf⟩ | ⟨ch', rfl, rfl, hem, hlt, hf⟩
  · obtain ⟨-, cw, hn, -⟩ := id hu
    simp only [getLast?_concat, wp_bind, onHeap, wp_zoom, deref, wp_read, wp_pure, hn,
      peekItem, getType, updateOutcome, lookup_of_follow hf]
    by_cases hk : leaf.item.key = it.key
    · by_cases hy : leaf.type = type
      · subst hy
        simp only [hk, ne_eq, not_true, if_false, if_true]
        have hr : en.nodeId.isRoot = false := by
          -- the root is an inner node, so the leaf is not the root
          cases fr with
          | nil => cases hsi
          | cons e fr =>
            simp [SHAMapNodeId.isRoot, hd]
        obtain ⟨F, hl⟩ := hs'.held
        refine wp_total (wp_replaceItem (E := ⊥) (P := ⊥) hc hs'.cowid hr
          (hz leaf hm) hk (hco leaf hm rfl hk) hl hsi hu hi) ?_
        rintro ok s' ⟨rfl, ho, hh, F', hl'⟩
        exact ⟨_, rfl, ho, hs'.supply.frame hh, F', hl'⟩
      · have ht : ¬ SHAMapNodeType.leaf leaf.type = .leaf type := fun he => hy (SHAMapNodeType.leaf.inj he)
        simp only [hk, hy, ht, ne_eq, not_true, not_false_eq_true, if_true, if_false]
        exact ⟨_, rfl, hs'⟩
    · simp only [hk, ne_eq, not_false_eq_true, if_true, if_false]
      exact ⟨_, rfl, hs'⟩
  · rw [updateOutcome, lookup_of_follow_none hf]
    exact ⟨_, rfl, hs'⟩

/-! ### Deleting an item -/

section

variable {sl : Slots}

/-- Every child is loaded. -/
def AllLoaded (slots : Branch → Option Slot) : Prop := ∀ b slot, slots b = some slot → ∃ q, slot.child = some q

/-- The scan of a node finds its child if it has just one. -/
theorem onlyChild_eq (hi : h.InnerAt r sl) (ha : AllLoaded sl) (bs : List Branch) :
    (∀ next, onlyChild (h.node r) bs (some next) =
      if bs.filter (fun b => (sl b).isSome) = [] then some next else none) ∧ onlyChild (h.node r) bs none =
      match bs.filter (fun b => (sl b).isSome) with
      | [b] => (sl b).bind Slot.child
      | _ => none := by
  induction bs with
  | nil => exact ⟨fun _ => rfl, rfl⟩
  | cons b bs ih =>
    cases hb : sl b with
    | none =>
      simp only [onlyChild, hi.isEmptyBranch, hb, isNone_none, if_true, filter_cons, isSome_none,
        Bool.false_eq_true, if_false]
      exact ih
    | some slot =>
      obtain ⟨q, hq⟩ := ha b slot hb
      simp only [onlyChild, hi.isEmptyBranch, hi.getChild, hb, isNone_some, Bool.false_eq_true, if_false,
        filter_cons, isSome_some, if_true, bind_some, hq]
      refine ⟨fun _ => by simp, ?_⟩
      rw [ih.1 q]
      cases hf : bs.filter (fun b => (sl b).isSome) with
      | nil => simp [hb, hq]
      | cons b' bs' => simp

theorem setBranches_eq_filter (sl : Slots) : (finRange 16).filter (fun b => (sl b).isSome) = setBranches sl := rfl

theorem Held.allLoaded (hl : Held sha (fun _ => none) h c (.inner ch) r F) (hi : h.InnerAt r sl) : AllLoaded sl := by
  intro b slot hb
  obtain ⟨-, hash, cw, g, sl', hn, -, G, -, -, hsl⟩ := hl
  obtain rfl : sl = sl' := hi.unique ⟨_, _, _, hn⟩
  rcases hsl b with ⟨ho, -⟩ | ⟨hash', q, hso, -⟩ | ⟨-, -, hs⟩
  · rw [ho] at hb
    cases hb
  · rw [hso] at hb
    cases hb
    exact ⟨q, rfl⟩
  · cases hs

/-- The branches that are set are those that are not empty. -/
theorem Held.mem_setBranches (hl : Held sha stored h c (.inner ch) r F) (hi : h.InnerAt r sl) (b : Branch) :
    b ∈ setBranches sl ↔ ch b ≠ .empty := by
  obtain ⟨-, hash, cw, g, sl', hn, -, G, -, -, hsl⟩ := hl
  obtain rfl : sl = sl' := hi.unique ⟨_, _, _, hn⟩
  rw [SHAMap.mem_setBranches]
  rcases hsl b with ⟨ho, hm⟩ | ⟨hash', q, hs, hq⟩ | ⟨hs, hne, -⟩
  · simp [ho, hm]
  · refine ⟨fun _ he => ?_, fun _ => by rw [hs]; exact some_ne_none _⟩
    rw [he] at hq
    exact hq
  · exact ⟨fun _ => hne, fun _ => by rw [hs]; exact some_ne_none _⟩

/-- A node with one branch has that branch only. -/
theorem Held.single (hl : Held sha stored h c (.inner ch) r F) (hn : h.InnerAt r sl)
    (ho : setBranches sl = [b]) :
    ch = single b (ch b) ∧ ch b ≠ .empty ∧ ∃ G, SlotFor sha stored h c (ch b) (sl b) G := by
  have hm := hl.mem_setBranches hn
  rw [ho] at hm
  refine ⟨?_, (hm b).mp (mem_singleton_self b), ?_⟩
  · funext b'
    by_cases hb : b' = b
    · rw [hb, Tree.single, update_self]
    · rw [Tree.single, update_of_ne hb]
      by_contra he
      exact hb (mem_singleton.mp ((hm b').mpr he))
  · obtain ⟨Fh, G, sl', -, hi, hs, -, -, -⟩ := hl.split b
    obtain rfl : sl = sl' := hn.unique hi
    exact ⟨G, hs⟩

/-- A canonical node with one branch has more than one leaf below it. -/
theorem inner_of_single (hc : (inner ch).Canon radix d) (hs : ch = single b (ch b))
    (hn : ch b ≠ .empty) : ∃ gr, ch b = .inner gr := by
  cases hh : ch b with
  | empty => exact absurd hh hn
  | leaf leaf =>
    obtain ⟨-, x, hx, y, hy, hxy⟩ := hc
    rw [hs, hh] at hx hy
    exact absurd ((mem_single.mp hx).symm.trans (mem_single.mp hy)) hxy
  | inner gr => exact ⟨gr, rfl⟩

/-- The first branch that is set. -/
theorem selectOnlyBranch_eq (hi : h.InnerAt r sl) : selectOnlyBranch (h.node r) = (setBranches sl).head? := by
  rw [selectOnlyBranch, setBranches, head?_filter]
  congr 1
  funext b
  rw [hi.isEmptyBranch, not_isNone]

theorem branchCount_eq (hi : h.InnerAt r sl) : (h.node r).branchCount = (setBranches sl).length := by
  rw [branchCount, hi.slots_eq]

section

variable {Q : Option Ref → Heap → Prop} {E : ε → Heap → Prop}

theorem wp_onlyBelow_single {hash : SHAMapHash} {q : Ref} (hi : h.InnerAt r sl) (ha : AllLoaded sl)
    (ho : setBranches sl = [b]) (hb : sl b = some ⟨hash, some q⟩) :
    wp (onlyBelowLoadedLeaf (tn + 1) r) Q E P h ↔ wp (onlyBelowLoadedLeaf tn q) Q E P h := by
  have hs := (onlyChild_eq hi ha (finRange 16)).2
  rw [setBranches_eq_filter, ho] at hs
  simp only [hb, bind_some] at hs
  simp only [onlyBelowLoadedLeaf, deref, wp_bind, wp_read, wp_pure, hi.isInner, if_true, hs]

/-- The only branch of a node that is all in memory is loaded. -/
theorem Held.single_loaded (hl : Held sha (fun _ => none) h c (.inner ch) r F) (hi : h.InnerAt r sl)
    (ho : setBranches sl = [b]) :
    ∃ hash q G, sl b = some ⟨hash, some q⟩ ∧ Held sha (fun _ => none) h c (ch b) q G := by
  obtain ⟨-, hn, G, ⟨-, he⟩ | ⟨hash, q, hso, hq⟩ | ⟨-, -, hs⟩⟩ := hl.single hi ho
  · exact absurd he hn
  · exact ⟨hash, q, G, hso, hq⟩
  · cases hs

/-- Going down from a canonical tree ends at a leaf only if the tree is that leaf. -/
theorem wp_onlyBelowLoadedLeaf (hl : Held sha (fun _ => none) h c t r F) (hc : t.Canon radix d)
    (hbd : t.Bounded radix d) (hd : d ≤ leafDepth) (ht : leafDepth < d + tn)
    (hf : ∀ leaf, t = .leaf leaf → Q (some r) h) (hi : ∀ ch, t = .inner ch → Q none h) :
    wp (onlyBelowLoadedLeaf tn r) Q E P h := by
  induction t generalizing r F d tn Q with
  | empty => exact hl.elim
  | leaf leaf =>
    obtain _ | tn := tn
    · omega
    obtain ⟨-, cw, hn, -⟩ := hl
    simpa [onlyBelowLoadedLeaf, deref, hn, isInner] using hf leaf rfl
  | inner ch ih =>
    obtain _ | tn := tn
    · omega
    obtain ⟨-, -, sl, -, hin, -⟩ := hl.split 0
    have ha := hl.allLoaded hin
    by_cases ho : ∃ b, setBranches sl = [b]
    · obtain ⟨b, ho⟩ := ho
      obtain ⟨hsg, he, -⟩ := hl.single hin ho
      obtain ⟨hash, q, G, hb, hq⟩ := hl.single_loaded hin ho
      obtain ⟨gr, hg⟩ := inner_of_single hc hsg he
      rw [wp_onlyBelow_single hin ha ho hb]
      exact ih b hq (hc.1 b).1 (hbd.2 b) hbd.1 (by omega) (fun leaf hh => by rw [hg] at hh; cases hh)
        fun _ _ => hi ch rfl
    · have hs := (onlyChild_eq hin ha (finRange 16)).2
      have hno : onlyChild (h.node r) (finRange 16) none = none := by
        rw [hs, setBranches_eq_filter]
        split
        · next b hb => exact absurd ⟨b, hb⟩ ho
        · rfl
      simp only [onlyBelowLoadedLeaf, deref, wp_bind, wp_read, wp_pure, hin.isInner, if_true, hno]
      exact hi ch rfl

end

variable {E : MutationError → Heap → Prop} {Q : Option Ref → Heap → Prop}

/-- One turn of the loop that may fetch. -/
theorem wp_onlyBelow_inner (hr : h.InnerAt r sl) (hs : setBranches sl = [b]) :
    wp (onlyBelowLeafWithFetch fetch (tn + 1) r) Q E P h ↔
      (∀ hash q, sl b = some ⟨hash, some q⟩ → wp (onlyBelowLeafWithFetch fetch tn q) Q E P h) ∧
      ∀ hash, sl b = some ⟨hash, none⟩ → (fetch h.calls hash = none → E (.traversal (.missingNode hash)) h.call) ∧
        ∀ f, fetch h.calls hash = some f → wp (onlyBelowLeafWithFetch fetch tn f) Q E P h.call := by
  have hm : sl b ≠ none := by
    have : b ∈ setBranches sl := by rw [hs]; exact mem_singleton_self b
    exact mem_setBranches.mp this
  simp only [onlyBelowLeafWithFetch, deref, wp_bind, wp_read, wp_pure, hr.isInner, if_true,
    selectOnlyBranch_eq hr, hs, head?_cons, branchCount_eq hr, length_singleton, ne_eq, not_true_eq_false,
    if_false, hr.getChild, hr.getChildHash]
  rcases hb : sl b with _ | ⟨hash, _ | q⟩
  · exact absurd hb hm
  · simp only [bind_some, callFetch, wp_bind, wp_read, wp_update, wp_pure, slotHash_some hb, Heap.call]
    cases hf : fetch h.calls hash with
    | none => simp [hf]
    | some f => simp [hf]
  · simp

theorem wp_onlyBelow_leaf (hr : (h.node r).isInner = false) :
    wp (onlyBelowLeafWithFetch fetch (tn + 1) r) Q E P h ↔ Q (some r) h := by
  simp only [onlyBelowLeafWithFetch, deref, wp_bind, wp_read, wp_pure, hr, Bool.false_eq_true, if_false]

theorem wp_onlyBelow_branching (hr : h.InnerAt r sl) (hs : (setBranches sl).length ≠ 1) :
    wp (onlyBelowLeafWithFetch fetch (tn + 1) r) Q E P h ↔ Q none h := by
  simp only [onlyBelowLeafWithFetch, deref, wp_bind, wp_read, wp_pure, hr.isInner, if_true,
    selectOnlyBranch_eq hr, branchCount_eq hr]
  cases hh : (setBranches sl).head? with
  | none => rfl
  | some b =>
    simp only [ne_eq, hs, not_false_eq_true, if_true]
    rfl

/-- Going down a branch that may not be loaded. -/
theorem wp_onlyBelow_slot
    (hS : Supply sha stored backed fetch c h) (hi : h.InnerAt r sl) (ho : setBranches sl = [b])
    (hs : SlotFor sha stored h c t (sl b) F) (hc : ∀ q G n, Held sha stored { h with calls := n } c t q G →
      wp (onlyBelowLeafWithFetch fetch tn q) Q E P { h with calls := n }) :
    wp (onlyBelowLeafWithFetch fetch (tn + 1) r) Q E P h := by
  rw [wp_onlyBelow_inner hi ho]
  refine ⟨fun hash q hb => hc q F h.calls (hs.loaded hb), fun hash hb => ?_⟩
  rw [hb] at hs
  rcases hs with ⟨hn, -⟩ | ⟨hash', q, hso, -⟩ | ⟨hso, he, ht⟩
  · cases hn
  · cases hso
  · obtain ⟨rfl, -⟩ := Slot.mk.inj (some.inj hso)
    obtain ⟨f, hf, -, hl⟩ := hS.finds h.calls _ _ ht
    refine ⟨fun hn => absurd (hf.symm.trans hn) (some_ne_none f), fun f' hf' => ?_⟩
    obtain rfl : f = f' := some.inj (hf.symm.trans hf')
    exact hc f ∅ (h.calls + 1) (hl.frame ((refl c ∅ h).calls _) (disjoint_empty _))

/-- The same with children that are fetched on the way. -/
theorem wp_onlyBelowLeafWithFetch (hS : Supply sha stored backed fetch c h) (hl : Held sha stored h c t r F)
    (hc : t.Canon radix d) (hb : t.Bounded radix d) (hd : d ≤ leafDepth) (ht : leafDepth < d + tn)
    (hf : ∀ leaf, t = .leaf leaf → Q (some r) h)
    (hi : ∀ ch n, t = .inner ch → Q none { h with calls := n }) :
    wp (onlyBelowLeafWithFetch fetch tn r) Q E P h := by
  induction t generalizing h r F d tn Q with
  | empty => exact hl.elim
  | leaf leaf =>
    obtain _ | tn := tn
    · omega
    obtain ⟨-, cw, hn, -⟩ := hl
    rw [wp_onlyBelow_leaf (by rw [hn]; rfl)]
    exact hf leaf rfl
  | inner ch ih =>
    obtain _ | tn := tn
    · omega
    obtain ⟨-, -, sl, -, hin, -⟩ := hl.split 0
    by_cases he : (setBranches sl).length = 1
    · obtain ⟨b, ho⟩ := length_eq_one_iff.mp he
      obtain ⟨hs, hne, G, hsl⟩ := hl.single hin ho
      obtain ⟨gr, hg⟩ := inner_of_single hc hs hne
      refine wp_onlyBelow_slot hS hin ho hsl fun q G' n hq => ?_
      refine ih b (hS.frame ((refl c ∅ h).calls n)) hq (hc.1 b).1 (hb.2 b) hb.1 (by omega)
        (fun leaf hh => ?_) fun _ n' _ => hi ch n' rfl
      rw [hg] at hh
      cases hh
    · rw [wp_onlyBelow_branching hin he]
      exact hi ch h.calls rfl

end

/-! #### Nodes with one branch left -/

variable (sha stored backed fetch) in
/-- **What a node with one branch left becomes**: the leaf below it, if that is all it has. -/
def Collapses (c : ℕ) (collapse : Ref → TreeM (Option Ref)) : Prop :=
  ∀ (s : Memory) (r : Ref) (child : Branch → MapTree) (F : Set Ref) (slots : Branch → Option Slot) (b : Branch) (d : ℕ)
    (Q : Option Ref → Memory → Prop) (E : MutationError → Memory → Prop) (P : Fault → Prop),
    s.tree.cowid = c → Supply sha stored backed fetch c s.heap →
    Held sha stored s.heap c (.inner child) r F → (s.heap.node r).cowid = c → s.heap.InnerAt r slots →
    setBranches slots = [b] → (child b).Canon radix (d + 1) → (child b).Bounded radix (d + 1) → d < leafDepth →
    (∀ leaf ∈ child b, leaf.item.Sized) →
    (∀ o s' F', s'.tree = s.tree → Changes c F s.heap s'.heap →
      Pointer sha stored s'.heap c (Tree.collapse child) o F' → (∀ q ∈ F', q < s'.heap.next) →
      F' ⊆ F ∪ {q | s.heap.next ≤ q} → Q o s') → wp (collapse r) Q E P s

/-- A new leaf takes the place of a node above one leaf. -/
theorem wp_newLeafNode_collapse {Q : Option Ref → Memory → Prop} (s1 : Memory) (ho : s1.tree.cowid = c)
    (hr : s1.tree = s.tree) (hch : Changes c F s.heap s1.heap) (hs : leaf.item.Sized)
    (hc : ch = single b (.leaf leaf)) (hQ : ∀ o s' F', s'.tree = s.tree → Changes c F s.heap s'.heap →
      Pointer sha stored s'.heap c (collapse ch) o F' → (∀ q ∈ F', q < s'.heap.next) →
      F' ⊆ F ∪ {q | s.heap.next ≤ q} → Q o s') :
    wp (newLeafNode sha leaf.type leaf.item) (fun new s' => Q (some new) s') E P s1 := by
  refine wp_newLeafNode stored ho (fun hn => absurd hs hn) fun _ s2 ht hh hl => ?_
  refine hQ _ s2 {s1.heap.next} (ht.trans hr) ?_ (.inr ⟨_, rfl, ?_⟩) hl.owns.old ?_
  · exact hch.trans hh fun q hq _ => absurd hq (notMem_empty q)
  · rw [hc, collapse_single]
    exact hl
  · intro q hq
    rw [mem_singleton_iff.mp hq]
    exact .inr hch.next_le

/-- The search among loaded children is right when all are loaded. -/
theorem collapses_collapseLoaded (hc : c ≠ 0) (hu : leafDepth < tn) :
    Collapses sha (fun _ => none) backed fetch c (collapseLoaded sha tn) := by
  intro s r ch F sl b d Q E P hw hS hl ho hi he ha hbd hd hz hQ
  obtain ⟨hg, hne, -⟩ := hl.single hi he
  obtain ⟨hash, q, G, hb, hq⟩ := hl.single_loaded hi he
  obtain _ | tn := tn
  · omega
  simp only [collapseLoaded, wp_bind]
  rw [wp_onHeap, wp_onlyBelow_single hi (hl.allLoaded hi) he hb]
  refine wp_onlyBelowLoadedLeaf hq ha hbd hd (by omega) (fun leaf hf => ?_) fun gr hr => ?_
  · -- one leaf is left: it takes the node's place
    rw [hf] at hq hg
    obtain ⟨-, cw, hn, -⟩ := hq
    have hs : selectOnlyBranch (s.heap.node r) = some b := by rw [selectOnlyBranch_eq hi, he, head?_cons]
    simp only [wp_bind, wp_onHeap_deref, hs, hn, soleItem, wp_lift_ok]
    refine wp_setChild_held hc hl ho (.inl ⟨rfl, rfl⟩) (disjoint_empty F)
      (fun q hq => absurd hq (notMem_empty q)) fun s1 ht hh _ _ => ?_
    exact wp_newLeafNode_collapse s1 (by rw [ht]; exact hw) ht hh (hz leaf (by rw [hf]; rfl)) hg hQ
  · -- more than one leaf is below the branch
    exact hQ _ s F rfl (refl _ _ _) (.inr ⟨r, rfl, (collapse_of_inner hr).symm ▸ hl⟩) hl.owns.old subset_union_left

/-- The search that fetches is right on any tree. -/
theorem collapses_collapseWithFetch (ht : leafDepth < tn) :
    Collapses sha stored backed fetch c (collapseWithFetch sha fetch tn) := by
  intro s r ch F sl b d Q E P hc hS hl ho hi hs ha hb hd hz hQ
  obtain ⟨hg, he, G, hsl⟩ := hl.single hi hs
  obtain _ | tn := tn
  · omega
  have hca : ∀ (W : Set Ref) n, Changes c W s.heap { s.heap with calls := n } := fun W n =>
    (refl c W s.heap).calls n
  simp only [collapseWithFetch, wp_bind]
  rw [wp_onHeap]
  refine wp_onlyBelow_slot hS hi hs hsl fun q G' n hq => ?_
  refine wp_onlyBelowLeafWithFetch (hS.frame (hca ∅ n)) hq ha hb hd (by omega) (fun leaf hf => ?_) fun gr n' hr => ?_
  · rw [hf] at hq hg
    obtain ⟨-, cw, hn, -⟩ := hq
    have hn : s.heap.node q = ⟨leaf.hash sha, cw, .leaf leaf.type leaf.item⟩ := hn
    simp only [wp_bind, wp_onHeap_deref, hn, soleItem, wp_lift_ok]
    exact wp_newLeafNode_collapse (s := s) ⟨_, s.tree⟩ hc rfl (hca F n) (hz leaf (by rw [hf]; rfl)) hg hQ
  · have hl' := hl.frame (hca ∅ n') (disjoint_empty _)
    exact hQ _ _ F rfl (hca F n') (.inr ⟨r, rfl, (collapse_of_inner hr).symm ▸ hl'⟩) hl'.owns.old subset_union_left

variable {collapse : Ref → TreeM (Option Ref)}

/-- **One node of the loop**: it becomes what the canonical tree has in its place. -/
theorem wp_deleteStep {Q : Option Ref → Memory → Prop}
    (hc : Collapses sha stored backed fetch c collapse) (hw : s.tree.cowid = c)
    (hS : Supply sha stored backed fetch c s.heap)
    (hl : Held sha stored s.heap c (.inner ch) r F) (ho : (s.heap.node r).cowid = c)
    (hh : Tree.Children radix d ch) (hbd : ∀ b, (ch b).Bounded radix (d + 1)) (hd : d < leafDepth)
    (hz : ∀ leaf ∈ (.inner ch : MapTree), leaf.item.Sized)
    (hQ : ∀ o s' F', s'.tree = s.tree → Changes c F s.heap s'.heap →
      Pointer sha stored s'.heap c (Tree.collapse ch) o F' → (∀ q ∈ F', q < s'.heap.next) →
      F' ⊆ F ∪ {q | s.heap.next ≤ q} → Q o s') : wp (deleteStep collapse r) Q E P s := by
  obtain ⟨-, -, sl, -, hi, -⟩ := hl.split 0
  have hm := hl.mem_setBranches hi
  simp only [deleteStep, wp_bind, wp_onHeap_deref, branchCount_eq hi]
  rcases hs : setBranches sl with _ | ⟨b1, _ | ⟨b2, bs⟩⟩
  · -- nothing is left
    refine hQ _ s ∅ rfl (Changes.refl _ _ _) (.inl ⟨rfl, Tree.collapse_empty fun b => ?_⟩)
      (fun q hq => absurd hq (Set.notMem_empty q)) (Set.empty_subset _)
    by_contra hne
    have := (hm b).mpr hne
    rw [hs] at this
    cases this
  · exact hc s r ch F sl b1 d Q E P hw hS hl ho hi hs (hh b1).1 (hbd b1) hd (fun leaf hf => hz leaf ⟨b1, hf⟩) hQ
  · -- two branches are left
    have hk : Tree.collapse ch = .inner ch := by
      refine Tree.collapse_inner (fun he => ?_) fun a i hai => ?_
      · exact (hm b1).mp (by rw [hs]; exact List.mem_cons_self) (he b1)
      · have ha : ∀ b ∈ setBranches sl, b = i := fun b hb => by
          by_contra hbi
          refine (hm b).mp hb ?_
          rw [hai, Tree.single, update_of_ne hbi]
        have hn : (setBranches sl).Nodup := (List.nodup_finRange 16).filter _
        rw [hs] at ha hn
        have hne := (List.nodup_cons.mp hn).1
        rw [ha b1 List.mem_cons_self, ← ha b2 (by simp)] at hne
        exact hne List.mem_cons_self
    exact hQ _ s F rfl (Changes.refl _ _ _) (.inr ⟨r, rfl, hk.symm ▸ hl⟩) hl.owns.old Set.subset_union_left

/-- Below the root, the loop leaves what the tree is without the key. -/
theorem wp_deleteLoop (hc : c ≠ 0) (hco : Collapses sha stored backed fetch c collapse) (hw : s.tree.cowid = c)
    (hS : Supply sha stored backed fetch c s.heap)
    (hs : Spine sha stored s.heap c key d t path u F) (hu : erase radix key u (d + path.length) = .empty)
    (hd : d ≠ 0) (ha : t.Canon radix d)
    (hg : ∀ x ∈ t, ∀ y ∈ t, ∀ i < d, x.item.key.nibble i = y.item.key.nibble i)
    (hz : ∀ leaf ∈ t, leaf.item.Sized) : wp (deleteLoop collapse key path)
      (fun o s' => s'.tree.cowid = c ∧ Changes c F s.heap s'.heap ∧
        ∃ F', Pointer sha stored s'.heap c (erase radix key t d) o F' ∧ (∀ q ∈ F', q < s'.heap.next) ∧
          F' ⊆ F ∪ {q | s.heap.next ≤ q}) E P s := by
  induction hs generalizing E P with
  | nil =>
    exact ⟨hw, refl _ _ _, ∅, .inl ⟨rfl, hu⟩, fun q hq => absurd hq (notMem_empty q), empty_subset _⟩
  | @cons d ch en path u Fh F hid hlt hh hre hdis ih =>
    simp only [deleteLoop, wp_bind]
    rw [List.length_cons, ← Nat.add_assoc, Nat.add_right_comm] at hu
    obtain ⟨hca, hm⟩ := erase_spec (k := key) (ha.1 (key.nibble d)).1
    have hbl : ∀ b x, x ∈ ch b → ∀ y ∈ ch b, ∀ i < d + 1, x.item.key.nibble i = y.item.key.nibble i := by
      intro b x hx y hy i hi
      rcases Nat.lt_succ_iff_lt_or_eq.mp hi with hi | rfl
      · exact hg x ⟨b, hx⟩ y ⟨b, hy⟩ i hi
      · exact ((ha.1 b).2 x hx).trans ((ha.1 b).2 y hy).symm
    refine wp_total (ih (E := ⊥) (P := ⊥) hu (succ_ne_zero d)
      (ha.1 _).1 (fun x hx y hy => hbl _ x hx y hy) fun leaf hl => hz leaf ⟨_, hl⟩) ?_
    rintro o s1 ⟨hcow1, hch1, F1, hp, ho, hF1⟩
    have hdi : Disjoint Fh F1 := by
      refine disjoint_left.mpr fun q hq hq1 => ?_
      rcases hF1 hq1 with hq1 | hq1
      · exact disjoint_left.mp hdis hq hq1
      · exact Nat.not_lt_of_le hq1 (hh.1.old q hq)
    have hr : en.nodeId.isRoot = false := by
      rw [SHAMapNodeId.isRoot, hid]
      exact beq_false_of_ne hd
    simp only [selectBranch_eq (hid ▸ hlt), wp_lift_ok, hid, hr, Bool.false_eq_true, if_false]
    refine wp_fill hc hcow1 (hh.frame hch1 hdis) hp hdi ho ?_
    intro r' s2 F2 hcow2 hch2 how hl2 hF2
    have hch := Tree.Children.update ha.children hca fun x hx => (ha.1 _).2 x ((hm x).mp hx).1
    have he : ∀ b x, x ∈ update ch (key.nibble d) (erase radix key (ch (key.nibble d)) (d + 1)) b → x ∈ ch b := by
      intro b x hx
      by_cases hb : b = key.nibble d
      · subst hb
        rw [update_self] at hx
        exact ((hm x).mp hx).1
      · rwa [update_of_ne hb] at hx
    refine wp_deleteStep hco hcow2 ((hS.frame hch1).frame hch2) hl2 how hch (fun b => ?_) hlt ?_ ?_
    · exact (hch b).1.bounded fun x hx y hy i hi => hbl b x (he b x hx) y (he b y hy) i hi
    · rintro leaf ⟨b, hl⟩
      exact hz leaf ⟨b, he b leaf hl⟩
    · intro o' s' F' ht hch' hp' hol hF'
      refine ⟨by rw [ht]; exact hcow2, ?_, F', hp', hol, fun q hq => ?_⟩
      · refine ((hch1.mono subset_union_right).trans hch2 fun q hq _ => .inl hq).trans hch' fun q hq hlt => ?_
        rcases hF2 hq with (hq | hq) | hq
        · exact .inl hq
        · exact .inr ((hF1 hq).resolve_right (Nat.not_le_of_lt hlt))
        · exact absurd (Nat.le_trans hch1.next_le hq) (Nat.not_le_of_lt hlt)
      · rcases hF' hq with hq | hq
        · rcases hF2 hq with (hq | hq) | hq
          · exact .inl (.inl hq)
          · rcases hF1 hq with hq | hq
            · exact .inl (.inr hq)
            · exact .inr hq
          · exact .inr (le_trans hch1.next_le hq)
        · exact .inr (le_trans (le_trans hch1.next_le hch2.next_le) hq)

/-- Deleting an item of a tree of items. -/
noncomputable def deleteOutcome (key : Uint256) (child : Branch → MapTree) : CallOutcome :=
  match Tree.lookup radix key (.inner child) 0 with
  | none => .ok (.ok false, .inner child)
  | some _ => .ok (.ok true, .inner (Tree.eraseRoot radix key child))

/-- **Deleting an item** takes it out of the tree, if its key is there. -/
theorem deleteItemWalk_comes (hc : c ≠ 0) (hco : Collapses sha stored backed fetch c collapse)
    (hs : HoldsTree sha stored backed fetch c (.inner ch) s) (hch : Tree.Children radix 0 ch)
    (hz : ∀ leaf ∈ (.inner ch : MapTree), leaf.item.Sized) :
    Comes sha stored backed fetch c (deleteOutcome key ch) (deleteItemWalk backed fetch collapse key) s := by
  simp only [Comes, deleteItemWalk, wp_bind]
  refine hs.wp_walkTree key hch fun fr en u last h Ff G hsi hu hdis hp hs' hen => ?_
  rcases hen with ⟨leaf, rfl, rfl, hm, hf⟩ | ⟨ch', rfl, rfl, hem, hlt, hf⟩
  · obtain ⟨-, cw, hn, -⟩ := id hu
    simp only [wp_bind, wp_onHeap_deref, hn, peekItem, dropLast_concat, deleteOutcome, lookup_of_follow hf]
    by_cases hk : leaf.item.key = key
    · simp only [hk, ne_eq, not_true, if_false, if_true, wp_bind]
      -- the root is an inner node, so the path has a node above the leaf
      cases hsi with
      | @cons _ _ rootEntry path _ Fh F' hid hlt hh hr hd =>
        simp only [deleteLoop, wp_bind]
        have he : erase radix key (.leaf leaf) (0 + 1 + path.length) = .empty := by
          exact if_pos hk
        refine wp_total (wp_deleteLoop (E := ⊥) (P := ⊥) hc hco hs'.cowid hs'.supply
          hr he (succ_ne_zero 0) (hch _).1 (fun x hx y hy i hi => ?_) fun leaf hlf => hz leaf ⟨_, hlf⟩)
          ?_
        · obtain rfl : i = 0 := lt_one_iff.mp hi
          exact ((hch _).2 x hx).trans ((hch _).2 y hy).symm
        · rintro o s1 ⟨hcow1, hch1, F1, hp1, ho, hF1⟩
          have hdi : Disjoint Fh F1 := by
            refine disjoint_left.mpr fun q hq hq1 => ?_
            rcases hF1 hq1 with hq1 | hq1
            · exact disjoint_left.mp hd hq hq1
            · exact Nat.not_lt_of_le hq1 (hh.1.old q hq)
          have ht : rootEntry.nodeId.isRoot := by
            rw [SHAMapNodeId.isRoot, hid]
            rfl
          simp only [selectBranch_eq (hid ▸ hlt), wp_lift_ok, hid, ht, if_true, wp_bind]
          refine wp_fill hc hcow1 (hh.frame hch1 hd) hp1 hdi ho ?_
          intro r' s2 F2 hw hch2 how hl hF2
          exact ⟨_, rfl, hw, (hs'.supply.frame hch1).frame hch2, F2, hl⟩
    · simp only [hk, ne_eq, not_false_eq_true, if_true, if_false]
      exact ⟨_, rfl, hs'⟩
  · rw [deleteOutcome, lookup_of_follow_none hf]
    exact ⟨_, rfl, hs'⟩

end Xrpld.SHAMap
