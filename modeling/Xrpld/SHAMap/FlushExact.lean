import Xrpld.SHAMap.Confinement

/-!
# What a flush writes

`flush_dirty` and `try_flush_dirty_detached` of `xrpl/shamap/mutation.rs` ask the writer for the nodes that were
changed since they were last shared, each once and after its children.

## The model

* A writer says nothing about how often it was asked. `giveUpAt` is a writer that answers as another one does until its
  call with a given number, and then gives up with the heap and the node it was asked for: so the calls of a flush can
  be told one by one, and that there is no further one.
* `KeepsTree` is what a flush may expect of a writer: it keeps the node it was given, or a shared one that stands for the
  same tree.

## What is proved

`dirty_lists`: the list of dirty nodes is what it should be. `flush_exact`: the two ways to flush make the same calls,
one for each node of the list, with the hash of the bytes; the tree and its hash are those of its items, and nothing
that was there before changes when a copy is flushed, whatever the writer does.
-/

namespace Xrpld.SHAMap

open Relation (ReflTransGen TransGen)
open List Nat Option Set

variable {sha : Sha} {stored : MapStore} {h : Heap} {c : ℕ}
  {t u : MapTree} {r q : Ref} {F : Set Ref} {ch : Branch → MapTree} {b : Branch} {ε : Type}

/-! ### The list of dirty nodes -/

variable {l l' : List (Ref × MapTree)} {α : Type} {h0 : Heap} {write : Heap → Ref → Ref} {i : ℕ} {ts : List MapTree}

/-- A node stands for one tree only. -/
theorem Held.unique {F' : Set Ref} (hl : Held sha stored h c t r F) (hu : Held sha stored h c u r F') : t = u := by
  induction t generalizing r F u F' with
  | empty => exact hl.elim
  | leaf leaf =>
    obtain ⟨-, cw, hn, -⟩ := hl
    cases u with
    | empty => exact hu.elim
    | leaf lf' =>
      obtain ⟨-, cowid', hn', -⟩ := hu
      rw [hn] at hn'
      obtain ⟨-, -, hb⟩ := SHAMapTreeNode.mk.inj hn'
      obtain ⟨hy, hi⟩ := NodeBody.leaf.inj hb
      cases leaf
      cases lf'
      exact congrArg _ (Leaf.mk.injEq .. ▸ ⟨hy, hi⟩)
    | inner ch =>
      obtain ⟨-, _, _, _, _, hn', -⟩ := hu
      rw [hn] at hn'
      cases hn'
  | inner ch ih =>
    obtain ⟨-, hash, cw, g, sl, hn, -, G, -, -, hsl⟩ := hl
    cases u with
    | empty => exact hu.elim
    | leaf leaf =>
      obtain ⟨-, _, hn', -⟩ := hu
      rw [hn] at hn'
      cases hn'
    | inner ch' =>
      obtain ⟨-, hash', cowid', g', sl', hn', -, G', -, -, hsl'⟩ := hu
      rw [hn] at hn'
      cases hn'
      congr 1
      funext b
      rcases hsl b with ⟨hs, he⟩ | ⟨_, q, hs, hq⟩ | ⟨hs, -, hst⟩ <;>
        rcases hsl' b with ⟨hs', he'⟩ | ⟨_, q', hs', hq'⟩ | ⟨hs', -, ht⟩ <;> rw [hs] at hs'
      · rw [he, he']
      · cases hs'
      · cases hs'
      · cases hs'
      · cases hs'
        exact ih b hq hq'
      · cases (Slot.mk.inj (some.inj hs')).2
      · cases hs'
      · cases (Slot.mk.inj (some.inj hs')).2
      · rw [(Slot.mk.inj (some.inj hs')).1, ht] at hst
        exact (some.inj hst).symm

/-- A child of a node that is not shared. -/
def Heap.UnsharedEdge (h : Heap) (r q : Ref) : Prop := (h.node r).cowid ≠ 0 ∧ h.Edge r q

/-- **A node that was changed since it was last shared**: it is reached from the root through such nodes. -/
def Heap.Unshared (h : Heap) (r q : Ref) : Prop := ReflTransGen h.UnsharedEdge r q ∧ (h.node q).cowid ≠ 0

/-- Those below some branches are those below the children there. -/
theorem mem_dirtyBelow {x : Ref × MapTree} {bs : List Branch} : x ∈ dirtyBelow h ch r bs ↔
    ∃ b ∈ bs, ∃ p, (h.node r).getChild b = some p ∧ x ∈ dirty h (ch b) p := by
  rw [dirtyBelow, mem_flatMap]
  refine exists_congr fun b => and_congr_right fun _ => ?_
  cases (h.node r).getChild b with
  | none => simp
  | some p => simp

theorem mem_dirty_self (ht : t ≠ .empty) (h0 : (h.node r).cowid ≠ 0) : (r, t) ∈ dirty h t r := by
  cases t with
  | empty => exact absurd rfl ht
  | leaf leaf =>
    rw [dirty, if_neg h0]
    exact mem_singleton.mpr rfl
  | inner ch =>
    rw [dirty_inner h0]
    exact mem_append_right _ (mem_singleton.mpr rfl)

variable (hl : Held sha stored h c t r F)

include hl

theorem Held.ne_empty : t ≠ .empty := by
  rintro rfl
  exact hl

/-- What is in the list: nodes that are not shared, with the trees they stand for. -/
theorem Held.of_mem_dirty (hm : (q, u) ∈ dirty h t r) :
    h.Unshared r q ∧ ReflTransGen Tree.IsChild u t ∧ (∀ a ∈ u, a ∈ t) ∧ ∃ G, Held sha stored h c u q G := by
  induction t generalizing r F with
  | empty => cases hm
  | leaf leaf =>
    rw [dirty] at hm
    split at hm
    · cases hm
    · next h0 =>
      cases mem_singleton.mp hm
      exact ⟨⟨.refl, h0⟩, .refl, fun _ h => h, F, hl⟩
  | inner ch ih =>
    by_cases h0 : (h.node r).cowid = 0
    · rw [dirty_shared h0] at hm
      cases hm
    · rw [dirty_inner h0, List.mem_append, List.mem_singleton] at hm
      rcases hm with hm | hm
      · obtain ⟨b, -, p, hb, hm⟩ := mem_dirtyBelow.mp hm
        obtain ⟨_, G, _, _, -, -, -, hp, -⟩ := hl.getChild hb
        obtain ⟨hq, ht, hs, hh⟩ := ih b hp hm
        exact ⟨⟨.head ⟨h0, b, hb⟩ hq.1, hq.2⟩, ht.tail ⟨ch, b, rfl, rfl⟩, fun a ha => ⟨b, hs a ha⟩, hh⟩
      · cases hm
        exact ⟨⟨.refl, h0⟩, .refl, fun _ h => h, F, hl⟩

/-- **The list has the nodes that were changed.** -/
theorem Held.mem_dirty_iff : q ∈ (dirty h t r).map Prod.fst ↔ h.Unshared r q := by
  constructor
  · intro hm
    obtain ⟨⟨q', u⟩, hx, rfl⟩ := mem_map.mp hm
    exact (hl.of_mem_dirty hx).1
  · rintro ⟨ht, h0⟩
    induction ht using ReflTransGen.head_induction_on generalizing t F with
    | refl => exact mem_map_of_mem (mem_dirty_self hl.ne_empty h0)
    | head he _ ih =>
      obtain ⟨hr, b, hb⟩ := he
      obtain ⟨ch, rfl⟩ : ∃ ch, t = .inner ch := by
        cases t with
        | empty => exact hl.elim
        | leaf leaf =>
          obtain ⟨-, _, hn, -⟩ := hl
          rw [hn] at hb
          cases hb
        | inner ch => exact ⟨ch, rfl⟩
      obtain ⟨_, G, _, _, -, -, -, hp, -⟩ := hl.getChild hb
      obtain ⟨x, hx, rfl⟩ := mem_map.mp (ih hp)
      rw [dirty_inner hr]
      exact mem_map_of_mem (mem_append_left _ (mem_dirtyBelow.mpr ⟨b, mem_finRange b, _, hb, hx⟩))

/-- **No node is in the list twice**: a node stands for one tree only, and that has one place. -/
theorem Held.dirty_nodup {d : ℕ} (hpl : t.Placed radix d) (hd : t.Filled) : ((dirty h t r).map Prod.fst).Nodup := by
  induction t generalizing r F d with
  | empty => exact nodup_nil
  | leaf leaf =>
    rw [dirty]
    split
    · exact nodup_nil
    · exact nodup_singleton r
  | inner ch ih =>
    by_cases h0 : (h.node r).cowid = 0
    · rw [dirty_shared h0]
      exact nodup_nil
    rw [dirty_inner h0, map_append, nodup_append]
    refine ⟨?_, nodup_singleton r, ?_⟩
    · rw [dirtyBelow, map_flatMap, nodup_flatMap]
      refine ⟨fun b _ => ?_, (nodup_finRange 16).imp fun {b b'} hn => ?_⟩
      · cases hb : (h.node r).getChild b with
        | none => exact nodup_nil
        | some p =>
          obtain ⟨_, G, _, _, -, -, -, hp, -⟩ := hl.getChild hb
          exact ih b hp (hpl b).1 (hd.2 b)
      · -- a node below two branches would stand for a tree with a leaf in both
        intro q hq hq'
        have hbl : ∀ {b p}, (h.node r).getChild b = some p → q ∈ (dirty h (ch b) p).map Prod.fst →
            ∃ u G, Held sha stored h c u q G ∧ u.Filled ∧ ∀ a ∈ u, a ∈ ch b := by
          intro b p hb hm
          obtain ⟨⟨q', u⟩, hx, hq'⟩ := mem_map.mp hm
          obtain rfl : q' = q := hq'
          obtain ⟨_, G, _, _, -, -, -, hp, -⟩ := hl.getChild hb
          obtain ⟨-, ht, hsu, G', hq⟩ := hp.of_mem_dirty hx
          exact ⟨u, G', hq, (hd.2 b).part ht, hsu⟩
        cases hb : (h.node r).getChild b with
        | none =>
          simp only [hb] at hq
          cases hq
        | some p =>
          cases hb' : (h.node r).getChild b' with
          | none =>
            simp only [hb'] at hq'
            cases hq'
          | some p' =>
            simp only [hb] at hq
            simp only [hb'] at hq'
            obtain ⟨u, G, hu, hf, hsu⟩ := hbl hb hq
            obtain ⟨u', G', hu', -, hs⟩ := hbl hb' hq'
            cases hu.unique hu'
            obtain ⟨a, ha⟩ := hf.exists_mem hu.ne_empty
            exact hn (((hpl b).2 a (hsu a ha)).symm.trans ((hpl b').2 a (hs a ha)))
    · intro q hq r' hr he
      obtain rfl : q = r := he.trans (mem_singleton.mp hr)
      obtain ⟨⟨q', u⟩, hm, hqr⟩ := mem_map.mp hq
      obtain rfl : q' = q := hqr
      obtain ⟨b, -, p, hb, hm⟩ := mem_dirtyBelow.mp hm
      obtain ⟨_, G, _, _, -, -, -, hp, -⟩ := hl.getChild hb
      obtain ⟨-, ht, -, G', hq⟩ := hp.of_mem_dirty hm
      cases hl.unique hq
      have ho : TransGen Tree.IsChild (.inner ch : MapTree) (.inner ch) :=
        Relation.TransGen.tail' ht ⟨ch, b, rfl, rfl⟩
      exact Tree.isChild_wf.transGen.asymmetric _ _ ho ho

omit hl

/-- Every child that was changed comes before its parent. -/
def ChildrenFirst (h : Heap) (l : List (Ref × MapTree)) : Prop :=
  ∀ l1 q u l2, l = l1 ++ (q, u) :: l2 → ∀ q', h.Edge q q' → (h.node q').cowid ≠ 0 → q' ∈ l1.map Prod.fst

theorem ChildrenFirst.nil : ChildrenFirst h [] := by
  intro l1 q u l2 he
  simp at he

theorem ChildrenFirst.append (hl : ChildrenFirst h l) (hl' : ChildrenFirst h l') : ChildrenFirst h (l ++ l') := by
  intro l1 q u l2 he q' hq h0
  rcases append_eq_append_iff.mp he with ⟨m, rfl, hm⟩ | ⟨m, hm, hm'⟩
  · exact map_append .. ▸ mem_append_right _ (hl' m q u l2 hm q' hq h0)
  · cases m with
    | nil => 
      have := hl' [] q u l2 hm'.symm q' hq h0
      cases this
    | cons x m =>
      cases hm'
      exact hl l1 q u m hm q' hq h0

theorem ChildrenFirst.concat (hl : ChildrenFirst h l)
    (hr : ∀ q', h.Edge r q' → (h.node q').cowid ≠ 0 → q' ∈ l.map Prod.fst) : ChildrenFirst h (l ++ [(r, t)]) := by
  intro l1 q u l2 he
  rcases eq_nil_or_concat l2 with rfl | ⟨l3, x, rfl⟩
  · obtain ⟨rfl, hx⟩ := append_inj' he rfl
    cases hx
    exact hr
  · rw [concat_eq_append, ← cons_append, ← append_assoc] at he
    exact hl l1 q u l3 (append_inj' he rfl).1

/-- **A node comes after its children.** -/
theorem Held.dirty_childrenFirst (hl : Held sha stored h c t r F) : ChildrenFirst h (dirty h t r) := by
  induction t generalizing r F with
  | empty => exact .nil
  | leaf leaf =>
    obtain ⟨-, _, hn, -⟩ := hl
    rw [dirty]
    split
    · exact .nil
    · refine ChildrenFirst.nil.concat fun q' hq => ?_
      obtain ⟨b, hb⟩ := hq
      rw [hn] at hb
      cases hb
  | inner ch ih =>
    by_cases h0 : (h.node r).cowid = 0
    · rw [dirty_shared h0]
      exact .nil
    · have hbl : ∀ bs, ChildrenFirst h (dirtyBelow h ch r bs) := by
        intro bs
        induction bs with
        | nil => exact .nil
        | cons b bs ihbs =>
          cases hb : (h.node r).getChild b with
          | none =>
            rw [dirtyBelow_cons_none hb]
            exact ihbs
          | some p =>
            rw [dirtyBelow_cons_some hb]
            obtain ⟨_, G, _, _, -, -, -, hp, -⟩ := hl.getChild hb
            exact (ih b hp).append ihbs
      rw [dirty_inner h0]
      refine (hbl _).concat fun q' hq h0' => ?_
      obtain ⟨b, hb⟩ := hq
      obtain ⟨_, G, _, _, -, -, -, hp, -⟩ := hl.getChild hb
      exact mem_map_of_mem (mem_dirtyBelow.mpr ⟨b, mem_finRange b, q', hb, mem_dirty_self hp.ne_empty h0'⟩)

/-- Nothing below a shared node was changed. -/
def Heap.Settled (h : Heap) (r : Ref) : Prop := AllBelow h.Edge (fun p => (h.node p).cowid = 0 → Frozen h p) r

theorem Heap.Settled.unshared_iff (hs : h.Settled r) :
    h.Unshared r q ↔ ReflTransGen h.Edge r q ∧ (h.node q).cowid ≠ 0 := by
  refine ⟨fun hq => ⟨ReflTransGen.mono (fun _ _ he => he.2) _ _ hq.1, hq.2⟩, fun hq => ?_⟩
  obtain ⟨hp, h0⟩ := hq
  refine ⟨?_, h0⟩
  induction hp using ReflTransGen.head_induction_on with
  | refl => exact .refl
  | head hd hr ih =>
    refine .head ⟨fun hz => h0 ?_, hd⟩ (ih (AllBelow.step hs hd))
    exact ((AllBelow.self hs hz) q (.head hd hr)).1

/-- **A list of the nodes that were changed**: each once, after its children, and no others. -/
structure ListsChanged (h : Heap) (r : Ref) (l : List (Ref × MapTree)) : Prop where
  mem : ∀ q, q ∈ l.map Prod.fst ↔ h.Unshared r q
  mem_settled : h.Settled r → ∀ q, q ∈ l.map Prod.fst ↔ ReflTransGen h.Edge r q ∧ (h.node q).cowid ≠ 0
  nodup : (l.map Prod.fst).Nodup
  childrenFirst : ChildrenFirst h l

theorem RootCanon.placed (ht : RootCanon t) : t.Placed radix 0 := by
  cases t with
  | empty => trivial
  | leaf leaf => trivial
  | inner ch => exact (ht ch rfl).placed

theorem Held.dirty_lists (hl : Held sha stored h c t r F) (ht : RootCanon t)
    (he : (h.node r).isEmpty = false) : ListsChanged h r (dirty h t r) where
  mem _ := hl.mem_dirty_iff
  mem_settled hs _ := hl.mem_dirty_iff.trans hs.unshared_iff
  nodup := hl.dirty_nodup ht.placed (ht.filled hl he)
  childrenFirst := hl.dirty_childrenFirst

/-! ### A copy is flushed beside the old nodes -/

/-- A program that leaves the nodes of `h0` as they are, whatever it returns. -/
def LeavesOld {α : Type} (h0 : Heap) (p : HeapM ε α) (Q : α → Prop) : Prop :=
  ∀ h, Changes 0 ∅ h0 h → wp p (fun a h' => Changes 0 ∅ h0 h' ∧ Q a) (fun _ h' => Changes 0 ∅ h0 h') (fun _ => True) h

section

variable {β : Type} {Q : α → Prop} {Q' : β → Prop} {wr : Option (Writer ε)} {walk : Ref → HeapM ε (Ref × ℕ)}

theorem LeavesOld.bind {p : HeapM ε α} {f : α → HeapM ε β} (hp : LeavesOld h0 p Q)
    (hf : ∀ a, Q a → LeavesOld h0 (f a) Q') : LeavesOld h0 (p >>= f) Q' := by
  intro h hc
  rw [wp_bind]
  exact wp_mono (hp h hc) (fun a h' ha => hf a ha.2 h' ha.1) (fun _ _ he => he) fun _ h => h

theorem LeavesOld.pure {a : α} (ha : Q a) : LeavesOld h0 (Pure.pure a : HeapM ε α) Q := fun _ hc => ⟨hc, ha⟩

theorem leavesOld_deref (r : Ref) : LeavesOld h0 (deref r : HeapM ε SHAMapTreeNode) fun _ => True :=
  fun _ hc => ⟨hc, trivial⟩

theorem leavesOld_lift (x : Run α) : LeavesOld h0 (Prog.lift x : HeapM ε α) fun _ => True := by
  intro h hc
  cases x with
  | error f => trivial
  | ok a => exact ⟨hc, trivial⟩

theorem leavesOld_store (hr : h0.next ≤ r) (n : SHAMapTreeNode) :
    LeavesOld h0 (store r n : HeapM ε Unit) fun _ => True := by
  refine fun h hc => ⟨⟨hc.next_le, fun q hq ho => ?_⟩, trivial⟩
  rw [node_set_of_ne (Nat.ne_of_lt (Nat.lt_of_lt_of_le hq hr))]
  exact hc.same q hq ho

theorem leavesOld_allocate (n : SHAMapTreeNode) : LeavesOld h0 (allocate n : HeapM ε Ref) fun r => h0.next ≤ r :=
  fun h hc => ⟨hc.trans (Changes.alloc 0 ∅ h n) fun _ hq _ => hq, hc.next_le⟩

theorem leavesOld_cloneNode (ow : ℕ) (r : Ref) :
    LeavesOld h0 (cloneNode ow r : HeapM ε Ref) fun r => h0.next ≤ r :=
  (leavesOld_deref r).bind fun _ _ => (leavesOld_lift _).bind fun _ _ => leavesOld_allocate _

theorem leavesOld_tryMaybeWriteNode (r : Ref) : LeavesOld h0 (tryMaybeWriteNode wr r) fun _ => True := by
  cases wr with
  | none => exact .pure trivial
  | some write =>
    intro h hc
    simp only [tryMaybeWriteNode, wp_bind, wp_read, wp_update]
    cases write h r with
    | ok kept => exact ⟨hc.calls _, trivial⟩
    | error e => exact hc.calls _

theorem leavesOld_flushLeaf (hr : h0.next ≤ r) : LeavesOld h0 (flushLeaf sha r : HeapM ε Unit) fun _ => True :=
  (leavesOld_deref r).bind fun _ _ => leavesOld_store hr _

theorem leavesOld_updateHashDeep (hr : h0.next ≤ r) :
    LeavesOld h0 (updateHashDeep sha r : HeapM ε Unit) fun _ => True := by
  intro h hc
  simp only [updateHashDeep, wp_bind, wp_read]
  cases (h.node r).body with
  | leaf type it => trivial
  | inner g sl => exact leavesOld_store hr _ h hc

theorem leavesOld_writeLeaf (hr : h0.next ≤ r) :
    LeavesOld h0 (do flushLeaf sha r; return (← tryMaybeWriteNode wr r, 1)) fun _ => True :=
  (leavesOld_flushLeaf hr).bind fun _ _ => (leavesOld_tryMaybeWriteNode r).bind fun _ _ => .pure trivial

theorem leavesOld_flushBranches (ow : ℕ) (hr : h0.next ≤ r)
    (hw : ∀ r, h0.next ≤ r → LeavesOld h0 (walk r) fun _ => True) (bs : List Branch) :
    LeavesOld h0 (flushBranches sha (cloneNode ow) wr walk r bs) fun _ => True := by
  induction bs with
  | nil => exact .pure trivial
  | cons b bs ih =>
    refine (leavesOld_deref r).bind fun n _ => ?_
    cases n.getChild b with
    | none => exact ih
    | some ch =>
      refine (leavesOld_deref ch).bind fun m _ => ?_
      split
      · exact ih
      · refine (leavesOld_cloneNode ow ch).bind fun ch hc => ?_
        have hf : LeavesOld h0 (tryFlushChild sha wr walk ch) fun _ => True := by
          refine (leavesOld_deref ch).bind fun m _ => ?_
          split
          · exact hw ch hc
          · exact leavesOld_writeLeaf hc
        refine hf.bind fun x _ => ?_
        refine ((leavesOld_deref r).bind fun _ _ => (leavesOld_lift _).bind fun _ _ => leavesOld_store hr _).bind
          fun _ _ => ih.bind fun _ _ => .pure trivial

theorem leavesOld_flushNode (ow levels : ℕ) (hr : h0.next ≤ r) :
    LeavesOld h0 (flushNode sha (cloneNode ow) wr levels r) fun _ => True := by
  induction levels generalizing r with
  | zero => exact fun _ _ => trivial
  | succ levels ih =>
    refine (leavesOld_flushBranches ow hr (fun r hr => ih hr) _).bind fun _ _ => ?_
    exact (leavesOld_updateHashDeep hr).bind fun _ _ => (leavesOld_deref r).bind fun _ _ => (leavesOld_store hr _).bind
      fun _ _ => (leavesOld_tryMaybeWriteNode r).bind fun _ _ => .pure trivial

/-- **Flushing a copy leaves every old node as it was**, whatever the writer answers. -/
theorem leavesOld_tryFlushDirtyDetached (tree : MutableTree) (write : Writer ε) (levels : ℕ) :
    LeavesOld h0 (tree.tryFlushDirtyDetached sha write levels) fun _ => True := by
  have hi : LeavesOld h0 (tryWalkSubtreeDetachedImpl sha (some write) levels tree.root tree.cowid) fun _ => True := by
    refine (leavesOld_deref _).bind fun n _ => ?_
    split
    · exact .pure trivial
    · refine (leavesOld_cloneNode _ _).bind fun root hr => (leavesOld_deref _).bind fun m _ => ?_
      split
      · exact leavesOld_writeLeaf hr
      · split
        · exact (leavesOld_allocate _).bind fun _ _ => .pure trivial
        · exact leavesOld_flushNode _ _ hr
  exact hi.bind fun _ _ => .pure trivial

end

/-! ### The calls of a writer -/

variable (sha stored) in
/-- **What a flush expects of a writer**: for a node that is ready to be written it keeps that node, or a shared one that
stands for the same tree. -/
def KeepsTree (c : ℕ) (h0 : Heap) (write : Heap → Ref → Ref) : Prop :=
  ∀ h t r F, Changes c Set.univ h0 h → Held sha stored h c t r F → Written sha h r t →
    write h r = r ∨ (Held sha stored h c t (write h r) ∅ ∧ (h.node (write h r)).cowid = 0)

/-- A writer that answers as another one until its call with the number `n`, and then gives up with what it sees. -/
def giveUpAt (n : ℕ) (write : Heap → Ref → Ref) : Writer (Heap × Ref) :=
  fun h r => if h.calls = n then .error (h, r) else .ok (write h r)

variable (sha) in
/-- A node ready to be written, with the hash of its bytes. -/
structure WrittenOf (x : Heap × Ref) (t : MapTree) : Prop where
  written : Written sha x.1 x.2 t
  hash : ∃ bytes, (x.1.node x.2).serializeWithPrefix = .ok bytes ∧ (x.1.node x.2).hash = sha bytes

section

variable {k : ℕ}

theorem KeepsTree.serves (hw : KeepsTree sha stored c h0 write) (E : ε → Heap → Prop) (i : ℕ) (ts : List MapTree) :
    Serves sha stored (some fun h r => .ok (write h r)) E c h0 i ts := by
  intro write' hwr k t _ h r F _ hb hl hr
  cases hwr
  exact .inl ⟨_, rfl, hw h t r F hb hl hr⟩

/-- The call where the writer gives up. -/
theorem KeepsTree.serves_giveUpAt (hw : KeepsTree sha stored c h0 write) :
    Serves sha stored (some (giveUpAt (i + k) write))
      (fun x _ => ∃ t, ts[k]? = some t ∧ Written sha x.1 x.2 t) c h0 i ts := by
  intro write' hwr k' t hk' h r F hc hb hl hr
  cases hwr
  by_cases hk : k' = k
  · subst hk
    exact .inr ⟨(h, r), if_pos hc, t, hk', hr⟩
  · exact .inl ⟨_, if_neg (by omega), hw h t r F hb hl hr⟩

/-- All calls before it were answered. -/
theorem Wrote.giveUpAt_none {j : ℕ} (hw : Wrote sha (some (giveUpAt (i + k) write)) i ts j) : ts[k]? = none := by
  by_contra hn
  obtain ⟨t, ht⟩ := ne_none_iff_exists'.mp hn
  obtain ⟨h, r, hc, -, r', hr⟩ := hw.answered _ rfl k t ht
  rw [giveUpAt, if_pos hc] at hr
  cases hr

end

variable (sha) in
/-- **The calls a flush makes**, told by where the writer gives up: the call with the number `k` is for the tree with the
number `k` of the list, and there are no more. -/
structure CallsFor {σ α : Type} (flush : Writer (Heap × Ref) → Except Fault (Except (Heap × Ref) α × σ))
    (write : Heap → Ref → Ref) (i : ℕ) (ts : List MapTree) : Prop where
  call : ∀ k t, ts[k]? = some t →
    ∃ x s', flush (giveUpAt (i + k) write) = .ok (.error x, s') ∧ WrittenOf sha x t
  stop : ∀ k, ts.length ≤ k → ∃ a s', flush (giveUpAt (i + k) write) = .ok (.ok a, s')

/-- Told by one property of all these runs. -/
theorem callsFor_of_wp {σ : Type} (flush : Writer (Heap × Ref) → Prog Fault σ (Heap × Ref) α) {s : σ}
    (hs : ∀ t ∈ ts, t ≠ .empty ∧ t.Filled)
    (hf : ∀ k, wp (flush (giveUpAt (i + k) write)) (fun _ _ => ts[k]? = none)
      (fun x _ => ∃ t, ts[k]? = some t ∧ Written sha x.1 x.2 t) (fun _ => False) s) :
    CallsFor sha (fun w => flush w s) write i ts := by
  have hr : ∀ k, (∃ a s', flush (giveUpAt (i + k) write) s = .ok (.ok a, s') ∧ ts[k]? = none) ∨
      ∃ x s' t, flush (giveUpAt (i + k) write) s = .ok (.error x, s') ∧ ts[k]? = some t ∧ Written sha x.1 x.2 t := by
    intro k
    have hk := hf k
    rcases ho : flush (giveUpAt (i + k) write) s with f | ⟨x | a, s'⟩ <;> simp only [wp, ho] at hk
    · obtain ⟨t, ht, hw⟩ := hk
      exact .inr ⟨x, s', t, rfl, ht, hw⟩
    · exact .inl ⟨a, s', rfl, hk⟩
  constructor
  · intro k t ht
    rcases hr k with ⟨_, _, -, hn⟩ | ⟨x, s', t', ho, ht', hw⟩
    · rw [ht] at hn
      cases hn
    · cases ht.symm.trans ht'
      obtain ⟨he, hd⟩ := hs t (mem_of_getElem? ht)
      exact ⟨x, s', ho, hw, _, hw.bytes, hw.hash.trans (treeHash_eq_bytes he hd)⟩
  · intro k hk
    rcases hr k with ⟨a, s', ho, -⟩ | ⟨x, s', t, -, ht, -⟩
    · exact ⟨a, s', ho⟩
    · rw [getElem?_eq_none hk] at ht
      cases ht

/-! ### Flushing a tree -/

variable (sha stored) in
/-- What is left of a flush: the same tree, and the hash of its items. -/
def StandsFor (h : Heap) (tree : MutableTree) (t : MapTree) : Prop :=
  (∃ F, Held sha stored h tree.cowid t tree.root F) ∧ (h.node tree.root).hash = treeHash sha t

section

variable {s : Memory} {levels : ℕ}

theorem Held.dirty_filled (hl : Held sha stored h c t r F) (ht : t.Filled) :
    ∀ u ∈ (dirty h t r).map Prod.snd, u ≠ .empty ∧ u.Filled := by
  intro u hu
  obtain ⟨⟨q, u'⟩, hm, rfl⟩ := mem_map.mp hu
  obtain ⟨-, hp, -, G, hq⟩ := hl.of_mem_dirty hm
  exact ⟨hq.ne_empty, ht.part hp⟩

/-- **A flush writes exactly what was changed.** Let the root not be an inner node without branches, and let the writer
keep what it is given. `flush_dirty` asks it for each node that was changed since it was last shared, once, after the
node's children, with the hash of its bytes, and for no other. What is left stands for the same tree and has its hash.
`try_flush_dirty_detached` makes the same calls if no item is too short to be copied, and leaves every node that was
there as it was, whatever the writer answers. -/
theorem flush_exact (hc : s.tree.cowid ≠ 0) (hlevels : leafDepth ≤ levels)
    (hl : Held sha stored s.heap s.tree.cowid t s.tree.root F) (ht : RootCanon t)
    (hempty : (s.heap.node s.tree.root).isEmpty = false) (hwrite : KeepsTree sha stored s.tree.cowid s.heap write) :
    ∃ l, ListsChanged s.heap s.tree.root l ∧
      CallsFor sha (fun w => tryFlushDirty sha w levels s) write s.heap.calls (l.map Prod.snd) ∧
      (∃ s', flushDirty (ε := ε) sha write levels s = .ok (.ok l.length, s') ∧ StandsFor sha stored s'.heap s'.tree t) ∧
      ((∀ leaf ∈ t, leaf.item.Sized) →
        CallsFor sha (fun w => s.tree.tryFlushDirtyDetached sha w levels s.heap) write s.heap.calls (l.map Prod.snd) ∧
          ∃ tree h', s.tree.tryFlushDirtyDetached (ε := ε) sha (fun h r => .ok (write h r)) levels s.heap =
              .ok (.ok (tree, l.length), h') ∧ StandsFor sha stored h' tree t) ∧
      ∀ (w : Writer ε) answer h', s.tree.tryFlushDirtyDetached sha w levels s.heap = .ok (answer, h') →
        ∀ q < s.heap.next, h'.node q = s.heap.node q := by
  have htoWrite : toWrite s.heap t s.tree.root = dirty s.heap t s.tree.root := by
    rw [toWrite, hempty, if_neg Bool.false_ne_true]
  have hf := hl.dirty_filled (ht.filled hl hempty)
  refine ⟨dirty s.heap t s.tree.root, hl.dirty_lists ht hempty, ?_, ?_, fun hs => ⟨?_, ?_⟩, ?_⟩
  · refine callsFor_of_wp (fun w => tryFlushDirty sha w levels) hf fun k => ?_
    simp only [tryFlushDirty, wp_bind, wp_read]
    rw [wp_onHeap]
    refine wp_tryWalkSubtreeImpl hc hlevels hl ht (htoWrite ▸ hwrite.serves_giveUpAt) fun r' h' F' _ hw _ _ => ?_
    rw [htoWrite] at hw
    exact hw.giveUpAt_none
  · have hp : wp (flushDirty (ε := ε) sha write levels)
        (fun n s' => n = (dirty s.heap t s.tree.root).length ∧ StandsFor sha stored s'.heap s'.tree t)
        ⊥ ⊥ s := by
      simp only [flushDirty, tryFlushDirty, wp_bind, wp_read]
      rw [wp_onHeap]
      exact wp_tryWalkSubtreeImpl hc hlevels hl ht (hwrite.serves _ _ _) fun r' h' F' _ _ hl' hz =>
        ⟨rfl, ⟨F', hl'⟩, hl'.hash_eq hz⟩
    obtain ⟨n, s', hr, rfl, hs'⟩ := returns_of_wp hp
    exact ⟨s', hr, hs'⟩
  · refine callsFor_of_wp (fun w => s.tree.tryFlushDirtyDetached sha w levels) hf fun k => ?_
    simp only [MutableTree.tryFlushDirtyDetached, wp_bind]
    refine wp_tryWalkSubtreeDetachedImpl hc hlevels hl ht (htoWrite ▸ hwrite.serves_giveUpAt)
      (fun r' h' F' _ hw _ _ => ?_) hs
    rw [htoWrite] at hw
    exact hw.giveUpAt_none
  · have hp : wp (s.tree.tryFlushDirtyDetached (ε := ε) sha (fun h r => .ok (write h r)) levels)
        (fun x h' => x.2 = (dirty s.heap t s.tree.root).length ∧ StandsFor sha stored h' x.1 t)
        ⊥ ⊥ s.heap := by
      simp only [MutableTree.tryFlushDirtyDetached, wp_bind]
      exact wp_tryWalkSubtreeDetachedImpl hc hlevels hl ht (hwrite.serves _ _ _) (fun r' h' F' _ _ hl' hz =>
        ⟨rfl, ⟨F', hl'⟩, hl'.hash_eq hz⟩) hs
    obtain ⟨⟨tree, n⟩, h', hr, rfl, hh⟩ := returns_of_wp hp
    exact ⟨tree, h', hr, hh⟩
  · intro w answer h' hr q hq
    have ho := post_of_run (leavesOld_tryFlushDirtyDetached s.tree w levels s.heap (Changes.refl _ _ _)) hr
    have hch : Changes 0 ∅ s.heap h' := by
      cases answer with
      | error e => exact ho
      | ok a => exact ho.1
    exact hch.same q hq fun _ => notMem_empty q

end

/-! ### Small trees -/

/-- The small map with all nodes owned by its tree. -/
def SmallMap.ownedHeap (m : SmallMap) : Heap where
  next := 2
  node := fun r => if r = 0 then ⟨0, 1, .inner 0 m.slots⟩ else ⟨m.leafHash, 1, .leaf .accountState m.item⟩
  calls := 0

namespace SmallMap

variable (m : SmallMap)

def owned : Memory := ⟨m.ownedHeap, ⟨0, 1⟩⟩

theorem held_owned : Held m.sha512Half (fun _ => none) m.ownedHeap 1 m.tree 0 {0, 1} := by
  have hold : ∀ q ∈ ({0, 1} : Set Ref), q < m.ownedHeap.next := by
    rintro q (rfl | rfl)
    · exact Nat.zero_lt_two
    · exact Nat.one_lt_two
  refine ⟨⟨Nat.le_refl 1, Nat.zero_lt_two, fun _ => .inl rfl, hold⟩, 0, 1, 0, m.slots, rfl, fun h0 => absurd h0 Nat.one_ne_zero,
    fun b => if b = m.branch then {1} else ∅, fun b => ?_, fun b b' hn => ?_, fun b => ?_⟩
  · dsimp only
    split
    · exact ⟨singleton_subset_iff.mpr (.inr rfl), fun h => by cases h⟩
    · exact ⟨empty_subset _, notMem_empty _⟩
  · dsimp only
    split
    · next hb =>
      rw [if_neg fun hb' => hn (hb.trans hb'.symm)]
      exact disjoint_empty _
    · exact empty_disjoint _
  · rw [single_apply]
    by_cases hb : b = m.branch
    · simp only [if_pos hb, slots]
      refine .inr (.inl ⟨m.leafHash, 1, rfl, ⟨Nat.le_refl 1, Nat.one_lt_two, fun _ => rfl, ?_⟩, 1, ?_,
        fun _ hn => absurd rfl hn⟩)
      · rintro q rfl
        exact Nat.one_lt_two
      · exact congrArg (fun x => (⟨x, 1, .leaf .accountState m.item⟩ : SHAMapTreeNode)) m.sha512Half_leaf.symm
    · simp [if_neg hb, slots]

theorem rootCanon : RootCanon m.tree := by
  intro ch he
  cases he
  exact Tree.children_single (t := .leaf m.leaf) trivial fun leaf hf => by rw [← Tree.mem_leaf.mp hf]; rfl

theorem ownedHeap_isEmpty : (m.ownedHeap.node 0).isEmpty = false := by
  have hne : ¬ (m.ownedHeap.node 0).isEmpty := by
    rw [m.held_owned.isEmpty_iff]
    rintro ⟨ch, he, hn⟩
    cases he
    exact m.not_all_empty hn
  exact Bool.not_eq_true _ ▸ hne

end SmallMap

theorem keepsTree_self {sha : Sha} {stored : MapStore} (c : ℕ) (h0 : Heap) :
    KeepsTree sha stored c h0 fun _ r => r := fun _ _ _ _ _ _ _ => .inl rfl

/-- Flushing the small map. -/
theorem flush_exact_sample :
    let s := sampleMap.owned
    let stored : SHAMapHash → Option MapTree := fun _ => none
    ∃ l, ListsChanged s.heap s.tree.root l ∧
      CallsFor sampleMap.sha512Half (fun w => tryFlushDirty sampleMap.sha512Half w 64 s) (fun _ r => r) s.heap.calls
        (l.map Prod.snd) ∧
      (∃ s', flushDirty (ε := Empty) sampleMap.sha512Half (fun _ r => r) 64 s = .ok (.ok l.length, s') ∧
        StandsFor sampleMap.sha512Half stored s'.heap s'.tree sampleMap.tree) ∧
      ((∀ leaf ∈ sampleMap.tree, leaf.item.Sized) →
        CallsFor sampleMap.sha512Half (fun w => s.tree.tryFlushDirtyDetached sampleMap.sha512Half w 64 s.heap)
            (fun _ r => r) s.heap.calls (l.map Prod.snd) ∧
          ∃ tree h', s.tree.tryFlushDirtyDetached (ε := Empty) sampleMap.sha512Half (fun _ r => .ok r) 64 s.heap =
              .ok (.ok (tree, l.length), h') ∧ StandsFor sampleMap.sha512Half stored h' tree sampleMap.tree) ∧
      ∀ (w : Writer Empty) answer h', s.tree.tryFlushDirtyDetached sampleMap.sha512Half w 64 s.heap = .ok (answer, h') →
        ∀ q < s.heap.next, h'.node q = s.heap.node q :=
  flush_exact (s := sampleMap.owned) Nat.one_ne_zero (by decide) sampleMap.held_owned sampleMap.rootCanon
    sampleMap.ownedHeap_isEmpty (keepsTree_self _ _)

/-- A small map whose item is too short to be copied. -/
def shortMap : SmallMap where
  item := ⟨.ofFirst 1, [7], by decide⟩
  leafHash := ⟨[0xC2, 0x1E, 0x6B, 0x48, 0x82, 0x57, 0x7B, 0xC5, 0x9D, 0x29, 0x1D, 0x25, 0xBB, 0x8D, 0xF9, 0x32,
    0xDE, 0x60, 0xC5, 0xC9, 0x91, 0x4A, 0x08, 0xCE, 0x7E, 0x46, 0x0D, 0xFA, 0x4C, 0x82, 0xC1, 0x9A], rfl⟩
  rootHash := ⟨[0x1D, 0x9E, 0x39, 0xB9, 0xBE, 0x0F, 0x6B, 0x55, 0x7D, 0xFD, 0xE5, 0xD5, 0x15, 0x46, 0x40, 0x3F,
    0x0F, 0x1E, 0x90, 0x4F, 0x5A, 0xE7, 0xD9, 0xFB, 0x95, 0xB6, 0x7E, 0xAA, 0x1F, 0x41, 0x8F, 0x04], rfl⟩
  leafHash_ne := by decide
  rootHash_ne := by decide
  hash_ne := by decide

/-- A new tree. -/
def emptyMemory : Memory := ⟨⟨1, fun _ => SHAMapTreeNode.newInner 1, 0⟩, ⟨0, 1⟩⟩

theorem held_emptyMemory (sha : Sha) : Held sha (fun _ => none) emptyMemory.heap 1 (.inner fun _ => .empty) 0 {0} := by
  refine ⟨⟨le_refl 1, zero_lt_one, fun _ => rfl, ?_⟩, 0, 1, 0, fun _ => none, rfl, fun h0 => absurd h0 one_ne_zero,
    fun _ => ∅, fun _ => ⟨empty_subset _, notMem_empty _⟩, fun _ _ _ => disjoint_empty _,
    fun _ => .inl ⟨rfl, rfl⟩⟩
  rintro q rfl
  exact zero_lt_one

/-- **A new tree's root is not written**, although it was changed. **A leaf that is too short to be copied** is written
by `flush_dirty` and makes `try_flush_dirty_detached` panic. -/
theorem flush_empty_root_and_short_item : (¬ ∀ (s : Memory) (t : MapTree) (F : Set Ref), s.tree.cowid ≠ 0 →
      Held sampleMap.sha512Half (fun _ => none) s.heap s.tree.cowid t s.tree.root F → RootCanon t →
      ∃ l, ListsChanged s.heap s.tree.root l ∧ CallsFor sampleMap.sha512Half
        (fun w => tryFlushDirty sampleMap.sha512Half w 64 s) (fun _ r => r) s.heap.calls (l.map Prod.snd)) ∧
    ¬ ∀ (s : Memory) (t : MapTree) (F : Set Ref), s.tree.cowid ≠ 0 →
      Held shortMap.sha512Half (fun _ => none) s.heap s.tree.cowid t s.tree.root F → RootCanon t →
      (s.heap.node s.tree.root).isEmpty = false → ∃ l, ListsChanged s.heap s.tree.root l ∧ CallsFor shortMap.sha512Half
        (fun w => s.tree.tryFlushDirtyDetached shortMap.sha512Half w 64 s.heap) (fun _ r => r) s.heap.calls
        (l.map Prod.snd) := by
  constructor
  · intro hcm
    obtain ⟨l, hl, hc⟩ := hcm emptyMemory _ {0} one_ne_zero (held_emptyMemory _) fun child he => by
      cases he
      exact Tree.children_empty 0
    have hm : (0 : Ref) ∈ l.map Prod.fst := (hl.mem 0).mpr ⟨.refl, one_ne_zero⟩
    cases l with
    | nil => cases hm
    | cons x l =>
      obtain ⟨y, s', hr, -⟩ := hc.call 0 x.2 rfl
      cases hr
  · intro hcm
    obtain ⟨l, -, hc⟩ := hcm shortMap.owned _ _ one_ne_zero shortMap.held_owned shortMap.rootCanon
      shortMap.ownedHeap_isEmpty
    obtain ⟨a, s', hr⟩ := hc.stop _ (le_refl _)
    cases hr

end Xrpld.SHAMap
