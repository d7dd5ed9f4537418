import Xrpld.Lib.Below
import Xrpld.SHAMap.Snapshot

/-!
# What a call on a tree may touch

A tree changes in place only nodes that carry its id, and puts nothing below its nodes but
nodes it has reached, has made, or that a writer gave it. So a call stays within the nodes below
the tree's root, new ones, and nodes that are given up for good: `Frozen`, those below which no
node is owned by anybody.

## The model

A call starts in the heap `h₀` with the nodes `R0` below the root. `Mine` says which nodes it may
reach, `Writable` which of them it may change, and `Confined` that it has kept to this. Nothing is
asked of the nodes themselves: they need not be a tree, and their hashes may be anything.

## What is proved

Every call is confined (`staysTree_run`), and what is seen through a tree depends on the nodes below
its root only (`sameView_of_same`).
-/

namespace Xrpld.SHAMap

open List Nat Option SHAMapTreeNode

/-! ### Nodes below nodes -/

variable {h h' : Heap} {r : Ref} {R : Set Ref} {α β ε : Type} {tree : MutableTree} {n n' : SHAMapTreeNode}
  {s s' : Memory}

/-- A child of a node. -/
def Heap.Edge (h : Heap) (r q : Ref) : Prop := ∃ b, (h.node r).getChild b = some q

/-- Nodes of the heap, with all that is below them. -/
structure Heap.Closed (h : Heap) (R : Set Ref) : Prop where
  old : ∀ r ∈ R, r < h.next
  edge : ∀ r ∈ R, ∀ q, h.Edge r q → q ∈ R

/-- Nobody owns a node at or below this one. -/
def Frozen (h : Heap) : Ref → Prop := AllBelow h.Edge fun r => (h.node r).cowid = 0 ∧ r < h.next

theorem Heap.edge_congr (hsm : h'.node r = h.node r) (q : Ref) : h'.Edge r q ↔ h.Edge r q := by
  rw [Heap.Edge, Heap.Edge, hsm]

theorem Heap.Closed.congr (hR : h.Closed R) (hn : h.next ≤ h'.next) (hsm : ∀ r ∈ R, h'.node r = h.node r) : h'.Closed R :=
  ⟨fun r hr => lt_of_lt_of_le (hR.old r hr) hn, fun r hr q hq => hR.edge r hr q ((Heap.edge_congr (hsm r hr) q).mp hq)⟩

/-- Frozen nodes stay frozen when no node loses its children or is given an owner. -/
theorem Frozen.mono (hf : Frozen h r) (hn : ∀ q, (h.node q).cowid = 0 → q < h.next →
      (h'.node q).cowid = 0 ∧ q < h'.next ∧ ∀ b, (h'.node q).getChild b = (h.node q).getChild b) : Frozen h' r := by
  refine AllBelow.of_cover {q | Frozen h q} (fun q hq => ?_) (fun q hq p hp => .inl ?_) hf
  · obtain ⟨h0, hl⟩ := AllBelow.self hq
    exact ⟨(hn q h0 hl).1, (hn q h0 hl).2.1⟩
  · obtain ⟨h0, hl⟩ := AllBelow.self hq
    obtain ⟨b, hb⟩ := hp
    exact AllBelow.step hq ⟨b, ((hn q h0 hl).2.2 b).symm.trans hb⟩

/-! ### Looking for a key -/

section

theorem alike_deref (hsm : h'.node r = h.node r) :
    Prog.Alike (deref r : HeapM ε SHAMapTreeNode) (fun n => n = h.node r) h h' :=
  ⟨.ok (.ok (h.node r)), rfl, by rw [← hsm]; rfl, fun n hn => by cases hn; rfl⟩

variable (hR : h.Closed R) (hsm : ∀ q ∈ R, h'.node q = h.node q) (hr : r ∈ R)

include hR hsm hr

theorem alike_descendThrow (b : Branch) :
    Prog.Alike (descendThrow r b false noFetch) (fun o => ∀ q, o = some q → q ∈ R) h h' := by
  have hd : Prog.Alike (descend r b false noFetch : HeapM TraversalError (Option Ref))
      (fun o => ∀ q, o = some q → q ∈ R) h h' := by
    refine (alike_deref (hsm r hr)).bind fun n hn => ?_
    subst hn
    split
    · simp only [Bool.not_false, Bool.or_true, Bool.true_or, if_true]
      exact .pure fun q hq => hR.edge r hr q ⟨b, hq⟩
    · exact .abort _
  refine hd.bind fun o ho => (alike_deref (hsm r hr)).bind fun n hn => ?_
  split
  · exact .fail _
  · exact .pure ho

omit hR in
theorem alike_prefetchNextChild (nid : SHAMapNodeId) (key : Uint256) :
    Prog.Alike (prefetchNextChild r nid key) ⊤ h h' := by
  refine (alike_deref (hsm r hr)).bind fun n hn => ?_
  split
  · exact (Prog.Alike.lift (Q := ⊤) fun _ _ => trivial).bind fun _ _ => .pure trivial
  · exact .pure trivial

/-- **A walk that loads nothing** depends on the nodes below its start only, passes these, and changes nothing. -/
theorem alike_walkLoop (key : Uint256) (n : ℕ) (nid : SHAMapNodeId) :
    Prog.Alike (walkLoop key false noFetch n r nid)
      (fun x => (∀ q, x.1 = some q → q ∈ R) ∧ ∀ e ∈ x.2, e.node ∈ R) h h' := by
  induction n generalizing r nid with
  | zero => exact .abort _
  | succ n ih =>
    have hf : ∀ e ∈ [(⟨r, nid⟩ : NodePathEntry)], e.node ∈ R := by
      intro e he
      rw [mem_singleton.mp he]
      exact hr
    refine (alike_deref (hsm r hr)).bind fun nd hd => ?_
    split
    · refine (Prog.Alike.lift (Q := ⊤) fun _ _ => trivial).bind fun b _ => ?_
      split
      · exact .pure ⟨fun q hq => absurd hq.symm (some_ne_none q), hf⟩
      · refine (alike_descendThrow hR hsm hr b).bind fun o ho => ?_
        cases o with
        | none => exact .abort _
        | some next =>
          have hn := ho next rfl
          dsimp only
          split
          · exact .abort _
          · next ci _ =>
            refine (alike_prefetchNextChild hsm hn ci key).bind fun _ _ => ?_
            refine (ih hn ci).bind fun x hx => .pure ⟨hx.1, fun e he => ?_⟩
            rcases mem_cons.mp he with rfl | he
            · exact hr
            · exact hx.2 e he
    · exact .pure ⟨fun q hq => some.inj hq ▸ hr, hf⟩

theorem alike_findItem (ht : tree.root = r) (key : Uint256) : Prog.Alike (tree.findItem key) ⊤ h h' := by
  subst ht
  have hw : Prog.Alike (walkTowardsKey tree.root key false noFetch) (fun o => ∀ q, o = some q → q ∈ R) h h' :=
    (alike_walkLoop hR hsm hr key _ _).bind fun x hx => .pure hx.1
  have hf : Prog.Alike (tree.findKey key) (fun o => ∀ q, o = some q → q ∈ R) h h' := by
    refine hw.bind fun o ho => ?_
    cases o with
    | none => exact .pure ho
    | some leaf =>
      refine (alike_deref (hsm leaf (ho leaf rfl))).bind fun n hn => ?_
      split
      · exact .pure ho
      · exact .pure fun q hq => by cases hq
  refine hf.bind fun o ho => ?_
  cases o with
  | none => exact .pure trivial
  | some leaf => exact (alike_deref (hsm leaf (ho leaf rfl))).bind fun n hn => .pure trivial

theorem hashBelow_congr (sha : Sha) (n : ℕ) : hashBelow sha h' n r = hashBelow sha h n r := by
  induction n generalizing r with
  | zero => rw [hashBelow, hashBelow, hsm r hr]
  | succ n ih =>
    rw [hashBelow, hashBelow, hsm r hr]
    split
    · rfl
    · cases ho : (h.node r).body with
      | leaf type it => rfl
      | inner g sl =>
        refine computeInnerHash_congr fun b => ?_
        rw [rehash_congr b fun hash q hb => ih (hR.edge r hr q ⟨b, ?_⟩)]
        rw [SHAMapTreeNode.getChild, SHAMapTreeNode.slots, ho]
        simp only [hb, bind_some]

/-- **What is seen through a tree** depends on the nodes below its root only. -/
theorem sameView_of_same (sha : Sha) (ht : tree.root = r) : SameView sha tree tree h h' := by
  refine ⟨fun key => (alike_findItem hR hsm hr ht key).map_fst_eq, ?_, fun n => ?_⟩
  · rw [ht, hsm r hr]
  · rw [ht]
    exact hashBelow_congr hR hsm hr sha n

end

/-! ### What a call may reach and change -/

section

variable (h₀ : Heap) (c : ℕ) (R0 : Set Ref)

/-- A node the call may reach: it was below the root, is new, or is frozen. -/
def Mine (h : Heap) (q : Ref) : Prop := q ∈ R0 ∨ (h₀.next ≤ q ∧ q < h.next) ∨ Frozen h q

/-- A node the call may change: it is new, or was below the root and is owned. -/
def Writable (q : Ref) : Prop := h₀.next ≤ q ∨ (q ∈ R0 ∧ (h₀.node q).cowid = c)

/-- The call has kept to its nodes. -/
structure Confined (h : Heap) : Prop where
  changes : Changes c R0 h₀ h
  edge : ∀ r, Mine h₀ R0 h r → ∀ q, h.Edge r q → Mine h₀ R0 h q

/-- A part of the call. -/
structure Moves (h h' : Heap) : Prop where
  confined : Confined h₀ c R0 h'
  next_le : h.next ≤ h'.next
  frozen : ∀ q, Frozen h q → Frozen h' q

end

variable {h₀ : Heap} {c : ℕ} {R0 : Set Ref} {q : Ref}

theorem Moves.refl (hh : Confined h₀ c R0 h) : Moves h₀ c R0 h h := ⟨hh, le_refl _, fun _ h => h⟩

theorem Moves.trans {h'' : Heap} (h1 : Moves h₀ c R0 h h') (h2 : Moves h₀ c R0 h' h'') : Moves h₀ c R0 h h'' :=
  ⟨h2.confined, le_trans h1.next_le h2.next_le, fun q hq => h2.frozen q (h1.frozen q hq)⟩

theorem Mine.mono (hq : Mine h₀ R0 h q) (hm : Moves h₀ c R0 h h') : Mine h₀ R0 h' q := by
  rcases hq with hq | ⟨hl, ht⟩ | hq
  · exact .inl hq
  · exact .inr (.inl ⟨hl, lt_of_lt_of_le ht hm.next_le⟩)
  · exact .inr (.inr (hm.frozen q hq))

theorem Mine.lt (hR : h₀.Closed R0) (hh : Confined h₀ c R0 h) (hq : Mine h₀ R0 h q) : q < h.next := by
  rcases hq with hq | ⟨-, hl⟩ | hq
  · exact lt_of_lt_of_le (hR.old q hq) hh.changes.next_le
  · exact hl
  · exact (AllBelow.self hq).2

/-- The call starts within its nodes. -/
theorem Confined.start (hR : h₀.Closed R0) : Confined h₀ c R0 h₀ := by
  refine ⟨Changes.refl _ _ _, fun r hr q hq => ?_⟩
  rcases hr with hr | ⟨hl, ht⟩ | hr
  · exact .inl (hR.edge r hr q hq)
  · exact absurd ht (Nat.not_lt_of_le hl)
  · exact .inr (.inr (AllBelow.step hr hq))

/-- A node that the call reaches and that carries the tree's id may be changed. -/
theorem Mine.writable (hc : c ≠ 0) (hh : Confined h₀ c R0 h) (hq : Mine h₀ R0 h q) (ho : (h.node q).cowid = c) :
    Writable h₀ c R0 q := by
  rcases hq with hq | ⟨hl, -⟩ | hq
  · rcases lt_or_ge q h₀.next with ht | hg
    · refine .inr ⟨hq, by_contra fun hn => hn ?_⟩
      rw [← hh.changes.same q ht fun h => absurd h hn]
      exact ho
    · exact .inl hg
  · exact .inl hl
  · rw [(AllBelow.self hq).1] at ho
    exact absurd ho.symm hc

/-- **Changing a node**: its new children are the call's, and a node that nobody owns keeps its children. -/
theorem Confined.set (hh : Confined h₀ c R0 h) (hw : Writable h₀ c R0 r)
    (hn : ∀ b q, n.getChild b = some q → Mine h₀ R0 h q)
    (hz : (h.node r).cowid = 0 → n.cowid = 0 ∧ ∀ b, n.getChild b = (h.node r).getChild b) :
    Moves h₀ c R0 h (h.set r n) := by
  have hf : ∀ q, Frozen h q → Frozen (h.set r n) q := by
    intro q hq
    refine hq.mono fun p hp hl => ?_
    by_cases hpr : p = r
    · subst hpr
      rw [node_set_self]
      exact ⟨(hz hp).1, hl, (hz hp).2⟩
    · rw [node_set_of_ne hpr]
      exact ⟨hp, hl, fun _ => rfl⟩
  have hm : ∀ q, Mine h₀ R0 h q → Mine h₀ R0 (h.set r n) q := by
    rintro q (hq | hq | hq)
    · exact .inl hq
    · exact .inr (.inl hq)
    · exact .inr (.inr (hf q hq))
  refine ⟨⟨⟨hh.changes.next_le, fun q hq ho => ?_⟩, fun p hp q hq => ?_⟩, le_refl _, hf⟩
  · have hqr : q ≠ r := by
      rintro rfl
      rcases hw with hg | ⟨he, hc⟩
      · exact absurd hq (Nat.not_lt_of_le hg)
      · exact ho hc he
    rw [node_set_of_ne hqr]
    exact hh.changes.same q hq ho
  · by_cases hpr : p = r
    · subst hpr
      obtain ⟨b, hb⟩ := hq
      rw [node_set_self] at hb
      exact hm q (hn b q hb)
    · rcases hp with hp | hp | hp
      · exact hm q (hh.edge p (.inl hp) q ((Heap.edge_congr (node_set_of_ne hpr n) q).mp hq))
      · exact hm q (hh.edge p (.inr (.inl hp)) q ((Heap.edge_congr (node_set_of_ne hpr n) q).mp hq))
      · exact .inr (.inr (AllBelow.step hp hq))

/-- **Making a node** whose children are the call's. -/
theorem Confined.alloc (hR : h₀.Closed R0) (hh : Confined h₀ c R0 h)
    (hn : ∀ b q, n.getChild b = some q → Mine h₀ R0 h q) :
    Moves h₀ c R0 h (h.alloc n) ∧ Mine h₀ R0 (h.alloc n) h.next ∧ Writable h₀ c R0 h.next := by
  have hsm : ∀ q, q < h.next → (h.alloc n).node q = h.node q := fun q hq => node_alloc_of_lt hq n
  have hf : ∀ q, Frozen h q → Frozen (h.alloc n) q := by
    intro q hq
    refine hq.mono fun p hp hl => ?_
    rw [hsm p hl]
    exact ⟨hp, lt_succ_of_lt hl, fun _ => rfl⟩
  have hm : ∀ q, Mine h₀ R0 h q → Mine h₀ R0 (h.alloc n) q := by
    rintro q (hq | hq | hq)
    · exact .inl hq
    · exact .inr (.inl ⟨hq.1, lt_succ_of_lt hq.2⟩)
    · exact .inr (.inr (hf q hq))
  have hx := hh.changes.next_le
  refine ⟨⟨⟨⟨le_succ_of_le hx, fun q hq ho => ?_⟩, fun p hp q hq => ?_⟩, le_succ _, hf⟩,
    .inr (.inl ⟨hx, lt_succ_self _⟩), .inl hx⟩
  · rw [hsm q (lt_of_lt_of_le hq hx)]
    exact hh.changes.same q hq ho
  · by_cases hpr : p = h.next
    · subst hpr
      obtain ⟨b, hb⟩ := hq
      rw [node_alloc_next] at hb
      exact hm q (hn b q hb)
    · have hold : p < h.next → Mine h₀ R0 h p → Mine h₀ R0 (h.alloc n) q := fun hl hp =>
        hm q (hh.edge p hp q ((Heap.edge_congr (hsm p hl) q).mp hq))
      rcases hp with hp | ⟨he, hl⟩ | hp
      · exact hold (lt_of_lt_of_le (hR.old p hp) hx) (.inl hp)
      · have hl : p < h.next := lt_of_le_of_ne (le_of_lt_succ hl) hpr
        exact hold hl (.inr (.inl ⟨he, hl⟩))
      · exact .inr (.inr (AllBelow.step hp hq))

/-- Only counting a call. -/
theorem Confined.calls (hh : Confined h₀ c R0 h) (k : ℕ) : Moves h₀ c R0 h { h with calls := k } :=
  ⟨⟨⟨hh.changes.next_le, hh.changes.same⟩, hh.edge⟩, le_refl _, fun _ h => h⟩

/-! ### Programs on the nodes -/

variable (h₀ c R0) in
/-- A program on the nodes that keeps to the call's nodes, and what it returns. -/
def Stays {α : Type} (p : HeapM ε α) (Q : α → Heap → Prop) (h : Heap) : Prop := Prog.Along (Moves h₀ c R0) p Q h

section

variable {Q : α → Heap → Prop}

theorem Stays.bind {p : HeapM ε α} {f : α → HeapM ε β} {Q' : β → Heap → Prop} (hp : Stays h₀ c R0 p Q h)
    (hf : ∀ a h', Moves h₀ c R0 h h' → Q a h' → Stays h₀ c R0 (f a) Q' h') : Stays h₀ c R0 (p >>= f) Q' h :=
  Prog.Along.bind (fun _ _ _ => Moves.trans) hp hf

theorem Stays.pure {a : α} (hh : Confined h₀ c R0 h) (hQ : Q a h) : Stays h₀ c R0 (Pure.pure a : HeapM ε α) Q h :=
  Prog.Along.pure (.refl hh) hQ

theorem Stays.derefBind {f : SHAMapTreeNode → HeapM ε α} (hf : Stays h₀ c R0 (f (h.node r)) Q h) :
    Stays h₀ c R0 (deref r >>= f) Q h := hf

theorem Stays.readBind {f : Heap → HeapM ε α} (hf : Stays h₀ c R0 (f h) Q h) : Stays h₀ c R0 (Prog.read >>= f) Q h := hf

theorem Stays.liftBind {x : Run β} {f : β → HeapM ε α} (hf : ∀ a, x = .ok a → Stays h₀ c R0 (f a) Q h) :
    Stays h₀ c R0 (Prog.lift x >>= f) Q h := by
  cases x with
  | error e => exact trivial
  | ok a => exact hf a rfl

/-- A node the call has, and may change. -/
def Own (h₀ : Heap) (c : ℕ) (R0 : Set Ref) (q : Ref) (h : Heap) : Prop := Mine h₀ R0 h q ∧ Writable h₀ c R0 q

theorem Own.mono (hq : Own h₀ c R0 q h) (hm : Moves h₀ c R0 h h') : Own h₀ c R0 q h' := ⟨hq.1.mono hm, hq.2⟩

theorem stays_allocate (hR : h₀.Closed R0) (hh : Confined h₀ c R0 h)
    (hn : ∀ b q, n.getChild b = some q → Mine h₀ R0 h q) :
    Stays h₀ c R0 (allocate n : HeapM ε Ref) (Own h₀ c R0) h := hh.alloc hR hn

theorem stays_store (hh : Confined h₀ c R0 h) (hw : Writable h₀ c R0 r)
    (hn : ∀ b q, n.getChild b = some q → Mine h₀ R0 h q)
    (hz : (h.node r).cowid = 0 → n.cowid = 0 ∧ ∀ b, n.getChild b = (h.node r).getChild b) :
    Stays h₀ c R0 (store r n : HeapM ε Unit) ⊤ h := ⟨hh.set hw hn hz, trivial⟩

/-- Storing a node with the children it had. -/
theorem stays_store_same (hh : Confined h₀ c R0 h) (hr : Own h₀ c R0 r h)
    (hn : ∀ b, n.getChild b = (h.node r).getChild b) (h0 : (h.node r).cowid = 0 → n.cowid = 0) :
    Stays h₀ c R0 (store r n : HeapM ε Unit) ⊤ h :=
  stays_store hh hr.2 (fun b q hq => hh.edge r hr.1 q ⟨b, (hn b).symm.trans hq⟩) fun hz => ⟨h0 hz, hn⟩

end

variable {b : Branch} {o : Option Ref}

theorem getChild_cloneWithCowid {cw : ℕ} (hn : n.cloneWithCowid cw = .ok n') (b : Branch) :
    n'.getChild b = n.getChild b := by
  rw [cloneWithCowid] at hn
  cases hb : n.body with
  | inner g sl =>
    rw [hb] at hn
    cases hn
    rw [SHAMapTreeNode.getChild, SHAMapTreeNode.getChild, SHAMapTreeNode.slots, SHAMapTreeNode.slots, hb]
  | leaf type it =>
    rw [hb] at hn
    simp only [newLeafWithHash] at hn
    split at hn
    · cases hn
      rw [getChild, getChild, slots, slots, hb]
    · cases hn

theorem getChild_updateHash (sha : Sha) (n : SHAMapTreeNode) (b : Branch) :
    (n.updateHash sha).getChild b = n.getChild b := by
  rw [updateHash]
  split <;> rfl

theorem getChild_setChild (he : n.setChild b o = .ok n') (b' : Branch) :
    n'.getChild b' = if b' = b then o else n.getChild b' := by
  simp only [SHAMapTreeNode.setChild] at he
  split at he
  · cases he
  · cases ho : n.body with
    | leaf type it =>
      rw [ho] at he
      cases he
    | inner g sl =>
      rw [ho] at he
      cases he
      simp only [SHAMapTreeNode.getChild, SHAMapTreeNode.slots, ho]
      split
      · next hb =>
        rw [hb, Function.update_self]
        cases o <;> rfl
      · next hb => rw [Function.update_of_ne hb]

theorem owned_of_setChild (he : n.setChild b o = .ok n') : n.cowid ≠ 0 := by
  intro h0
  rw [setChild, if_pos h0] at he
  cases he

theorem stays_setChildAt (hh : Confined h₀ c R0 h) (hr : Own h₀ c R0 r h) (ho : ∀ q, o = some q → Mine h₀ R0 h q) :
    Stays h₀ c R0 (setChildAt r b o : HeapM ε Unit) ⊤ h := by
  refine .derefBind (.liftBind fun n hn => ?_)
  refine stays_store hh hr.2 (fun b' q hq => ?_) fun hz => absurd hz (owned_of_setChild hn)
  rw [getChild_setChild hn] at hq
  split at hq
  · exact ho q hq
  · exact hh.edge r hr.1 q ⟨b', hq⟩

theorem stays_shareChildAt (hh : Confined h₀ c R0 h) (hr : Own h₀ c R0 r h) (hq : Mine h₀ R0 h q) :
    Stays h₀ c R0 (shareChildAt r b q : HeapM ε Unit) ⊤ h := by
  refine .derefBind ?_
  refine .liftBind fun n hn => ?_
  simp only [SHAMapTreeNode.shareChild] at hn
  split at hn
  · cases hn
  · next ho =>
    cases hbo : (h.node r).body with
    | leaf type it =>
      rw [hbo] at hn
      cases hn
    | inner g sl =>
      rw [hbo] at hn
      cases hl : sl b with
      | none =>
        simp only [hl] at hn
        cases hn
      | some slot =>
        simp only [hl] at hn
        cases hn
        refine stays_store hh hr.2 (fun b' p hp => ?_) fun hz => absurd hz ho
        simp only [SHAMapTreeNode.getChild, SHAMapTreeNode.slots] at hp
        by_cases hb : b' = b
        · subst hb
          rw [Function.update_self] at hp
          cases hp
          exact hq
        · rw [Function.update_of_ne hb] at hp
          refine hh.edge r hr.1 p ⟨b', ?_⟩
          rw [SHAMapTreeNode.getChild, SHAMapTreeNode.slots, hbo]
          exact hp

/-- Hashing an inner node from its children keeps them, and its owner. -/
theorem wp_updateHashDeep_same {Q : Unit → Heap → Prop} {E : ε → Heap → Prop} (sha : Sha)
    (hQ : ∀ n : SHAMapTreeNode, n.cowid = (h.node r).cowid → (∀ b, n.getChild b = (h.node r).getChild b) →
      Q () (h.set r n)) : wp (updateHashDeep sha r) Q E ⊤ h := by
  simp only [updateHashDeep, wp_bind, wp_read]
  cases hb : (h.node r).body with
  | leaf type it => exact trivial
  | inner g sl =>
    refine hQ _ rfl fun b => ?_
    simp only [SHAMapTreeNode.getChild, SHAMapTreeNode.slots, hb, refreshSlots]
    rcases sl b with _ | ⟨hash, _ | q⟩ <;> rfl

theorem stays_updateHashDeep (sha : Sha) (hh : Confined h₀ c R0 h) (hr : Own h₀ c R0 r h) :
    Stays h₀ c R0 (updateHashDeep sha r : HeapM ε Unit) ⊤ h :=
  wp_updateHashDeep_same sha fun _ ho hg => stays_store_same (ε := ε) hh hr hg fun hz => ho.trans hz

/-- A node that is copied unless the tree owns it. -/
theorem stays_preFlushNode (hR : h₀.Closed R0) (hc : c ≠ 0) (hh : Confined h₀ c R0 h) (hr : Mine h₀ R0 h r) :
    Stays h₀ c R0 (preFlushNode r c : HeapM ε Ref) (Own h₀ c R0) h := by
  refine .derefBind ?_
  split
  · next ho => exact .pure hh ⟨hr, hr.writable hc hh ho⟩
  · refine .liftBind fun n hn => ?_
    exact stays_allocate hR hh fun b q hq => hh.edge r hr q ⟨b, (getChild_cloneWithCowid hn b).symm.trans hq⟩

theorem stays_flushLeaf (sha : Sha) (hh : Confined h₀ c R0 h) (hr : Own h₀ c R0 r h) :
    Stays h₀ c R0 (flushLeaf sha r : HeapM ε Unit) ⊤ h := by
  refine .derefBind ?_
  exact stays_store_same hh hr (getChild_updateHash sha _) fun _ => rfl

/-! ### Flushing -/

/-- **A writer that shares**: it keeps the node, or gives one that nobody owns any part of. -/
def SharesNodes (write : Writer ε) : Prop := ∀ h node kept, write h node = .ok kept → kept = node ∨ Frozen h kept

section

variable {wr : Option (Writer ε)} (hwi : ∀ write, wr = some write → SharesNodes write) {walk : Ref → HeapM ε (Ref × ℕ)}

include hwi

theorem stays_tryMaybeWriteNode (hh : Confined h₀ c R0 h) (hr : Mine h₀ R0 h r) :
    Stays h₀ c R0 (tryMaybeWriteNode wr r) (fun q h' => Mine h₀ R0 h' q) h := by
  cases wr with
  | none => exact .pure hh hr
  | some write =>
    have hm := hh.calls (h.calls + 1)
    refine .readBind ?_
    refine Stays.bind (Q := fun _ h' => h' = ({ h with calls := h.calls + 1 } : Heap)) ⟨hm, rfl⟩ fun _ h1 _ he => ?_
    subst he
    cases hw : write h r with
    | error e => exact Prog.Along.fail (.refl hm.confined) e
    | ok kept =>
      refine .pure hm.confined ?_
      rcases hwi write rfl h r kept hw with rfl | hf
      · exact hr.mono hm
      · exact .inr (.inr (hm.frozen kept hf))

theorem stays_tryFlushChild (sha : Sha) (hw : ∀ h q, Confined h₀ c R0 h → Own h₀ c R0 q h →
      Stays h₀ c R0 (walk q) (fun x h' => Mine h₀ R0 h' x.1) h) (hh : Confined h₀ c R0 h) (hr : Own h₀ c R0 r h) :
    Stays h₀ c R0 (tryFlushChild sha wr walk r) (fun x h' => Mine h₀ R0 h' x.1) h := by
  refine .derefBind ?_
  split
  · exact hw h r hh hr
  · refine (stays_flushLeaf sha hh hr).bind fun _ h1 hm _ => ?_
    refine (stays_tryMaybeWriteNode hwi hm.confined (hr.1.mono hm)).bind fun q h2 hm2 hq => ?_
    exact .pure hm2.confined hq

theorem stays_tryWalkBranches (sha : Sha) (hR : h₀.Closed R0) (hc : c ≠ 0)
    (hw : ∀ h q, Confined h₀ c R0 h → Own h₀ c R0 q h → Stays h₀ c R0 (walk q) (fun x h' => Mine h₀ R0 h' x.1) h)
    (bs : List Branch) (hh : Confined h₀ c R0 h) (hr : Own h₀ c R0 r h) :
    Stays h₀ c R0 (tryWalkBranches sha wr walk c r bs) ⊤ h := by
  induction bs generalizing h with
  | nil => exact .pure hh trivial
  | cons b bs ih =>
    refine .derefBind ?_
    cases hch : (h.node r).getChild b with
    | none => exact ih hh hr
    | some q =>
      have hq : Mine h₀ R0 h q := hh.edge r hr.1 q ⟨b, hch⟩
      refine .derefBind ?_
      split
      · exact ih hh hr
      · refine (stays_preFlushNode hR hc hh hq).bind fun q1 h1 hm1 hq1 => ?_
        refine (stays_tryFlushChild hwi sha hw hm1.confined hq1).bind fun x h2 hm hx => ?_
        have hr2 := (hr.mono hm1).mono hm
        refine (stays_shareChildAt hm.confined hr2 hx).bind fun _ h3 hm3 _ => ?_
        refine (ih hm3.confined (hr2.mono hm3)).bind fun _ h4 hm4 _ => ?_
        exact .pure hm4.confined trivial

theorem stays_tryWalkNode (sha : Sha) (hR : h₀.Closed R0) (hc : c ≠ 0) (lv : ℕ)
    (hh : Confined h₀ c R0 h) (hr : Own h₀ c R0 r h) :
    Stays h₀ c R0 (tryWalkNode sha wr c lv r) (fun x h' => Mine h₀ R0 h' x.1) h := by
  induction lv generalizing h r with
  | zero => exact trivial
  | succ lv ih =>
    refine (stays_tryWalkBranches hwi sha hR hc (fun _ _ => ih) _ hh hr).bind fun _ h1 hm1 _ => ?_
    have hr1 := hr.mono hm1
    refine (stays_updateHashDeep sha hm1.confined hr1).bind fun _ h2 hm _ => ?_
    have hr2 := hr1.mono hm
    refine .derefBind ?_
    refine (stays_store_same (n := (h2.node r).unshare) hm.confined hr2 (fun _ => rfl) fun _ => rfl).bind
      fun _ h3 hm3 _ => ?_
    refine (stays_tryMaybeWriteNode hwi hm3.confined (hr2.mono hm3).1).bind fun q h4 hm4 hq => ?_
    exact .pure hm4.confined hq

/-- **A flush keeps to the tree's nodes.** -/
theorem stays_tryWalkSubtreeImpl (sha : Sha) (hR : h₀.Closed R0) (hc : c ≠ 0) (lv : ℕ)
    (hh : Confined h₀ c R0 h) (hr : Mine h₀ R0 h r) :
    Stays h₀ c R0 (tryWalkSubtreeImpl sha wr lv r c) (fun x h' => Mine h₀ R0 h' x.1) h := by
  refine .derefBind ?_
  split
  · exact .pure hh hr
  · split
    · refine (stays_preFlushNode hR hc hh hr).bind fun q h1 hm hq => ?_
      refine (stays_flushLeaf sha hm.confined hq).bind fun _ h2 hm2 _ => ?_
      refine (stays_tryMaybeWriteNode hwi hm2.confined (hq.mono hm2).1).bind fun q h3 hm3 hq => ?_
      exact .pure hm3.confined hq
    · split
      · refine (stays_allocate hR hh fun b q hq => ?_).bind fun q h1 hm hq => .pure hm.confined hq.1
        cases hq
      · exact (stays_preFlushNode hR hc hh hr).bind fun q h1 hm hq =>
          stays_tryWalkNode hwi sha hR hc lv hm.confined hq

end

/-! ### Programs on the tree -/

section

variable (h₀ c R0)

/-- The state of a call: it has kept to its nodes, and so has the root. -/
structure Holds (s : Memory) : Prop where
  confined : Confined h₀ c R0 s.heap
  cowid : s.tree.cowid = c
  root : Mine h₀ R0 s.heap s.tree.root

/-- A part of the call, on the tree. -/
structure MovesTree (s s' : Memory) : Prop where
  moves : Moves h₀ c R0 s.heap s'.heap
  holds : Holds h₀ c R0 s'

/-- A program on the tree that keeps to the call's nodes, and what it returns. -/
def StaysTree {α : Type} (p : Prog Fault Memory ε α) (Q : α → Memory → Prop) (s : Memory) : Prop :=
  Prog.Along (MovesTree h₀ c R0) p Q s

end

section

variable {Q : α → Memory → Prop}

variable (hs : Holds h₀ c R0 s)

include hs

theorem MovesTree.refl : MovesTree h₀ c R0 s s := ⟨.refl hs.confined, hs⟩

omit hs in
theorem StaysTree.bind {p : Prog Fault Memory ε α} {f : α → Prog Fault Memory ε β} {Q' : β → Memory → Prop}
    (hp : StaysTree h₀ c R0 p Q s) (hf : ∀ a s', MovesTree h₀ c R0 s s' → Q a s' → StaysTree h₀ c R0 (f a) Q' s') :
    StaysTree h₀ c R0 (p >>= f) Q' s :=
  Prog.Along.bind (fun _ _ _ h1 h2 => ⟨h1.moves.trans h2.moves, h2.holds⟩) hp hf

theorem StaysTree.pure {a : α} (hQ : Q a s) :
    StaysTree h₀ c R0 (Pure.pure a : Prog Fault Memory ε α) Q s := Prog.Along.pure (.refl hs) hQ

theorem StaysTree.fail (e : ε) : StaysTree h₀ c R0 (Prog.fail e : Prog Fault Memory ε α) Q s :=
  Prog.Along.fail (.refl hs) e

omit hs in
theorem StaysTree.readBind {f : Memory → Prog Fault Memory ε α} (hf : StaysTree h₀ c R0 (f s) Q s) :
    StaysTree h₀ c R0 (Prog.read >>= f) Q s := hf

omit hs in
theorem StaysTree.derefBind {f : SHAMapTreeNode → Prog Fault Memory ε α} (hf : StaysTree h₀ c R0 (f (s.heap.node r)) Q s) :
    StaysTree h₀ c R0 (onHeap (deref r) >>= f) Q s := hf

omit hs in
theorem StaysTree.liftBind {x : Run β} {f : β → Prog Fault Memory ε α}
    (hf : ∀ a, x = .ok a → StaysTree h₀ c R0 (f a) Q s) : StaysTree h₀ c R0 (Prog.lift x >>= f) Q s := by
  cases x with
  | error e => exact trivial
  | ok a => exact hf a rfl

/-- A program on the nodes is one on the tree. -/
theorem Stays.onHeap {p : HeapM ε α} {Q : α → Heap → Prop} (hp : Stays h₀ c R0 p Q s.heap) :
    StaysTree h₀ c R0 (SHAMap.onHeap p) (fun a s' => Q a s'.heap ∧ s'.tree = s.tree) s := by
  rw [StaysTree, Prog.Along, wp_onHeap]
  refine wp_mono hp (fun a h hm => ?_) (fun e h hm => ?_) fun _ h => h
  · exact ⟨⟨hm.1, hm.1.confined, hs.cowid, hs.root.mono hm.1⟩, hm.2, rfl⟩
  · exact ⟨hm, hm.confined, hs.cowid, hs.root.mono hm⟩

theorem staysTree_setRoot (hr : Mine h₀ R0 s.heap r) :
    StaysTree h₀ c R0 (setRoot r : Prog Fault Memory ε Unit) (fun _ s' => s'.heap = s.heap) s :=
  ⟨⟨.refl hs.confined, hs.confined, hs.cowid, hr⟩, rfl⟩

end

section

variable (hR : h₀.Closed R0) (hc : c ≠ 0) (hs : Holds h₀ c R0 s)

include hR hc hs

/-- **A node is copied unless the tree owns it.** -/
theorem staysTree_unshareNode (nid : SHAMapNodeId) (hr : Mine h₀ R0 s.heap r) :
    StaysTree h₀ c R0 (unshareNode r nid) (fun q s' => Own h₀ c R0 q s'.heap) s := by
  refine .readBind ?_
  dsimp only
  split
  · exact trivial
  · split
    · next ho => exact .pure hs ⟨hr, hr.writable hc hs.confined (ho.trans hs.cowid)⟩
    · refine .liftBind fun n hn => ?_
      have ha : Stays h₀ c R0 (allocate n : HeapM MutationError Ref) (Own h₀ c R0) s.heap :=
        stays_allocate hR hs.confined fun b q hq =>
          hs.confined.edge r hr q ⟨b, (getChild_cloneWithCowid hn b).symm.trans hq⟩
      refine (ha.onHeap hs).bind fun q s1 hm hq => ?_
      split
      · refine (staysTree_setRoot hm.holds hq.1.1).bind fun _ s2 hm2 he => ?_
        exact .pure hm2.holds (hq.1.mono hm2.moves)
      · exact .pure hm.holds hq.1

variable {path : List NodePathEntry}

theorem staysTree_dirtyUp (key : Uint256) (hpt : ∀ e ∈ path, Mine h₀ R0 s.heap e.node) (hr : Mine h₀ R0 s.heap r) :
    StaysTree h₀ c R0 (dirtyUp key path r) (fun q s' => Mine h₀ R0 s'.heap q) s := by
  induction path with
  | nil => exact .pure hs hr
  | cons en path ih =>
    refine (ih fun e he => hpt e (mem_cons_of_mem _ he)).bind fun q s1 hm1 hq => ?_
    refine .liftBind fun b _ => ?_
    refine (staysTree_unshareNode hR hc hm1.holds _ ((hpt en mem_cons_self).mono hm1.moves)).bind fun p s2 hm hp => ?_
    have ht := stays_setChildAt (ε := MutationError) (b := b) (o := some q) hm.holds.confined hp fun q' hq' =>
      some.inj hq' ▸ hq.mono hm.moves
    refine (ht.onHeap hm.holds).bind fun _ s3 hm3 _ => ?_
    exact .pure hm3.holds (hp.mono hm3.moves).1

omit hc in
theorem staysTree_newLeafNode (sha : Sha) (type : LeafType) (it : SHAMapItem) :
    StaysTree h₀ c R0 (newLeafNode sha type it) (fun q s' => Own h₀ c R0 q s'.heap) s := by
  refine .readBind (.liftBind fun n hn => ?_)
  have hh : ∀ b q, n.getChild b = some q → Mine h₀ R0 s.heap q := by
    intro b q hq
    simp only [newLeaf, newLeafWithHash] at hn
    split at hn
    · cases hn
      cases hq
    · cases hn
  exact Prog.Along.mono ((stays_allocate (ε := MutationError) hR hs.confined hh).onHeap hs) fun _ _ _ h => h.1

omit hc in
theorem staysTree_newInnerNode : StaysTree h₀ c R0 newInnerNode (fun q s' => Own h₀ c R0 q s'.heap) s := by
  refine .readBind ?_
  have ha := stays_allocate (ε := MutationError) (n := newInner s.tree.cowid) hR hs.confined fun b q hq => by cases hq
  exact Prog.Along.mono (ha.onHeap hs) fun _ _ _ h => h.1

omit hc in
/-- The walk of a call that loads nothing changes nothing, and passes the call's nodes. -/
theorem staysTree_walkTree (key : Uint256) : StaysTree h₀ c R0 (walkTree key false noFetch) (fun x s' =>
      (∀ q, x.1 = some q → Mine h₀ R0 s'.heap q) ∧ ∀ e ∈ x.2, Mine h₀ R0 s'.heap e.node) s := by
  have hl : s.heap.Closed {q | Mine h₀ R0 s.heap q} :=
    ⟨fun q hq => Mine.lt hR hs.confined hq, fun q hq => hs.confined.edge q hq⟩
  have hsm : ∀ q ∈ {q | Mine h₀ R0 s.heap q}, s.heap.node q = s.heap.node q := fun _ _ => rfl
  have hw := alike_walkLoop hl hsm hs.root key (leafDepth + 1) .root
  refine .readBind (Prog.Along.mapErr ?_)
  rw [Prog.Along, wp_onHeap]
  refine wp_mono hw.wp (fun x h' hx => ?_) (fun e h' he => ?_) fun _ h => h
  · obtain ⟨rfl, hx⟩ := hx
    exact ⟨.refl hs, hx⟩
  · subst he
    exact .refl hs

section

variable (sha : Sha)

theorem staysTree_addIntoEmptyBranch (hpt : ∀ e ∈ path, Mine h₀ R0 s.heap e.node)
    (key : Uint256) (type : LeafType) (it : SHAMapItem) :
    StaysTree h₀ c R0 (addIntoEmptyBranch sha path key type it) ⊤ s := by
  rw [addIntoEmptyBranch]
  cases hl : path.getLast? with
  | none => exact .fail hs _
  | some en =>
    refine .liftBind fun b _ => ?_
    refine (staysTree_unshareNode hR hc hs _ (hpt en (mem_of_getLast? hl))).bind fun p s1 hm1 hp => ?_
    refine (staysTree_newLeafNode hR hm1.holds sha type it).bind fun q s2 hm2 hq => ?_
    have ht := stays_setChildAt (ε := MutationError) (b := b) (o := some q) hm2.holds.confined (hp.mono hm2.moves)
      fun q' hq' => some.inj hq' ▸ hq.1
    refine (ht.onHeap hm2.holds).bind fun _ s3 hm3 _ => ?_
    have hm := (hm1.moves.trans hm2.moves).trans hm3.moves
    refine (staysTree_dirtyUp hR hc hm3.holds key (fun e he => (hpt e (dropLast_subset _ he)).mono hm)
      ((hp.mono hm2.moves).mono hm3.moves).1).bind fun root s4 hm4 hrt => ?_
    exact (staysTree_setRoot hm4.holds hrt).bind fun _ s5 hm5 _ => .pure hm5.holds trivial

theorem staysTree_splitLoop (type : LeafType) (it ex : SHAMapItem) (tn : ℕ) {stk : List NodePathEntry}
    (hk : ∀ e ∈ stk, Mine h₀ R0 s.heap e.node) (nid : SHAMapNodeId) (hr : Own h₀ c R0 r s.heap) :
    StaysTree h₀ c R0 (splitLoop sha type it ex tn stk nid r) ⊤ s := by
  induction tn generalizing s stk nid r with
  | zero => exact trivial
  | succ tn ih =>
    refine .liftBind fun new _ => .liftBind fun old _ => ?_
    split
    · refine (staysTree_newLeafNode hR hs sha type it).bind fun q s1 hm1 hq => ?_
      have hr1 := hr.mono hm1.moves
      have ht := stays_setChildAt (ε := MutationError) (b := new) (o := some q) hm1.holds.confined hr1
        fun q' hq' => some.inj hq' ▸ hq.1
      refine (ht.onHeap hm1.holds).bind fun _ s2 hm2 _ => ?_
      refine (staysTree_newLeafNode hR hm2.holds sha type ex).bind fun p s3 hm3 hp => ?_
      have hr3 := (hr1.mono hm2.moves).mono hm3.moves
      have hse := stays_setChildAt (ε := MutationError) (b := old) (o := some p) hm3.holds.confined hr3
        fun q' hq' => some.inj hq' ▸ hp.1
      refine (hse.onHeap hm3.holds).bind fun _ s4 hm4 _ => ?_
      have hm := ((hm1.moves.trans hm2.moves).trans hm3.moves).trans hm4.moves
      refine (staysTree_dirtyUp hR hc hm4.holds it.key (fun e he => (hk e he).mono hm)
        (hr3.mono hm4.moves).1).bind fun root s5 hm5 hrt => ?_
      exact (staysTree_setRoot hm5.holds hrt).bind fun _ s6 hm6 _ => .pure hm6.holds trivial
    · split
      · exact trivial
      · next ci _ =>
        refine (staysTree_newInnerNode hR hs).bind fun q s1 hm1 hq => ?_
        refine ih hm1.holds (fun e he => ?_) ci hq
        rcases mem_append.mp he with he | he
        · exact (hk e he).mono hm1.moves
        · rw [mem_singleton.mp he]
          exact (hr.mono hm1.moves).1

theorem staysTree_addItem (type : LeafType) (it : SHAMapItem) : StaysTree h₀ c R0 (addItem sha type it) ⊤ s := by
  refine (staysTree_walkTree hR hs it.key).bind fun x s1 hm hx => ?_
  obtain ⟨last, path⟩ := x
  cases last with
  | none => exact staysTree_addIntoEmptyBranch hR hc hm.holds sha hx.2 _ _ _
  | some leaf =>
    simp only [addWithLeafSplit]
    cases hl : path.getLast? with
    | none => exact .fail hm.holds _
    | some en =>
      refine .derefBind ?_
      split
      · exact .fail hm.holds _
      · split
        · exact .pure hm.holds trivial
        · split
          · exact .fail hm.holds _
          · refine (staysTree_newInnerNode hR hm.holds).bind fun q s2 hm2 hq => ?_
            exact staysTree_splitLoop hR hc hm2.holds sha type it _ _
              (fun e he => (hx.2 e (dropLast_subset _ he)).mono hm2.moves) _ hq

theorem staysTree_replaceItem (hpt : ∀ e ∈ path, Mine h₀ R0 s.heap e.node)
    (en : NodePathEntry) (hr : Mine h₀ R0 s.heap r) (it : SHAMapItem) :
    StaysTree h₀ c R0 (replaceItem sha path en r it) ⊤ s := by
  refine (staysTree_unshareNode hR hc hs _ hr).bind fun q s1 hm1 hq => .derefBind (.liftBind fun x hx => ?_)
  obtain ⟨changed, n⟩ := x
  have ht : Stays h₀ c R0 (store q n : HeapM MutationError Unit) ⊤ s1.heap := by
    simp only [setItem] at hx
    split at hx
    · cases hx
    · split at hx
      · cases hx
      · next ho =>
        cases hx
        exact stays_store hm1.holds.confined hq.2 (fun b p hp => by cases hp) fun hz => absurd hz ho
  refine (ht.onHeap hm1.holds).bind fun _ s2 hm2 _ => ?_
  have hm := hm1.moves.trans hm2.moves
  split
  · refine (staysTree_dirtyUp hR hc hm2.holds it.key (fun e he => (hpt e (dropLast_subset _ he)).mono hm)
      (hq.mono hm2.moves).1).bind fun root s3 hm3 hrt => ?_
    exact (staysTree_setRoot hm3.holds hrt).bind fun _ s4 hm4 _ => .pure hm4.holds trivial
  · exact .pure hm2.holds trivial

theorem staysTree_updateItem (type : LeafType) (it : SHAMapItem) : StaysTree h₀ c R0 (updateItem sha type it) ⊤ s := by
  refine (staysTree_walkTree hR hs it.key).bind fun x s1 hm hx => ?_
  obtain ⟨last, path⟩ := x
  dsimp only
  split
  · next leaf en hl =>
    refine .derefBind ?_
    split
    · exact .fail hm.holds _
    · split
      · exact .fail hm.holds _
      · split
        · exact .fail hm.holds _
        · exact staysTree_replaceItem hR hc hm.holds sha hx.2 _ (hx.1 leaf rfl) it
  · exact .fail hm.holds _

omit hR hc hs in
/-- Looking for the only leaf below a node changes nothing. -/
theorem stays_onlyBelowLoadedLeaf (tn : ℕ) (hh : Confined h₀ c R0 h) :
    Stays h₀ c R0 (onlyBelowLoadedLeaf tn r : HeapM ε (Option Ref)) ⊤ h := by
  induction tn generalizing r with
  | zero => exact trivial
  | succ tn ih =>
    refine .derefBind ?_
    split
    · split
      · exact .pure hh trivial
      · exact ih
    · exact .pure hh trivial

omit hc in
theorem staysTree_collapseLoaded (tn : ℕ) (hr : Own h₀ c R0 r s.heap) :
    StaysTree h₀ c R0 (collapseLoaded sha tn r) (fun o s' => ∀ q, o = some q → Mine h₀ R0 s'.heap q) s := by
  refine ((stays_onlyBelowLoadedLeaf tn hs.confined).onHeap hs).bind fun o s1 hm _ => ?_
  have hr1 := hr.mono hm.moves
  cases o with
  | none => exact .pure hm.holds fun q hq => some.inj hq ▸ hr1.1
  | some leaf =>
    refine .derefBind ?_
    split
    · exact trivial
    · next b _ =>
      refine .derefBind (.liftBind fun x _ => ?_)
      have he := stays_setChildAt (ε := MutationError) (b := b) (o := none) hm.holds.confined hr1
        fun q hq => by cases hq
      refine (he.onHeap hm.holds).bind fun _ s2 hm2 _ => ?_
      refine (staysTree_newLeafNode hR hm2.holds sha x.1 x.2).bind fun q s3 hm3 hq => ?_
      exact .pure hm3.holds fun q' hq' => some.inj hq' ▸ hq.1

theorem staysTree_deleteLoop (tn : ℕ) (key : Uint256) (hpt : ∀ e ∈ path, Mine h₀ R0 s.heap e.node) :
    StaysTree h₀ c R0 (deleteLoop (collapseLoaded sha tn) key path)
      (fun o s' => ∀ q, o = some q → Mine h₀ R0 s'.heap q) s := by
  induction path with
  | nil => exact .pure hs fun q hq => by cases hq
  | cons en path ih =>
    refine (ih fun e he => hpt e (mem_cons_of_mem _ he)).bind fun o s1 hm1 ho => ?_
    refine (staysTree_unshareNode hR hc hm1.holds _ ((hpt en mem_cons_self).mono hm1.moves)).bind
      fun p s2 hm2 hp => .liftBind fun b _ => ?_
    have ht := stays_setChildAt (ε := MutationError) (b := b) (o := o) hm2.holds.confined hp fun q hq =>
      (ho q hq).mono hm2.moves
    refine (ht.onHeap hm2.holds).bind fun _ s3 hm _ => ?_
    have hp3 := hp.mono hm.moves
    split
    · refine (staysTree_setRoot hm.holds hp3.1).bind fun _ s4 hm4 _ => .pure hm4.holds fun q hq => by cases hq
    · refine .derefBind ?_
      split
      · exact .pure hm.holds fun q hq => by cases hq
      · exact staysTree_collapseLoaded hR hm.holds sha tn hp3
      · exact .pure hm.holds fun q hq => some.inj hq ▸ hp3.1

theorem staysTree_deleteItem (tn : ℕ) (key : Uint256) : StaysTree h₀ c R0 (deleteItem sha tn key) ⊤ s := by
  refine (staysTree_walkTree hR hs key).bind fun x s1 hm hx => ?_
  obtain ⟨last, path⟩ := x
  cases last with
  | none => exact .pure hm.holds trivial
  | some leaf =>
    refine .derefBind ?_
    split
    · exact .pure hm.holds trivial
    · split
      · exact .pure hm.holds trivial
      · refine (staysTree_deleteLoop hR hc hm.holds sha tn key
          fun e he => hx.2 e (dropLast_subset _ he)).bind fun _ s2 hm2 _ => ?_
        exact .pure hm2.holds trivial

theorem staysTree_tryFlushDirty (write : Writer ε) (hwr : SharesNodes write) (lv : ℕ) :
    StaysTree h₀ c R0 (tryFlushDirty sha write lv) ⊤ s := by
  refine .readBind ?_
  rw [hs.cowid]
  have hwi : ∀ w, some write = some w → SharesNodes w := fun w hw => some.inj hw ▸ hwr
  have hk := stays_tryWalkSubtreeImpl hwi sha hR hc lv hs.confined hs.root
  refine (hk.onHeap hs).bind fun x s1 hm1 hx => ?_
  exact (staysTree_setRoot hm1.holds hx.1).bind fun _ s2 hm _ => .pure hm.holds trivial

theorem staysTree_unshareTree (lv : ℕ) : StaysTree h₀ c R0 (unshareTree sha lv : Prog Fault Memory ε ℕ) ⊤ s := by
  refine .readBind ?_
  rw [hs.cowid, ← tryWalkSubtreeImpl_none]
  have hwi : ∀ w, (none : Option (Writer ε)) = some w → SharesNodes w := fun w hw => by cases hw
  have hk := stays_tryWalkSubtreeImpl hwi sha hR hc lv hs.confined hs.root
  refine (hk.onHeap hs).bind fun x s1 hm1 hx => ?_
  exact (staysTree_setRoot hm1.holds hx.1).bind fun _ s2 hm _ => .pure hm.holds trivial

end

/-- A call whose writer, if it has one, shares. -/
def TreeCall.SharesNodes : TreeCall ε → Prop
  | .tryFlushDirty write => SHAMap.SharesNodes write
  | .addItem .. | .updateItem .. | .deleteItem .. | .unshare => True

/-- **Every call keeps to the tree's nodes.** -/
theorem staysTree_run (sha : Sha) (tn lv : ℕ) {call : TreeCall ε} (ha : call.SharesNodes) :
    StaysTree h₀ c R0 (call.run sha tn lv) ⊤ s := by
  have he : ∀ {α : Type} {p : Prog Fault Memory (MutationError ⊕ ε) α}, StaysTree h₀ c R0 p ⊤ s →
      StaysTree h₀ c R0 (do let _ ← p; return ()) ⊤ s :=
    fun hp => hp.bind fun _ s' hm _ => .pure hm.holds trivial
  cases call with
  | addItem type it => exact he (Prog.Along.mapErr (staysTree_addItem hR hc hs sha type it))
  | updateItem type it => exact he (Prog.Along.mapErr (staysTree_updateItem hR hc hs sha type it))
  | deleteItem key => exact he (Prog.Along.mapErr (staysTree_deleteItem hR hc hs sha tn key))
  | unshare => exact he (staysTree_unshareTree hR hc hs sha lv)
  | tryFlushDirty write =>
    exact he (Prog.Along.mapErr (staysTree_tryFlushDirty hR hc hs sha write ha lv))

end

end Xrpld.SHAMap
