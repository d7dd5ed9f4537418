import Xrpld.SHAMap.Confinement

/-!
# A snapshot and its original do not see each other

A snapshot is made of new nodes only (`clones_cloneLoadedSubtreeAsShareable`), so at first the two trees have
no node in common. A writer may later give both the same node, but only one that nobody owns
(`Apart`), and no call changes such a node. So a call on one tree leaves what is seen through the
other, in every run and every interleaving (`snapshot_isolated`).
-/

namespace Xrpld.SHAMap

open Function (update update_self update_of_ne)
open Nat

variable {h h' : Heap} {r q : Ref} {ε : Type}

/-! ### Two trees -/

/-- **The two trees have no node in common but frozen ones.** -/
structure Apart (s : Trees) (R : Side → Set Ref) : Prop where
  owner : ∀ side, (s.tree side).cowid ≠ 0
  closed : ∀ side, s.heap.Closed (R side)
  root : ∀ side, (s.tree side).root ∈ R side
  frozen : ∀ q, q ∈ R .original → q ∈ R .snapshot → Frozen s.heap q

variable {R : Side → Set Ref} {s : Trees}

theorem Apart.common (hs : Apart s R) (sd : Side) (h1 : q ∈ R sd) (h2 : q ∈ R sd.other) : Frozen s.heap q := by
  cases sd with
  | original => exact hs.frozen q h1 h2
  | snapshot => exact hs.frozen q h2 h1

/-- **A call on one tree** leaves the trees apart, and what is seen through the other. -/
theorem Apart.wp_runOn (hs : Apart s R) (sha : Sha)
    (tn lv : ℕ) (sd : Side) {call : TreeCall ε} (ha : call.SharesNodes) :
    wp (call.runOn sha tn lv sd) (fun _ s' => (∃ R', Apart s' R') ∧
      SameView sha (s.tree sd.other) (s'.tree sd.other) s.heap s'.heap) ⊥ ⊤ s := by
  have hR := hs.closed sd
  have hc := hs.owner sd
  have hn : sd.other ≠ sd := by cases sd <;> nofun
  have hh : Holds s.heap (s.tree sd).cowid (R sd) (s.memory sd) :=
    ⟨.start hR, rfl, .inl (hs.root sd)⟩
  -- what a call on the tree leaves
  have hd : ∀ m, MovesTree s.heap (s.tree sd).cowid (R sd) (s.memory sd) m →
      (∃ R', Apart (s.put sd m) R') ∧
        SameView sha (s.tree sd.other) ((s.put sd m).tree sd.other) s.heap (s.put sd m).heap := by
    intro m hm
    have ho : (s.put sd m).tree sd.other = s.tree sd.other := update_of_ne hn ..
    have hsf : (s.put sd m).tree sd = m.tree := update_self ..
    have hsm : ∀ q ∈ R sd.other, m.heap.node q = s.heap.node q := fun q hq =>
      hm.holds.confined.changes.same q ((hs.closed sd.other).old q hq) fun hw he =>
        hc (hw.symm.trans (AllBelow.self (hs.common sd he hq)).1)
    have hl : m.heap.Closed (R sd.other) := (hs.closed sd.other).congr hm.moves.next_le hsm
    have hmi : m.heap.Closed {q | Mine s.heap (R sd) m.heap q} :=
      ⟨fun q hq => Mine.lt hR hm.holds.confined hq, fun q hq => hm.holds.confined.edge q hq⟩
    have hf : ∀ q, Mine s.heap (R sd) m.heap q → q ∈ R sd.other → Frozen m.heap q := by
      rintro q (hq | ⟨hle, -⟩ | hq) hq'
      · exact hm.moves.frozen q (hs.common sd hq hq')
      · exact absurd ((hs.closed sd.other).old q hq') (Nat.not_lt_of_le hle)
      · exact hq
    have hi : ∀ x, x = sd ∨ x = sd.other := by
      intro x
      cases x <;> cases sd <;> first | exact .inl rfl | exact .inr rfl
    refine ⟨⟨update R sd {q | Mine s.heap (R sd) m.heap q}, fun x => ?_, fun x => ?_, fun x => ?_,
      fun q hq hq' => ?_⟩, ?_⟩
    · rcases hi x with rfl | rfl
      · rw [hsf, hm.holds.cowid]
        exact hc
      · rw [ho]
        exact hs.owner sd.other
    · rcases hi x with rfl | rfl
      · rw [update_self]
        exact hmi
      · rw [update_of_ne hn]
        exact hl
    · rcases hi x with rfl | rfl
      · rw [update_self, hsf]
        exact hm.holds.root
      · rw [update_of_ne hn, ho]
        exact hs.root sd.other
    · cases sd with
      | original =>
        exact hf q hq hq'
      | snapshot =>
        exact hf q hq' hq
    · rw [ho]
      exact sameView_of_same (hs.closed sd.other) hsm (hs.root sd.other) sha rfl
  simp only [TreeCall.runOn, wp_bind, wp_zoom, wp_attempt, wp_pure]
  refine wp_mono (staysTree_run hR hc hh sha tn lv ha) ?_ ?_ fun _ h => h
  · exact fun _ m hm => hd m hm.1
  · exact fun _ m hm => hd m hm

/-! ### Making a snapshot -/

/-- New nodes were made, below which there are only new ones; the old ones are as before. -/
structure OnlyNew (h h' : Heap) : Prop where
  next_le : h.next ≤ h'.next
  same : ∀ q < h.next, h'.node q = h.node q
  edge : ∀ q, h.next ≤ q → q < h'.next → ∀ p, h'.Edge q p → h.next ≤ p ∧ p < h'.next

theorem OnlyNew.closed {R : Set Ref} (hf : OnlyNew h h') (hR : h.Closed R) : h'.Closed R :=
  hR.congr hf.next_le fun q hq => hf.same q (hR.old q hq)

/-- The copy `k` of the node `r` while its children are replaced: those below the branches `bs` are still the old
ones. -/
structure Filling (h : Heap) (r : Ref) (bs : List Branch) (h' : Heap) : Prop where
  next_lt : h.next < h'.next
  same : ∀ q < h.next, h'.node q = h.node q
  edge : ∀ q, h.next < q → q < h'.next → ∀ p, h'.Edge q p → h.next < p ∧ p < h'.next
  child : ∀ b p, (h'.node h.next).getChild b = some p →
    (b ∈ bs ∧ (h.node r).getChild b = some p) ∨ (h.next < p ∧ p < h'.next)

theorem Filling.onlyNew (hf : Filling h r [] h') : OnlyNew h h' := by
  refine ⟨le_of_lt hf.next_lt, hf.same, fun q hl ht p hp => ?_⟩
  rcases lt_or_eq_of_le hl with hg | rfl
  · obtain ⟨h1, h2⟩ := hf.edge q hg ht p hp
    exact ⟨le_of_lt h1, h2⟩
  · obtain ⟨b, hb⟩ := hp
    rcases hf.child b p hb with ⟨hm, -⟩ | ⟨h1, h2⟩
    · exact absurd hm List.not_mem_nil
    · exact ⟨le_of_lt h1, h2⟩

/-- The copy is changed. -/
theorem Filling.set {bs bs' : List Branch} {n : SHAMapTreeNode} (hf : Filling h r bs h')
    (hn : ∀ b p, n.getChild b = some p → (b ∈ bs' ∧ (h.node r).getChild b = some p) ∨ (h.next < p ∧ p < h'.next)) :
    Filling h r bs' (h'.set h.next n) := by
  refine ⟨hf.next_lt, fun q hq => ?_, fun q hg hl p hp => ?_, fun b p hp => ?_⟩
  · rw [node_set_of_ne (Nat.ne_of_lt hq), hf.same q hq]
  · exact hf.edge q hg hl p ((Heap.edge_congr (node_set_of_ne (ne_of_gt hg) n) p).mp hp)
  · rw [node_set_self] at hp
    exact hn b p hp

/-- New nodes are made below the copy. -/
theorem Filling.trans {bs : List Branch} {h'' : Heap} (hf : Filling h r bs h') (hf' : OnlyNew h' h'') :
    Filling h r bs h'' := by
  refine ⟨lt_of_lt_of_le hf.next_lt hf'.next_le, fun q hq => ?_, fun q hg hl p hp => ?_, fun b p hp => ?_⟩
  · rw [hf'.same q (lt_trans hq hf.next_lt), hf.same q hq]
  · rcases lt_or_ge q h'.next with hold | hn
    · obtain ⟨h1, h2⟩ := hf.edge q hg hold p ((Heap.edge_congr (hf'.same q hold) p).mp hp)
      exact ⟨h1, lt_of_lt_of_le h2 hf'.next_le⟩
    · obtain ⟨h1, h2⟩ := hf'.edge q hn hl p hp
      exact ⟨lt_of_lt_of_le hf.next_lt h1, h2⟩
  · rw [hf'.same h.next hf.next_lt] at hp
    rcases hf.child b p hp with hs | ⟨h1, h2⟩
    · exact .inl hs
    · exact .inr ⟨h1, lt_of_lt_of_le h2 hf'.next_le⟩

/-- What copying a node does. -/
def Clones (clone : Ref → HeapM ε Ref) : Prop :=
  ∀ (h : Heap) (R : Set Ref) (r : Ref), h.Closed R → r ∈ R → wp (clone r)
    (fun q h' => OnlyNew h h' ∧ h.next ≤ q ∧ q < h'.next) (fun _ _ => False) (fun _ => True) h

theorem wp_cloneBranches {clone : Ref → HeapM ε Ref} (hcn : Clones clone) {R : Set Ref} (hR : h.Closed R) (hr : r ∈ R)
    (bs : List Branch) (hf : Filling h r bs h') :
    wp (cloneBranches clone r h.next bs) (fun _ h'' => Filling h r [] h'') ⊥ ⊤ h' := by
  induction bs generalizing h' with
  | nil => exact hf
  | cons b bs ih =>
    have hd : h'.node r = h.node r := hf.same r (hR.old r hr)
    simp only [cloneBranches, deref, wp_bind, wp_read, wp_pure, hd]
    cases hc : (h.node r).getChild b with
    | none =>
      refine ih ⟨hf.next_lt, hf.same, hf.edge, fun b' p hp => ?_⟩
      rcases hf.child b' p hp with ⟨hm, hold⟩ | he
      · rcases List.mem_cons.mp hm with rfl | hm
        · rw [hc] at hold
          cases hold
        · exact .inl ⟨hm, hold⟩
      · exact .inr he
    | some q =>
      simp only [wp_bind]
      have hR' : h'.Closed R := hR.congr (le_of_lt hf.next_lt) fun p hp => hf.same p (hR.old p hp)
      refine wp_imp (hcn h' R q hR' (hR.edge r hr q ⟨b, hc⟩)) ?_
      rintro q' h1 ⟨hfr, hl, ht⟩
      have hf1 := hf.trans hfr
      simp only [setChildAt, deref, wp_bind, wp_read, wp_pure, wp_lift, store, wp_update]
      refine ⟨fun n hn => ih (hf1.set fun b' p hp => ?_), fun _ _ => trivial⟩
      rw [getChild_setChild hn] at hp
      split at hp
      · cases hp
        exact .inr ⟨lt_of_lt_of_le hf.next_lt hl, ht⟩
      · next hb =>
        rcases hf1.child b' p hp with ⟨hm, hold⟩ | he
        · exact .inl ⟨(List.mem_cons.mp hm).resolve_left hb, hold⟩
        · exact .inr he

variable (sha : Sha)

/-- **A copy is made of new nodes only.** -/
theorem clones_cloneLoadedSubtreeAsShareable (cw lv : ℕ) :
    Clones (cloneLoadedSubtreeAsShareable (ε := ε) sha cw lv) := by
  induction lv with
  | zero => exact fun _ _ _ _ _ => trivial
  | succ lv ih =>
    intro h R r hR hr
    simp only [cloneLoadedSubtreeAsShareable, deref, wp_bind, wp_read, wp_pure, wp_lift, allocate, wp_update, store]
    refine ⟨fun n hn => ?_, fun _ _ => trivial⟩
    have hf : Filling h r (List.finRange 16) (h.alloc n) := by
      refine ⟨lt_succ_self _, fun q hq => node_alloc_of_lt hq n, fun q ht hlt => ?_, fun b p hp => ?_⟩
      · exact absurd ht (Nat.not_lt_of_le (Nat.le_of_lt_succ hlt))
      · rw [node_alloc_next, getChild_cloneWithCowid hn] at hp
        exact .inl ⟨List.mem_finRange b, hp⟩
    -- at the end the copy is given up, with the children it has
    have he : ∀ h1, Filling h r [] h1 →
        OnlyNew h (h1.set h.next (h1.node h.next).unshare) ∧ h.next ≤ h.next ∧ h.next < h1.next := fun h1 hf1 =>
      ⟨(hf1.set (n := (h1.node h.next).unshare) hf1.child).onlyNew, le_refl _, hf1.next_lt⟩
    simp only [fillClone, deref, wp_bind, wp_read, wp_pure, node_alloc_next]
    split
    · simp only [wp_bind]
      refine wp_imp (wp_cloneBranches ih hR hr _ hf) (fun _ h1 hf1 => ?_)
      refine wp_updateHashDeep_same sha fun m _ hg => ?_
      exact he _ (hf1.set fun b p hp => hf1.child b p ((hg b).symm.trans hp))
    · next hl =>
      refine he _ (hf.set fun b p hp => ?_)
      rw [getChild_updateHash, SHAMapTreeNode.getChild, SHAMapTreeNode.slots] at hp
      cases hb : n.body with
      | leaf type it =>
        rw [hb] at hp
        cases hp
      | inner g sl =>
        rw [SHAMapTreeNode.isInner, hb] at hl
        exact absurd rfl hl

/-- The two trees after a snapshot. -/
def Trees.of (h : Heap) (original snapshot : MutableTree) : Trees :=
  ⟨h, fun | .original => original | .snapshot => snapshot⟩

/-- **A snapshot and its original start apart.** -/
theorem wp_mutableSnapshot {tree : MutableTree} (lv nextCowid : ℕ)
    (hc : tree.cowid ≠ 0) (hold : AllBelow h.Edge (· < h.next) tree.root) :
    wp (tree.mutableSnapshot (ε := ε) sha lv nextCowid)
      (fun snapshot h' => ∃ R, Apart (.of h' tree snapshot) R) ⊥ ⊤ h := by
  have hR : h.Closed {q | AllBelow h.Edge (· < h.next) q} := ⟨fun _ => AllBelow.self, fun _ hq _ => AllBelow.step hq⟩
  simp only [MutableTree.mutableSnapshot, wp_bind, wp_check, decide_eq_true_eq, wp_pure]
  refine ⟨fun ht => ?_, fun _ => trivial⟩
  refine wp_imp (clones_cloneLoadedSubtreeAsShareable sha nextCowid lv h _ _ hR hold) ?_
  rintro root h' ⟨hf, he, hl⟩
  refine ⟨fun | .original => {q | AllBelow h.Edge (· < h.next) q} | .snapshot => {q | h.next ≤ q ∧ q < h'.next}, ?_, ?_, ?_,
    fun q hq hq' => ?_⟩
  · rintro (_ | _)
    · exact hc
    · exact ne_of_gt (zero_lt_of_lt ht)
  · rintro (_ | _)
    · exact hf.closed hR
    · exact ⟨fun q hq => hq.2, fun q hq p hp => hf.edge q hq.1 hq.2 p hp⟩
  · rintro (_ | _)
    · exact hold
    · exact ⟨he, hl⟩
  · exact absurd (AllBelow.self hq) (Nat.not_lt_of_le hq'.1)

/-! ### Runs -/

/-- The trees stay apart in every run. -/
theorem Apart.wp_runTreeCalls (hs : Apart s R) (sha : Sha)
    (tn lv : ℕ) {calls : List (Side × TreeCall ε)} (hc : ∀ x ∈ calls, x.2.SharesNodes) :
    wp (runTreeCalls sha tn lv calls) (fun _ s' => ∃ R', Apart s' R') ⊥ ⊤ s := by
  refine wp_forEach (fun s => ∃ R, Apart s R) ⟨R, hs⟩ fun x hx s hs => ?_
  obtain ⟨R, hs⟩ := hs
  exact wp_imp (hs.wp_runOn sha tn lv x.1 (hc x hx)) (fun _ _ h => h.1)

/-- **A snapshot and its original do not see each other**: after any calls on the two trees, in any order, the next
call on one of them leaves what is seen through the other. -/
theorem snapshot_isolated {tree : MutableTree} (cloneLevels turns levels nextCowid : ℕ)
    (hc : tree.cowid ≠ 0) (hold : AllBelow h.Edge (· < h.next) tree.root) {calls : List (Side × TreeCall ε)}
    (hcalls : ∀ x ∈ calls, x.2.SharesNodes) (side : Side) {call : TreeCall ε} (hcall : call.SharesNodes) :
    wp (tree.mutableSnapshot (ε := Empty) sha cloneLevels nextCowid) (fun snapshot h' =>
      wp (runTreeCalls sha turns levels calls) (fun _ s => wp (call.runOn sha turns levels side) (fun _ s' =>
          SameView sha (s.tree side.other) (s'.tree side.other) s.heap s'.heap) (fun _ _ => False) (fun _ => True) s)
        (fun _ _ => False) (fun _ => True) (.of h' tree snapshot)) (fun _ _ => False) (fun _ => True) h := by
  refine wp_imp (wp_mutableSnapshot sha cloneLevels nextCowid hc hold) ?_
  rintro snapshot h' ⟨R, hs⟩
  refine wp_imp (hs.wp_runTreeCalls sha turns levels hcalls) ?_
  rintro - s ⟨R', hs'⟩
  exact wp_imp (hs'.wp_runOn sha turns levels side hcall) (fun _ _ h => h.2)

/-- A snapshot of an empty tree: an item is added to the original, and then the snapshot is flushed. Both calls return. -/
theorem snapshot_isolated_newMemory :
    let calls : List (Side × TreeCall Empty) := [(.original, .addItem .accountState sampleMap.item)]
    let call : TreeCall Empty := .tryFlushDirty fun _ node => .ok node
    (∃ snapshot h' s, newMemory.tree.mutableSnapshot (ε := Empty) sampleMap.sha512Half 65 2 newMemory.heap =
        .ok (.ok snapshot, h') ∧
      runTreeCalls sampleMap.sha512Half 65 65 calls (.of h' newMemory.tree snapshot) = .ok (.ok (), s) ∧
      s.tree .snapshot = snapshot) ∧
    wp (newMemory.tree.mutableSnapshot (ε := Empty) sampleMap.sha512Half 65 2) (fun snapshot h' =>
      wp (runTreeCalls sampleMap.sha512Half 65 65 calls) (fun _ s =>
        wp (call.runOn sampleMap.sha512Half 65 65 .snapshot) (fun _ s' =>
          SameView sampleMap.sha512Half (s.tree .original) (s'.tree .original) s.heap s'.heap)
          (fun _ _ => False) (fun _ => True) s) (fun _ _ => False) (fun _ => True) (.of h' newMemory.tree snapshot))
      (fun _ _ => False) (fun _ => True) newMemory.heap := by
  refine ⟨⟨_, _, _, rfl, rfl, rfl⟩, ?_⟩
  refine snapshot_isolated _ 65 65 65 2 (by decide) (AllBelow.of_steps (by decide) ?_) ?_ .snapshot ?_
  · rintro q ⟨b, hb⟩
    cases hb
  · intro x hx
    rw [List.mem_singleton.mp hx]
    trivial
  · exact fun _ node kept hk => .inl (Except.ok.inj hk).symm

end Xrpld.SHAMap
