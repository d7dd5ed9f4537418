import Xrpld.Consensus.TrieInsert

/-!
# Removing a ledger

`remove` lowers the support of a node and of all above it. A node that is left without support of
its own is then taken out, if it has no child, or merged with its only child; the same is done to
its parent in turn.

## What is proved

`Tracks.remove`: `remove` returns, it answers whether the ledger is tracked, and the trie then
tracks the ledger as often less as it was told to. No counter goes below zero on the way.
-/

namespace Xrpld.Consensus

open TrieLedger
open LedgerTrie (node_modify_of_ne node_modify_self eraseChild start stop ledger compress)
open List

variable {c s : ℕ}

section

variable {L Id : Type} [TrieLedger L Id] [DecidableEq Id] [LawfulTrieLedger L] {t t' : LedgerTrie L} {T : List L}
  {i j p loc : ℕ} {l : L}

/-! ### Taking a node out -/

/-- **A node is taken out**: its parent takes over its children, and they its span. -/
structure Bypassed (t : LedgerTrie L) (p loc : ℕ) (t' : LedgerTrie L) : Prop where
  size : t'.size = t.size
  seqs : t'.seqSupport = t.seqSupport
  gone : (t'.node loc).live = false
  start : t'.start loc = t.start loc
  place : t'.node p = { t.node p with
    children := ((t.node p).children ++ (t.node loc).children).filter (· != loc) }
  moved : ∀ c ∈ (t.node loc).children, t'.node c = { t.node c with
    span := ⟨t.start loc, t.stop c, t.ledger c⟩, parent := some p }
  other : ∀ i, i ≠ loc → i ≠ p → i ∉ (t.node loc).children → t'.node i = t.node i

omit [DecidableEq Id] [LawfulTrieLedger L] in
/-- The children of two nodes are different. -/
theorem Shape.parent_unique (ht : Shape t) (hi : (t.node i).live) (hj : (t.node j).live)
    (hc : c ∈ (t.node i).children) (hcj : c ∈ (t.node j).children) : i = j := by
  have h1 := (ht.child i hi c hc).2.1
  have h2 := (ht.child j hj c hcj).2.1
  rw [h1] at h2
  exact Option.some.inj h2

/-- What the change of `Bypassed` leaves as it is, and where. -/
structure Bypass (t : LedgerTrie L) (p loc : ℕ) (t' : LedgerTrie L) : Prop extends Shape t, Bypassed t p loc t' where
  loc_live : (t.node loc).live = true
  loc_ne : loc ≠ 0
  p_live : (t.node p).live = true
  mem : loc ∈ (t.node p).children
  single : (t.node loc).children.length ≤ 1

namespace Bypass

variable (h : Bypass t p loc t')

include h

section

omit [DecidableEq Id] [LawfulTrieLedger L]

theorem p_ne : p ≠ loc := by
  rintro rfl
  have hs := (h.child p h.p_live p h.mem).2.2.1
  have hn := (h.span p h.p_live).1
  omega

theorem child_ne (hc : c ∈ (t.node loc).children) : c ≠ loc ∧ c ≠ p ∧ c ≠ 0 := by
  obtain ⟨-, hp, hr, -⟩ := h.child loc h.loc_live c hc
  have hsn := (h.span loc h.loc_live).1
  have hs := (h.child p h.p_live loc h.mem).2.2.1
  have hn := (h.span p h.p_live).1
  refine ⟨?_, ?_, ?_⟩
  · rintro rfl
    omega
  · rintro rfl
    omega
  · rintro rfl
    rw [h.root_parent] at hp
    cases hp

/-- Nodes keep where they stop and their ledger. -/
theorem stop_ledger (hi : i ≠ loc) :
    t'.stop i = t.stop i ∧ t'.ledger i = t.ledger i ∧ (t'.node i).tipSupport = (t.node i).tipSupport ∧
      (t'.node i).branchSupport = (t.node i).branchSupport ∧ (t'.node i).live = (t.node i).live := by
  by_cases hp : i = p
  · rw [hp]
    simp only [stop, ledger, h.place, and_self]
  · by_cases hc : i ∈ (t.node loc).children
    · simp only [stop, ledger, h.moved i hc, and_self]
    · simp only [stop, ledger, h.other i hi hp hc, and_self]

/-- Nodes that are not children of the one taken out keep where they start and their parent. -/
theorem start_parent (hi : i ≠ loc) (hc : i ∉ (t.node loc).children) :
    t'.start i = t.start i ∧ (t'.node i).parent = (t.node i).parent := by
  by_cases hp : i = p
  · rw [hp]
    simp only [start, h.place, and_self]
  · simp only [start, h.other i hi hp hc, and_self]

/-- Nodes other than the parent keep their children. -/
theorem children_eq (hi : i ≠ loc) (hp : i ≠ p) : (t'.node i).children = (t.node i).children := by
  by_cases hc : i ∈ (t.node loc).children
  · rw [h.moved i hc]
  · rw [h.other i hi hp hc]

theorem live_iff : (t'.node i).live ↔ i ≠ loc ∧ (t.node i).live := by
  by_cases hi : i = loc
  · rw [hi, h.gone]
    simp
  · rw [(h.stop_ledger hi).2.2.2.2]
    simp [hi]

theorem mem_children_place :
    c ∈ (t'.node p).children ↔ (c ∈ (t.node p).children ∨ c ∈ (t.node loc).children) ∧ c ≠ loc := by
  rw [h.place, mem_filter, mem_append, bne_iff_ne]

/-- A child of a node that stays and is not the parent is as before. -/
theorem child_of (hi : (t.node i).live) (hl : i ≠ loc) (hc : c ∈ (t.node i).children) (hcl : c ≠ loc) :
    (t'.node c).live ∧ (t'.node c).parent = some i ∧ t'.start c = t'.stop i ∧
      Agree (t'.ledger c) (t'.ledger i) (t'.stop i - 1) := by
  obtain ⟨hv, hp, hs, ha⟩ := h.child i hi c hc
  have hn : c ∉ (t.node loc).children := fun hm => hl (h.parent_unique hi h.loc_live hc hm)
  rw [h.live_iff, (h.start_parent hcl hn).1, (h.start_parent hcl hn).2, (h.stop_ledger hcl).2.1,
    (h.stop_ledger hl).1, (h.stop_ledger hl).2.1]
  exact ⟨⟨hcl, hv⟩, hp, hs, ha⟩

end

omit [DecidableEq Id] in
/-- Taking the node out keeps the shape. -/
theorem shape : Shape t' := by
  obtain ⟨-, -, hl, hlo⟩ := h.child p h.p_live loc h.mem
  have ho := h.span loc h.loc_live
  have h0 : (0 : ℕ) ∉ (t.node loc).children := fun hc => (h.child_ne hc).2.2 rfl
  -- what the parent takes over agrees with it, and with the node taken out
  have hov : ∀ {c}, c ∈ (t.node loc).children → Agree (t.ledger c) (t.ledger loc) (t.stop p) := by
    intro c hc
    exact (h.child loc h.loc_live c hc).2.2.2.mono (by omega)
  constructor
  · exact h.live_iff.mpr ⟨h.loc_ne.symm, h.root_live⟩
  · rw [(h.start_parent h.loc_ne.symm h0).1, h.root_start]
  · rw [(h.stop_ledger h.loc_ne.symm).1, h.root_stop]
  · rw [(h.start_parent h.loc_ne.symm h0).2, h.root_parent]
  · intro i hi
    rw [h.size]
    exact h.lt_size i (h.live_iff.mp hi).2
  · intro i hi
    obtain ⟨hil, hi⟩ := h.live_iff.mp hi
    have hs := h.span i hi
    rw [(h.stop_ledger hil).1, (h.stop_ledger hil).2.1]
    refine ⟨?_, hs.2⟩
    by_cases hic : i ∈ (t.node loc).children
    · have hr := (h.child loc h.loc_live i hic).2.2.1
      have hm : t'.start i = t.start loc := by simp only [start, h.moved i hic]
      omega
    · rw [(h.start_parent hil hic).1]
      exact hs.1
  · intro i hi
    obtain ⟨hil, hi⟩ := h.live_iff.mp hi
    by_cases hp : i = p
    · rw [hp, h.place]
      refine List.Nodup.filter _ (nodup_append.mpr ⟨h.nodup p h.p_live, h.nodup loc h.loc_live, ?_⟩)
      rintro c hc d hd rfl
      exact h.p_ne (h.parent_unique h.p_live h.loc_live hc hd)
    · rw [h.children_eq hil hp]
      exact h.nodup i hi
  · intro i hi c hc
    obtain ⟨hil, hi⟩ := h.live_iff.mp hi
    by_cases hp : i = p
    · rw [hp] at hc ⊢
      obtain ⟨hc | hc, hcl⟩ := h.mem_children_place.mp hc
      · exact h.child_of h.p_live h.p_ne hc hcl
      · rw [h.live_iff, (h.stop_ledger h.p_ne).1, (h.stop_ledger h.p_ne).2.1, (h.stop_ledger hcl).2.1]
        simp only [start, h.moved c hc, true_and]
        exact ⟨⟨hcl, (h.child loc h.loc_live c hc).1⟩, hl, ((hov hc).mono (by omega)).trans hlo⟩
    · rw [h.children_eq hil hp] at hc
      refine h.child_of hi hil hc ?_
      rintro rfl
      exact hp (h.parent_unique hi h.p_live hc h.mem)
  · intro i hi c hc d hd hcd
    obtain ⟨hil, hi⟩ := h.live_iff.mp hi
    by_cases hp : i = p
    · rw [hp] at hc hd ⊢
      obtain ⟨hc, hcl⟩ := h.mem_children_place.mp hc
      obtain ⟨hd, hdl⟩ := h.mem_children_place.mp hd
      rw [(h.stop_ledger h.p_ne).1, (h.stop_ledger hcl).2.1, (h.stop_ledger hdl).2.1]
      rcases hc with hc | hc <;> rcases hd with hd | hd
      · exact h.apart p h.p_live c hc d hd hcd
      · exact fun ha => h.apart p h.p_live c hc loc h.mem hcl (ha.trans (hov hd))
      · exact fun ha => h.apart p h.p_live loc h.mem d hd hdl.symm ((hov hc).symm.trans ha)
      · obtain ⟨e, he⟩ : ∃ e, (t.node loc).children = [e] := by
          refine length_eq_one_iff.mp (le_antisymm h.single (length_pos_of_mem hc))
        rw [he, mem_singleton] at hc hd
        exact absurd (hc.trans hd.symm) hcd
    · rw [h.children_eq hil hp] at hc hd
      have hn : ∀ {c}, c ∈ (t.node i).children → c ≠ loc := by
        rintro c hc rfl
        exact hp (h.parent_unique hi h.p_live hc h.mem)
      rw [(h.stop_ledger hil).1, (h.stop_ledger (hn hc)).2.1, (h.stop_ledger (hn hd)).2.1]
      exact h.apart i hi c hc d hd hcd
  · intro i hi hi0
    obtain ⟨hil, hi⟩ := h.live_iff.mp hi
    by_cases hic : i ∈ (t.node loc).children
    · refine ⟨p, by rw [h.moved i hic], h.live_iff.mpr ⟨h.p_ne, h.p_live⟩, ?_⟩
      exact h.mem_children_place.mpr ⟨.inr hic, hil⟩
    · obtain ⟨q, hq, hv, hme⟩ := h.parent i hi hi0
      have hql : q ≠ loc := by
        rintro rfl
        exact hic hme
      refine ⟨q, by rw [(h.start_parent hil hic).2, hq], h.live_iff.mpr ⟨hql, hv⟩, ?_⟩
      by_cases hqp : q = p
      · rw [hqp] at hme ⊢
        exact h.mem_children_place.mpr ⟨.inl hme, hil⟩
      · rw [h.children_eq hql hqp]
        exact hme

/-- **Taking out a node without support of its own** changes nothing that is counted. -/
theorem counts (ht : Counts t T) (hp : (t.node loc).tipSupport = 0) : Counts t' T := by
  refine ⟨h.shape, fun l hl => ?_, fun i hi => ?_, fun i hi => ?_⟩
  · obtain ⟨i, hi, hil⟩ := ht.covered l hl
    have hn : i ≠ loc := by
      rintro rfl
      rw [ht.tip i hi, countP_eq_zero] at hp
      exact hp l hl (decide_eq_true hil)
    refine ⟨i, h.live_iff.mpr ⟨hn, hi⟩, ?_⟩
    rw [IsTip, (h.stop_ledger hn).1, (h.stop_ledger hn).2.1]
    exact hil
  · obtain ⟨hil, hi⟩ := h.live_iff.mp hi
    rw [(h.stop_ledger hil).2.2.1, ht.tip i hi]
    refine countP_congr fun l _ => ?_
    rw [decide_eq_true_iff, decide_eq_true_iff, IsTip, IsTip, (h.stop_ledger hil).1, (h.stop_ledger hil).2.1]
  · obtain ⟨hil, hi⟩ := h.live_iff.mp hi
    rw [(h.stop_ledger hil).2.2.2.1, ht.branch i hi]
    refine countP_congr fun l _ => ?_
    rw [decide_eq_true_iff, decide_eq_true_iff, IsBelow, IsBelow, (h.stop_ledger hil).1, (h.stop_ledger hil).2.1]

end Bypass

/-! ### The loop that takes nodes out -/

section

omit [DecidableEq Id] [LawfulTrieLedger L]

theorem Shape.liveChildren (ht : Shape t) (hi : (t.node i).live) : t.liveChildren i = (t.node i).children := by
  rw [LedgerTrie.liveChildren, List.filter_eq_self]
  exact fun c hc => (ht.child i hi c hc).1

/-- A leaf is taken out by erasing it. -/
theorem bypass_leaf (ht : Shape t) (hv : (t.node loc).live) (hl : loc ≠ 0) (hp : (t.node p).live)
    (hm : loc ∈ (t.node p).children) (hf : (t.node loc).children = []) : Bypass t p loc (t.eraseChild p loc) := by
  have hn : p ≠ loc := by
    rintro rfl
    rw [hf] at hm
    cases hm
  refine ⟨ht, ⟨rfl, rfl, ?_, ?_, ?_, fun c hc => ?_, fun i hi hip _ => ?_⟩, hv, hl, hp, hm, ?_⟩
  · rw [eraseChild, node_modify_self]
  · simp only [eraseChild, start, node_modify_self, node_modify_of_ne hn.symm]
  · rw [eraseChild, node_modify_of_ne hn, node_modify_self, hf, append_nil]
  · rw [hf] at hc
    cases hc
  · rw [eraseChild, node_modify_of_ne hi, node_modify_of_ne hip]
  · rw [hf]
    exact Nat.zero_le _

/-- A node with one child is taken out by merging the two. -/
theorem bypass_merge (ht : Shape t) (hv : (t.node loc).live) (ho : loc ≠ 0) (hp : (t.node p).live)
    (he : loc ∈ (t.node p).children) (hh : (t.node loc).children = [c]) :
    Bypass t p loc ((((t.modify c fun n => { n with
      span := Span.merge (t.node loc).span (t.node c).span, parent := some p }).modify p
      fun n => { n with children := n.children ++ [c] })).eraseChild p loc) := by
  have hc : c ∈ (t.node loc).children := by
    rw [hh]
    exact mem_cons_self
  obtain ⟨hi, -, hcs, -⟩ := ht.child loc hv c hc
  obtain ⟨-, -, hl, -⟩ := ht.child p hp loc he
  have hs := (ht.span c hi).1
  have hls := (ht.span loc hv).1
  have hpl : p ≠ loc := by
    rintro rfl
    omega
  have hcl : c ≠ loc := by
    rintro rfl
    omega
  have hcp : c ≠ p := by
    rintro rfl
    omega
  have hm : Span.merge (t.node loc).span (t.node c).span = ⟨t.start loc, t.stop c, t.ledger c⟩ := by
    rw [Span.merge, if_pos (show t.stop loc < t.stop c by omega), Nat.min_eq_left (show t.start loc ≤ t.start c by omega)]
  rw [hm]
  refine ⟨ht, ⟨rfl, rfl, ?_, ?_, ?_, fun d hd => ?_, fun i hil hip hic => ?_⟩, hv, ho, hp, he, ?_⟩
  · rw [eraseChild, node_modify_self]
  · simp only [eraseChild, start, node_modify_self, node_modify_of_ne hpl.symm, node_modify_of_ne hcl.symm]
  · rw [eraseChild, node_modify_of_ne hpl, node_modify_self, node_modify_self, node_modify_of_ne hcp.symm, hh]
  · rw [hh, mem_singleton] at hd
    rw [hd, eraseChild, node_modify_of_ne hcl, node_modify_of_ne hcp, node_modify_of_ne hcp, node_modify_self]
  · rw [hh, mem_singleton] at hic
    rw [eraseChild, node_modify_of_ne hil, node_modify_of_ne hip, node_modify_of_ne hip, node_modify_of_ne hic]
  · rw [hh]
    exact le_rfl

/-- No node comes to start before the parent. -/
theorem Bypass.earlier_eq (h : Bypass t p loc t') : earlier t' p = earlier t p := by
  have hp : t'.start p = t.start p := by simp only [start, h.place]
  obtain ⟨-, -, hl, -⟩ := h.child p h.p_live loc h.mem
  have hps := (h.span p h.p_live).1
  ext i
  rw [earlier, earlier, Finset.mem_filter, Finset.mem_filter, h.size, hp]
  refine and_congr_right fun _ => ?_
  by_cases hi : i = loc
  · rw [hi, h.start]
  · by_cases hc : i ∈ (t.node loc).children
    · have hm : t'.start i = t.start loc := by simp only [start, h.moved i hc]
      have hs := (h.child loc h.loc_live i hc).2.2.1
      have hls := (h.span loc h.loc_live).1
      omega
    · rw [(h.start_parent hi hc).1]

/-- The other nodes stay needed. -/
theorem Bypass.needed (h : Bypass t p loc t') (hn : ∀ i, (t.node i).live → i ≠ 0 → i ≠ loc → Needed t i)
    (hi : (t'.node i).live) (hi0 : i ≠ 0) (hp : i ≠ p) : Needed t' i := by
  obtain ⟨hl, hi⟩ := h.live_iff.mp hi
  rw [Needed, (h.stop_ledger hl).2.2.1, h.children_eq hl hp]
  exact hn i hi hi0 hl

end

/-- **The loop takes out** all nodes that are not needed any more, from one node on. -/
theorem Counts.compress (ht : Counts t T) {tn : ℕ} (hv : (t.node loc).live)
    (hn : ∀ i, (t.node i).live → i ≠ 0 → i ≠ loc → Needed t i) (hu : (earlier t loc).card < tn) :
    ∃ t', compress tn loc t = .ok t' ∧ Counts t' T ∧ t'.seqSupport = t.seqSupport ∧
      ∀ i, (t'.node i).live → i ≠ 0 → Needed t' i := by
  induction tn generalizing t loc with
  | zero => omega
  | succ tn ih =>
    rw [compress]
    by_cases hs : (t.node loc).tipSupport = 0 ∧ loc ≠ 0
    · obtain ⟨hti, hl⟩ := hs
      obtain ⟨p, hp, hpl, hm⟩ := ht.parent loc hv hl
      rw [if_pos ⟨hti, hl⟩, hp, ht.toShape.liveChildren hv]
      -- both ways of taking the node out go on with its parent
      have hg : ∀ t1, Bypass t p loc t1 → ∃ t', compress tn p t1 = .ok t' ∧ Counts t' T ∧
          t'.seqSupport = t.seqSupport ∧ ∀ i, (t'.node i).live → i ≠ 0 → Needed t' i := by
        intro t1 h
        obtain ⟨-, -, hr, -⟩ := ht.child p hpl loc hm
        have hps := (ht.span p hpl).1
        have hc := Finset.card_lt_card (earlier_ssubset (i := loc) (ht.lt_size p hpl) (by omega))
        rw [← h.seqs]
        exact ih (h.counts ht hti) (h.live_iff.mpr ⟨h.p_ne, hpl⟩) (fun i hi hi0 hip => h.needed hn hi hi0 hip)
          (by rw [h.earlier_eq]; omega)
      match hh : (t.node loc).children with
      | [] => exact hg _ (bypass_leaf ht.toShape hv hl hpl hm hh)
      | [c] => exact hg _ (bypass_merge ht.toShape hv hl hpl hm hh)
      | c :: d :: children =>
        refine ⟨t, rfl, ht, rfl, fun i hi hi0 => ?_⟩
        by_cases hil : i = loc
        · refine .inr ?_
          rw [hil, hh, length_cons, length_cons]
          omega
        · exact hn i hi hi0 hil
    · rw [if_neg hs]
      refine ⟨t, rfl, ht, rfl, fun i hi hi0 => ?_⟩
      by_cases hil : i = loc
      · rw [hil] at hi0 ⊢
        exact .inl fun h => hs ⟨h, hi0⟩
      · exact hn i hi hi0 hil

/-! ### Lowering the support -/

/-- **Lowering the support** of a node and of all above it by ledgers that were tracked. -/
theorem Counts.lower {R : List L} (ht : Counts t (R ++ T)) (hj : (t.node j).live) (hR : ∀ r ∈ R, IsTip t j r)
    (hs : SameTree t t') (hp : ∀ i, (t'.node i).tipSupport = (t.node i).tipSupport - if i = j then R.length else 0)
    (ha : ∀ i, Above t i j → (t'.node i).branchSupport = (t.node i).branchSupport - R.length)
    (ho : ∀ i, ¬ Above t i j → (t'.node i).branchSupport = (t.node i).branchSupport) : Counts t' T := by
  refine ⟨hs.shape ht.toShape, fun l hl => ?_, fun i hi => ?_, fun i hi => ?_⟩
  · simp only [IsTip, stop, ledger, hs.span, hs.live]
    exact ht.covered l (mem_append_right _ hl)
  · rw [hs.live] at hi
    rw [hp, ht.tip i hi, countP_isTip_congr (hs.span i), countP_append, ht.countP_isTip hi hj hR,
      Nat.add_sub_cancel_left]
  · rw [hs.live] at hi
    have hb := ht.branch i hi
    rw [countP_append, ht.countP_isBelow hi hj hR] at hb
    rw [countP_isBelow_congr (hs.span i)]
    split_ifs at hb with h
    · rw [ha i h, hb, Nat.add_sub_cancel_left]
    · rw [ho i h, hb, Nat.zero_add]

omit [LawfulTrieLedger L] in
theorem Counts.perm {T' : List L} (ht : Counts t T) (h : T.Perm T') : Counts t T' := by
  refine ⟨ht.toShape, fun l hl => ht.covered l (h.mem_iff.mpr hl), fun i hi => ?_, fun i hi => ?_⟩
  · rw [ht.tip i hi, h.countP_eq]
  · rw [ht.branch i hi, h.countP_eq]

omit [DecidableEq Id] [LawfulTrieLedger L] in
/-- The support at a sequence number is lowered with that of the ledgers there. -/
theorem SeqCounts.lower {support : Std.ExtTreeMap ℕ ℕ} {R : List L} (h : SeqCounts support (R ++ T))
    (hR : ∀ r ∈ R, seq r = s) :
    ∃ support', LedgerTrie.lowerSeq support s R.length = .ok support' ∧ SeqCounts support' T := by
  have hc : ∀ u, (R ++ T).countP (fun l => seq l = u) = (if u = s then R.length else 0) + T.countP fun l => seq l = u := by
    intro u
    rw [List.countP_append]
    congr 1
    split_ifs with hu
    · rw [List.countP_eq_length]
      intro r hr
      rw [decide_eq_true_iff, hR r hr, hu]
    · rw [List.countP_eq_zero]
      intro r hr hru
      rw [decide_eq_true_iff, hR r hr] at hru
      exact hu hru.symm
  have hs := h s
  have ho : ∀ u, u ≠ s → support[u]? =
      if T.countP (fun l => seq l = u) = 0 then none else some (T.countP fun l => seq l = u) := by
    intro u hu
    rw [h u, hc u, if_neg hu, Nat.zero_add]
  rw [hc s, if_pos rfl] at hs
  rw [LedgerTrie.lowerSeq, hs]
  by_cases h0 : R.length + T.countP (fun l => seq l = s) = 0
  · rw [if_pos h0]
    refine ⟨support, rfl, fun u => ?_⟩
    by_cases hu : u = s
    · subst hu
      have hT : T.countP (fun l => seq l = u) = 0 := by omega
      rw [hs, if_pos h0, if_pos hT]
    · exact ho u hu
  · rw [if_neg h0]
    simp only [subU32, Nat.le_add_right, if_true, Nat.add_sub_cancel_left, bind, Except.bind, pure, Except.pure]
    refine ⟨_, rfl, fun u => ?_⟩
    by_cases hu : u = s
    · subst hu
      split_ifs with hT
      · rw [Std.ExtTreeMap.getElem?_erase_self]
      · rw [Std.ExtTreeMap.getElem?_insert_self]
    · have hn : compare s u ≠ .eq := by
        rw [ne_eq, Nat.compare_eq_eq]
        exact Ne.symm hu
      rw [← ho u hu]
      split_ifs
      · rw [Std.ExtTreeMap.getElem?_erase, if_neg hn]
      · rw [Std.ExtTreeMap.getElem?_insert, if_neg hn]

/-! ### Removal -/

/-- The id of a ledger. -/
def ownId (l : L) : Id := ancestor l (seq l)

/-- Track a ledger as often less as told to, if it is tracked that often. -/
def untrack (id : Id) : ℕ → List L → List L
  | 0, T => T
  | _ + 1, [] => []
  | n + 1, l :: T => if ownId l = id then untrack id n T else l :: untrack id (n + 1) T

omit [LawfulTrieLedger L] in
/-- What is not tracked any more. -/
theorem exists_untrack (id : Id) (n : ℕ) (T : List L) : ∃ R, T.Perm (R ++ untrack id n T) ∧
    (∀ r ∈ R, ownId r = id) ∧ R.length = min n (T.countP fun l => ownId l = id) := by
  induction T generalizing n with
  | nil => cases n <;> exact ⟨[], .refl _, fun r hr => absurd hr List.not_mem_nil, (Nat.min_zero _).symm⟩
  | cons l T ih =>
    cases n with
    | zero => exact ⟨[], .refl _, fun r hr => absurd hr List.not_mem_nil, (Nat.zero_min _).symm⟩
    | succ n =>
      rw [untrack]
      by_cases hl : ownId l = id
      · rw [if_pos hl, countP_cons_of_pos (by rwa [decide_eq_true_iff])]
        obtain ⟨R, hp, hR, he⟩ := ih n
        refine ⟨l :: R, hp.cons l, fun r hr => ?_, ?_⟩
        · rcases mem_cons.mp hr with rfl | hr
          · exact hl
          · exact hR r hr
        · rw [length_cons, he]
          omega
      · rw [if_neg hl, countP_cons_of_neg (by rwa [decide_eq_true_iff])]
        obtain ⟨R, hp, hR, he⟩ := ih (n + 1)
        exact ⟨R, (hp.cons l).trans perm_middle.symm, hR, he⟩

omit [DecidableEq Id] in
/-- **A ledger is the tip of a node** when the last id of the span is its own. -/
theorem Shape.isTip_iff (ht : Shape t) (hi : (t.node i).live) :
    IsTip t i l ↔ ancestor (t.ledger i) (t.stop i - 1) = ownId l := by
  have hn := ht.span i hi
  constructor
  · intro h
    rw [h.1]
    exact h.2.2.2.symm
  · intro h
    obtain ⟨hs, -⟩ := LawfulTrieLedger.unique (t.ledger i) l (t.stop i - 1) (seq l) (by omega) le_rfl h
    refine ⟨by omega, le_rfl, by omega, ?_⟩
    rw [hs] at h
    exact h.symm

/-- **What `find_by_ledger_id` finds.** -/
theorem Shape.findByLedgerId (ht : Shape t) (id : Id) :
    match t.findByLedgerId id with
    | none => ∀ i l, (t.node i).live → IsTip t i l → ownId l ≠ id
    | some i => (t.node i).live ∧ ∀ l, IsTip t i l ↔ ownId l = id := by
  cases hf : t.findByLedgerId id with
  | none =>
    intro i l hi hp hd
    rw [LedgerTrie.findByLedgerId, List.find?_eq_none] at hf
    refine hf i (mem_range.mpr (ht.lt_size i hi)) ?_
    rw [hi, Bool.true_and, decide_eq_true_iff]
    exact ((ht.isTip_iff hi).mp hp).trans hd
  | some i =>
    have hi := find?_some hf
    rw [Bool.and_eq_true, decide_eq_true_iff] at hi
    refine ⟨hi.1, fun l => ?_⟩
    rw [ht.isTip_iff hi.1]
    change (t.node i).span.tip.id = ownId l ↔ _
    rw [hi.2]
    exact eq_comm

/-- The node that is found counts the ledgers with the id; if there is none, none is tracked. -/
theorem Counts.findByLedgerId (ht : Counts t T) (id : Id) :
    match t.findByLedgerId id with
    | none => T.countP (fun l => ownId l = id) = 0
    | some i => (t.node i).live ∧ (∀ l, IsTip t i l ↔ ownId l = id) ∧
      (t.node i).tipSupport = T.countP fun l => ownId l = id := by
  have hs := ht.toShape.findByLedgerId id
  cases hf : t.findByLedgerId id with
  | none =>
    rw [hf] at hs
    rw [countP_eq_zero]
    intro l hl hd
    obtain ⟨i, hi, hp⟩ := ht.covered l hl
    exact hs i l hi hp (of_decide_eq_true hd)
  | some i =>
    rw [hf] at hs
    refine ⟨hs.1, hs.2, ?_⟩
    rw [ht.tip i hs.1]
    refine countP_congr fun l _ => ?_
    rw [decide_eq_true_iff, decide_eq_true_iff, hs.2]

omit [TrieLedger L Id] [DecidableEq Id] [LawfulTrieLedger L] in
theorem subU32_eq {a b : ℕ} (h : b ≤ a) : subU32 a b = .ok (a - b) := if_pos h

omit [LawfulTrieLedger L] in
theorem Tracks.perm {T' : List L} (ht : Tracks t T) (h : T.Perm T') : Tracks t T' :=
  ⟨ht.toCounts.perm h, fun s => by rw [← h.countP_eq]; exact ht.seqs s, ht.needed⟩

/-- **Removal.** The answer says whether the ledger was tracked, and the trie then tracks what is left without as many of
it as `remove` was told to take away. -/
theorem Tracks.remove_of_perm (ht : Tracks t T) {id : Id} {n : ℕ} (hs : ∀ l ∈ T, ownId l = id → seq l = s)
    {R T' : List L} (hpm : T.Perm (R ++ T')) (hR : ∀ r ∈ R, ownId r = id)
    (he : R.length = min n (T.countP fun l => ownId l = id)) :
    ∃ t', t.remove id s n = .ok (decide (0 < T.countP fun l => ownId l = id), t') ∧ Tracks t' T' := by
  -- nothing is taken away when the ledger is not tracked
  have hno : T.countP (fun l => ownId l = id) = 0 → Tracks t T' := by
    intro h0
    rw [h0, Nat.min_zero] at he
    rw [List.eq_nil_of_length_eq_zero he] at hpm
    exact ht.perm hpm
  have hsp := ht.toCounts.findByLedgerId id
  rw [LedgerTrie.remove]
  cases hf : t.findByLedgerId id with
  | none =>
    rw [hf] at hsp
    refine ⟨t, ?_, ?_⟩
    · rw [hsp]
      rfl
    · exact hno hsp
  | some loc =>
    rw [hf] at hsp
    obtain ⟨hv, htip, hco⟩ := hsp
    simp only
    by_cases h0 : (t.node loc).tipSupport = 0
    · rw [if_pos h0]
      rw [hco] at h0
      refine ⟨t, ?_, ?_⟩
      · rw [h0]
        rfl
      · exact hno h0
    · rw [if_neg h0]
      rw [← hco] at he
      have hc : Counts t (R ++ T') := ht.toCounts.perm hpm
      have hRtip : ∀ r ∈ R, IsTip t loc r := fun r hr => (htip r).mpr (hR r hr)
      let t1 := t.modify loc fun m => { m with tipSupport := m.tipSupport - R.length }
      have hm : SameTree t t1 := sameTree_modify fun _ => ⟨rfl, rfl, rfl, rfl⟩
      have hbr : ∀ i, (t1.node i).branchSupport = (t.node i).branchSupport := by
        intro i
        by_cases hi : i = loc
        · rw [hi, node_modify_self]
        · rw [node_modify_of_ne hi]
      have hti : ∀ i, (t1.node i).tipSupport = (t.node i).tipSupport - if i = loc then R.length else 0 := by
        intro i
        by_cases hi : i = loc
        · rw [hi, node_modify_self, if_pos rfl]
        · rw [node_modify_of_ne hi, if_neg hi, Nat.sub_zero]
      -- the support at the sequence number
      have hse : SeqCounts t.seqSupport (R ++ T') := fun u => by rw [← hpm.countP_eq]; exact ht.seqs u
      obtain ⟨support, hlo, hse⟩ := hse.lower (s := s) fun r hr => hs r
        (hpm.mem_iff.mpr (List.mem_append_left _ hr)) (hR r hr)
      let t2 : LedgerTrie L := { t1 with seqSupport := support }
      have hsa : SameTree t t2 := ⟨rfl, hm.span, hm.children, hm.parent, hm.live⟩
      have hh := hsa.shape ht.toShape
      have hli : (t2.node loc).live := by rw [hsa.live, hv]
      obtain ⟨t3, hcl, h3⟩ := hh.climb (subU32 · R.length) (g := (· - R.length)) hli (fun j hj => by
        have hab := hsa.above_iff.mp hj
        have hj' := (ht.of_above hv hab).1
        have hb := hc.branch j hj'
        rw [List.countP_append, hc.countP_isBelow hj' hv hRtip, if_pos hab] at hb
        rw [hbr]
        exact subU32_eq (by omega)) (hh.card_earlier_lt hli)
      have ha : SameTree t t3 := hsa.trans h3.toSameTree
      have ho : Counts t3 (T') := by
        refine hc.lower hv hRtip ha (fun i => ?_) (fun i hi => ?_) fun i hi => ?_
        · rw [h3.tip]
          exact hti i
        · rw [h3.above i (hsa.above_iff.mpr hi)]
          exact congrArg (· - R.length) (hbr i)
        · rw [h3.other i fun h => hi (hsa.above_iff.mp h)]
          exact hbr i
      have hne : ∀ i, (t3.node i).live → i ≠ 0 → i ≠ loc → Needed t3 i := by
        intro i hi hi0 hil
        have htip3 : (t3.node i).tipSupport = (t.node i).tipSupport := by
          rw [h3.tip]
          exact (hti i).trans (by rw [if_neg hil, Nat.sub_zero])
        rw [Needed, htip3, ha.children]
        exact ht.needed i (by rw [← ha.live]; exact hi) hi0
      have hl : (t3.node loc).live := by rw [ha.live, hv]
      obtain ⟨t4, hcompress, hu, hq, hn⟩ := ho.compress hl hne (ho.toShape.card_earlier_lt hl)
      refine ⟨t4, ?_, ⟨hu, ?_, hn⟩⟩
      · have hp : 0 < T.countP fun l => ownId l = id := by omega
        rw [← he, decide_eq_true hp]
        change (LedgerTrie.lowerSeq t.seqSupport s R.length >>= fun support => _) = _
        rw [hlo]
        change (LedgerTrie.climb (subU32 · R.length) t2.size (some loc) t2 >>= fun t => _) = _
        rw [hcl]
        change (compress t3.size loc t3 >>= fun t => _) = _
        rw [hcompress]
        rfl
      · rw [hq, h3.seqs]
        exact hse

/-- `remove` takes away as many as it was told to, the first ones of the list. -/
theorem Tracks.remove (ht : Tracks t T) {id : Id} (hs : ∀ l ∈ T, ownId l = id → seq l = s) (n : ℕ) :
    ∃ t', t.remove id s n = .ok (decide (0 < T.countP fun l => ownId l = id), t') ∧ Tracks t' (untrack id n T) := by
  obtain ⟨R, hp, hR, hl⟩ := exists_untrack id n T
  exact ht.remove_of_perm hs hp hR hl

end

end Xrpld.Consensus
