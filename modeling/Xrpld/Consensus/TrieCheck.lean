import Xrpld.Consensus.TrieRuns

/-!
# The check of the trie

`check_invariants` walks the whole trie. It wants each node to be needed, the branch support of a
node to be its tip support and the branch supports of its children, and the support at each
sequence number to be the sum of the tip supports there.

## What is proved

`Tracks.sound`: a trie that tracks a list of ledgers is what the check wants.
`Tracks.checkInvariants`: the check returns, and says so. `sound_of_runOps`: this holds after every
sequence of calls, as long as the whole support fits in a `u32`.
-/

namespace Xrpld.Consensus

open TrieLedger List LedgerTrie

/-! ### Counting in parts -/

variable {expected expected' : Std.ExtTreeMap ℕ ℕ} {sn ns stk children : List ℕ} {tn : ℕ}

section

variable {α β : Type} {R : β → α → Bool}

theorem sum_map_add_ite (cs : List β) (f : β → ℕ) (p : β → Bool) :
    (cs.map fun c => f c + if p c then 1 else 0).sum = (cs.map f).sum + cs.countP p := by
  induction cs with
  | nil => rfl
  | cons c cs ih =>
    rw [map_cons, map_cons, sum_cons, sum_cons, countP_cons, ih]
    omega

/-- What is counted at once is counted in parts, if each thing is in as many parts as it should be. -/
theorem countP_eq_add_sum {T : List α} (cs : List β) {P Q : α → Bool}
    (h : ∀ k ∈ T, (P k).toNat = (Q k).toNat + cs.countP (R · k)) :
    T.countP P = T.countP Q + (cs.map fun c => T.countP (R c)).sum := by
  induction T with
  | nil => simp
  | cons k T ih =>
    have hk := h k mem_cons_self
    have ih := ih fun k' hk' => h k' (mem_cons_of_mem _ hk')
    have hs : (cs.map fun c => (k :: T).countP (R c)).sum = (cs.map fun c => T.countP (R c)).sum + cs.countP (R · k) := by
      rw [← sum_map_add_ite]
      simp only [countP_cons]
    rw [hs, countP_cons, countP_cons]
    cases hP : P k <;> cases hQ : Q k <;> simp only [hP, hQ, Bool.toNat_true, Bool.toNat_false] at hk ⊢ <;> simp <;> omega

theorem countP_eq_one [DecidableEq β] {cs : List β} (hn : cs.Nodup) {p : β → Bool} {c : β} (hc : c ∈ cs)
    (h : ∀ d ∈ cs, p d ↔ d = c) : cs.countP p = 1 := by
  rw [← count_eq_one_of_mem hn hc, count]
  refine countP_congr fun d hd => ?_
  rw [h d hd, beq_iff_eq]

/-- Parts that share nothing hold no more than all. -/
theorem sum_countP_le [DecidableEq β] {T : List α} {cs : List β} (hn : cs.Nodup)
    (h : ∀ k ∈ T, ∀ c ∈ cs, ∀ d ∈ cs, R c k → R d k → c = d) :
    (cs.map fun c => T.countP (R c)).sum ≤ T.length := by
  have hs := countP_eq_add_sum (T := T) cs (P := fun k => decide (cs.countP (R · k) = 1)) (Q := fun _ => false)
    (R := R) fun k hk => by
      by_cases he : ∃ c ∈ cs, R c k
      · obtain ⟨c, hc, hck⟩ := he
        have ho : cs.countP (R · k) = 1 := countP_eq_one hn hc fun d hd =>
          ⟨fun hdk => h k hk d hd c hc hdk hck, fun hd => by rw [hd, hck]⟩
        rw [ho]
        rfl
      · have hz : cs.countP (R · k) = 0 := countP_eq_zero.mpr fun c hc hck => he ⟨c, hc, hck⟩
        rw [hz]
        rfl
  have hno : T.countP (fun _ => false) = 0 := countP_eq_zero.mpr fun _ _ => Bool.false_ne_true
  rw [hno, Nat.zero_add] at hs
  rw [← hs]
  exact countP_le_length

end

section

variable {L Id : Type} [TrieLedger L Id] [DecidableEq Id] [LawfulTrieLedger L] {t t' : LedgerTrie L} {T : List L}
  {i j p loc : ℕ} {l : L} {cu : ℕ}

/-! ### What the check wants -/

/-- The tip support of some nodes at a sequence number. -/
def tipsAt (t : LedgerTrie L) (nodes : List ℕ) (s : ℕ) : ℕ :=
  (nodes.map fun i => if t.stop i = s + 1 then (t.node i).tipSupport else 0).sum

/-- The live nodes. -/
def liveNodes (t : LedgerTrie L) : List ℕ := (List.range t.size).filter fun i => (t.node i).live

/-- **The structure of the trie**, in the terms of its check. -/
structure Sound (t : LedgerTrie L) : Prop where
  needed : ∀ i ∈ liveNodes t, i ≠ LedgerTrie.root → (t.node i).tipSupport ≠ 0 ∨ 2 ≤ (t.liveChildren i).length
  branch : ∀ i ∈ liveNodes t,
    (t.node i).branchSupport = (t.node i).tipSupport + ((t.liveChildren i).map fun c => (t.node c).branchSupport).sum
  start : ∀ i ∈ liveNodes t, ∀ c ∈ t.liveChildren i, t.start c = t.stop i
  child : ∀ i ∈ liveNodes t, ∀ c ∈ t.liveChildren i, (t.node c).parent = some i
  parent : ∀ i ∈ liveNodes t, i ≠ LedgerTrie.root →
    ∃ p ∈ liveNodes t, (t.node i).parent = some p ∧ i ∈ t.liveChildren p
  seqs : ∀ s, t.seqSupport[s]? = if tipsAt t (liveNodes t) s = 0 then none else some (tipsAt t (liveNodes t) s)

omit [DecidableEq Id] [LawfulTrieLedger L] in
theorem Shape.mem_liveNodes (ht : Shape t) : i ∈ liveNodes t ↔ (t.node i).live := by
  rw [liveNodes, mem_filter, mem_range]
  exact ⟨fun h => h.2, fun h => ⟨ht.lt_size i h, h⟩⟩

omit [TrieLedger L Id] [DecidableEq Id] [LawfulTrieLedger L] in
theorem nodup_liveNodes : (liveNodes t).Nodup := nodup_range.filter _

/-- **The branch support** of a node is shared by its tip and its children. -/
theorem Counts.branch_eq (ht : Counts t T) (hi : (t.node i).live) : (t.node i).branchSupport =
    (t.node i).tipSupport + ((t.node i).children.map fun c => (t.node c).branchSupport).sum := by
  have hh : ∀ {c}, c ∈ (t.node i).children → (t.node c).live ∧ t.stop i < t.stop c ∧
      ∀ {k}, IsBelow t c k → IsBelow t i k := by
    intro c hc
    obtain ⟨hl, -, hr, hg⟩ := ht.child i hi c hc
    have ha := (ht.span c hl).1
    exact ⟨hl, by omega, fun h => (Agree.mono h (by omega)).trans hg⟩
  have hs : ((t.node i).children.map fun c => (t.node c).branchSupport).sum =
      ((t.node i).children.map fun c => T.countP fun k => IsBelow t c k).sum := by
    congr 1
    exact map_congr_left fun c hc => ht.branch c (hh hc).1
  rw [ht.branch i hi, ht.tip i hi, hs]
  refine countP_eq_add_sum _ fun k hk => ?_
  obtain ⟨j, hj, hp⟩ := ht.covered k hk
  by_cases hb : IsBelow t i k
  · rw [decide_eq_true hb]
    have hab := (ht.isBelow_iff hi hj hp).mp hb
    -- the node of the ledger is this one, or below one of its children
    rcases Relation.ReflTransGen.cases_head hab with rfl | ⟨c, ⟨hc, -⟩, hcj⟩
    · have hno : (t.node i).children.countP (fun c => decide (IsBelow t c k)) = 0 := by
        rw [countP_eq_zero]
        intro c hc hck
        have he : t.stop c - 1 ≤ seq k := (of_decide_eq_true hck).1
        have hsp := hp.1
        have := (hh hc).2.1
        omega
      rw [decide_eq_true hp, hno]
      rfl
    · have hck : IsBelow t c k := (ht.isBelow_iff (hh hc).1 hj hp).mpr hcj
      have hn : ¬ IsTip t i k := by
        intro h
        have he : t.stop c - 1 ≤ seq k := hck.1
        have hsp := h.1
        have := (hh hc).2.1
        omega
      have ho : (t.node i).children.countP (fun c => decide (IsBelow t c k)) = 1 := by
        refine countP_eq_one (ht.nodup i hi) hc fun d hd => ?_
        rw [decide_eq_true_iff]
        refine ⟨fun hdk => ?_, fun h => h ▸ hck⟩
        by_contra hne
        have hcs := (hh hc).2.1
        have hds := (hh hd).2.1
        exact ht.apart i hi d hd c hc hne ((Agree.mono hdk (by omega)).symm.trans (Agree.mono hck (by omega)))
      rw [decide_eq_false hn, ho]
      rfl
  · have hn : ¬ IsTip t i k := fun h => hb h.isBelow
    have hno : (t.node i).children.countP (fun c => decide (IsBelow t c k)) = 0 := by
      rw [countP_eq_zero]
      intro c hc hck
      exact hb ((hh hc).2.2 (of_decide_eq_true hck))
    rw [decide_eq_false hb, decide_eq_false hn, hno]
    rfl

omit [LawfulTrieLedger L] in
/-- The tip support of some nodes counts the ledgers with their tips there. -/
theorem Counts.tipsAt_eq (ht : Counts t T) (hl : ∀ i ∈ ns, (t.node i).live) (s : ℕ) :
    tipsAt t ns s = (ns.map fun i => T.countP fun k => decide (t.stop i = s + 1 ∧ IsTip t i k)).sum := by
  rw [tipsAt]
  congr 1
  refine map_congr_left fun i hi => ?_
  split_ifs with hs
  · simp only [hs, true_and]
    exact ht.tip i (hl i hi)
  · symm
    rw [countP_eq_zero]
    exact fun k _ h => hs (of_decide_eq_true h).1

/-- Some nodes have no more tip support than there are ledgers. -/
theorem Counts.tipsAt_le (ht : Counts t T) (hn : ns.Nodup) (hl : ∀ i ∈ ns, (t.node i).live) (s : ℕ) :
    tipsAt t ns s ≤ T.length := by
  rw [ht.tipsAt_eq hl]
  refine sum_countP_le hn fun k _ c hc d hd hk hdk => ?_
  exact ht.tip_unique (hl c hc) (hl d hd) (of_decide_eq_true hk).2 (of_decide_eq_true hdk).2

/-- **All nodes together** have the tip support of all ledgers at the sequence number. -/
theorem Counts.tipsAt_all (ht : Counts t T) (hn : ns.Nodup) (hl : ∀ i, i ∈ ns ↔ (t.node i).live)
    (s : ℕ) : tipsAt t ns s = T.countP fun k => seq k = s := by
  rw [ht.tipsAt_eq fun i hi => (hl i).mp hi]
  have hu := countP_eq_add_sum (T := T) ns (P := fun k => seq k = s) (Q := fun _ => false)
    (R := fun i k => decide (t.stop i = s + 1 ∧ IsTip t i k)) fun k hk => by
      obtain ⟨j, hj, hp⟩ := ht.covered k hk
      have hsp := hp.1
      by_cases hs : seq k = s
      · have ho : ns.countP (fun i => decide (t.stop i = s + 1 ∧ IsTip t i k)) = 1 := by
          refine countP_eq_one hn ((hl j).mpr hj) fun d hd => ?_
          rw [decide_eq_true_iff]
          refine ⟨fun h => ht.tip_unique ((hl d).mp hd) hj h.2 hp, fun h => ?_⟩
          rw [h]
          exact ⟨by omega, hp⟩
        rw [decide_eq_true hs, ho]
        rfl
      · have hno : ns.countP (fun i => decide (t.stop i = s + 1 ∧ IsTip t i k)) = 0 := by
          rw [countP_eq_zero]
          intro i _ h
          have hi := (of_decide_eq_true h).1
          have hik := (of_decide_eq_true h).2.1
          omega
        rw [decide_eq_false hs, hno]
        rfl
  have hno : T.countP (fun _ => false) = 0 := countP_eq_zero.mpr fun _ _ => Bool.false_ne_true
  rw [hu, hno, Nat.zero_add]

/-- **A trie that tracks ledgers** has the structure that it should. -/
theorem Tracks.sound (ht : Tracks t T) : Sound t := by
  have hh : ∀ {i}, i ∈ liveNodes t → t.liveChildren i = (t.node i).children := fun hi =>
    ht.liveChildren (ht.mem_liveNodes.mp hi)
  refine ⟨fun i hi hi0 => ?_, fun i hi => ?_, fun i hi c hc => ?_, fun i hi c hc => ?_, fun i hi hi0 => ?_, fun s => ?_⟩
  · rw [hh hi]
    exact ht.needed i (ht.mem_liveNodes.mp hi) hi0
  · rw [hh hi]
    exact ht.branch_eq (ht.mem_liveNodes.mp hi)
  · rw [hh hi] at hc
    exact (ht.child i (ht.mem_liveNodes.mp hi) c hc).2.2.1
  · rw [hh hi] at hc
    exact (ht.child i (ht.mem_liveNodes.mp hi) c hc).2.1
  · obtain ⟨p, hp, hl, hm⟩ := ht.parent i (ht.mem_liveNodes.mp hi) hi0
    refine ⟨p, ht.mem_liveNodes.mpr hl, hp, ?_⟩
    rw [hh (ht.mem_liveNodes.mpr hl)]
    exact hm
  · rw [ht.tipsAt_all nodup_liveNodes (fun i => ht.mem_liveNodes), ht.seqs s]

/-! ### The walk of the check -/

omit [TrieLedger L Id] [DecidableEq Id] [LawfulTrieLedger L] in
theorem checkChildren_eq (hp : ∀ c ∈ children, (t.node c).parent = some cu) {acc : ℕ}
    (hf : acc + (children.map fun c => (t.node c).branchSupport).sum < 2 ^ 32) :
    t.checkChildren cu children acc = .ok (some (acc + (children.map fun c => (t.node c).branchSupport).sum)) := by
  induction children generalizing acc with
  | nil => rfl
  | cons c children ih =>
    rw [map_cons, sum_cons] at hf ⊢
    rw [checkChildren, if_neg (not_not.mpr (hp c mem_cons_self)), addU32_eq (by omega)]
    change t.checkChildren cu children (acc + (t.node c).branchSupport) = _
    rw [ih (fun d hd => hp d (mem_cons_of_mem _ hd)) (by omega), Nat.add_assoc]

/-- **The state of the walk**: the nodes it has seen, and those it has yet to see. -/
structure Seen (t : LedgerTrie L) (seen stack : List ℕ) (expected : Std.ExtTreeMap ℕ ℕ) : Prop where
  nodup : (seen ++ stack).Nodup
  live : ∀ i ∈ seen ++ stack, (t.node i).live = true
  root : 0 ∈ seen ++ stack
  closed : ∀ i ∈ seen, ∀ c ∈ (t.node i).children, c ∈ seen ++ stack
  parent : ∀ i ∈ seen ++ stack, ∀ p, (t.node i).parent = some p → p ∈ seen
  expected : ∀ s, expected[s]? = if tipsAt t seen s = 0 then none else some (tipsAt t seen s)

omit [DecidableEq Id] [LawfulTrieLedger L] in
/-- A walk that has nothing more to see has seen all live nodes. -/
theorem Seen.all (ht : Shape t) (h : Seen t sn [] expected) : i ∈ sn ↔ (t.node i).live := by
  refine ⟨fun hi => h.live i (mem_append_left _ hi), fun hi => ?_⟩
  induction hn : t.start i using Nat.strong_induction_on generalizing i with
  | h n ih =>
    have hc := h.closed
    have hr := h.root
    rw [append_nil] at hc hr
    by_cases hi0 : i = 0
    · rw [hi0]
      exact hr
    · obtain ⟨p, -, hp, hm⟩ := ht.parent i hi hi0
      have hs := (ht.child p hp i hm).2.2.1
      have hsn := (ht.span p hp).1
      exact hc p (ih (t.start p) (by omega) hp rfl) i hm

/-- At the end of the walk the expected support is that of the trie. -/
theorem Seen.done (ht : Tracks t T) (h : Seen t sn [] expected) : t.checkLoop tn [] expected = .ok true := by
  have hn := h.nodup
  rw [append_nil] at hn
  have he : expected = t.seqSupport := by
    refine Std.ExtTreeMap.ext_getElem? fun s => ?_
    rw [h.expected, ht.tipsAt_all hn (fun i => h.all ht.toShape), ht.seqs s]
  cases tn <;> rw [checkLoop, he, decide_eq_true rfl]

omit [TrieLedger L Id] [DecidableEq Id] [LawfulTrieLedger L] in
/-- The support of one more node. -/
theorem tipsAt_cons {s : ℕ} :
    tipsAt t (i :: sn) s = (if t.stop i = s + 1 then (t.node i).tipSupport else 0) + tipsAt t sn s := by
  rw [tipsAt, map_cons, sum_cons, tipsAt]

omit [DecidableEq Id] [LawfulTrieLedger L] in
/-- **A node is seen**: its children are to be seen next. -/
theorem Seen.step (ht : Shape t) (h : Seen t sn (cu :: stk) expected)
    (he : ∀ s, expected'[s]? = if tipsAt t (cu :: sn) s = 0 then none else some (tipsAt t (cu :: sn) s)) :
    Seen t (cu :: sn) ((t.node cu).children.reverse ++ stk) expected' := by
  have hcu : (t.node cu).live := h.live cu (mem_append_right _ mem_cons_self)
  have hpm : (cu :: sn ++ ((t.node cu).children.reverse ++ stk)).Perm ((t.node cu).children ++ (sn ++ cu :: stk)) := by
    have h1 : ((t.node cu).children.reverse ++ stk).Perm ((t.node cu).children ++ stk) :=
      (reverse_perm _).append_right _
    have h2 : (sn ++ ((t.node cu).children ++ stk)).Perm ((t.node cu).children ++ (sn ++ stk)) := by
      rw [← append_assoc, ← append_assoc]
      exact perm_append_comm.append_right _
    have h3 : (cu :: ((t.node cu).children ++ (sn ++ stk))).Perm ((t.node cu).children ++ (cu :: (sn ++ stk))) :=
      perm_middle.symm
    exact (((h1.append_left sn).trans h2).cons cu).trans (h3.trans (perm_middle.symm.append_left _))
  have hm : ∀ {i}, i ∈ cu :: sn ++ ((t.node cu).children.reverse ++ stk) ↔
      i ∈ (t.node cu).children ∨ i ∈ sn ++ cu :: stk := by
    intro i
    rw [hpm.mem_iff, mem_append]
  have hu : cu ∉ sn := fun hs => (nodup_append.mp h.nodup).2.2 cu hs cu mem_cons_self rfl
  refine ⟨?_, fun i hi => ?_, hm.mpr (.inr h.root), fun i hi c hc => ?_, fun i hi p hp => ?_, he⟩
  · rw [hpm.nodup_iff]
    refine nodup_append.mpr ⟨ht.nodup cu hcu, h.nodup, ?_⟩
    rintro c hc d hd rfl
    -- a child that was met before has its parent seen already
    exact hu (h.parent c hd cu (ht.child cu hcu c hc).2.1)
  · rcases hm.mp hi with hi | hi
    · exact (ht.child cu hcu i hi).1
    · exact h.live i hi
  · rcases mem_cons.mp hi with rfl | hi
    · exact hm.mpr (.inl hc)
    · exact hm.mpr (.inr (h.closed i hi c hc))
  · rcases hm.mp hi with hi | hi
    · rw [(ht.child cu hcu i hi).2.1] at hp
      rw [Option.some.inj hp]
      exact mem_cons_self
    · exact mem_cons_of_mem _ (h.parent i hi p hp)

/-- The support that the check expects, with one more node. -/
theorem Seen.expect (ht : Counts t T) (hf : T.length < 2 ^ 32) (h : Seen t sn (cu :: stk) expected) :
    ∃ expected', expectTip (t.node cu) expected = .ok expected' ∧
      ∀ s, expected'[s]? = if tipsAt t (cu :: sn) s = 0 then none else some (tipsAt t (cu :: sn) s) := by
  have hsn := (ht.span cu (h.live cu (mem_append_right _ mem_cons_self))).1
  rw [expectTip]
  by_cases h0 : (t.node cu).tipSupport = 0
  · rw [if_pos h0]
    refine ⟨expected, rfl, fun s => ?_⟩
    rw [tipsAt_cons, h0, ite_self, Nat.zero_add]
    exact h.expected s
  · have hg : expected[t.stop cu - 1]?.getD 0 = tipsAt t sn (t.stop cu - 1) := by
      rw [h.expected]
      split_ifs with hz
      · rw [hz]
        rfl
      · rfl
    have hc : tipsAt t (cu :: sn) (t.stop cu - 1) = (t.node cu).tipSupport + tipsAt t sn (t.stop cu - 1) := by
      rw [tipsAt_cons, if_pos (by omega)]
    have hl : tipsAt t (cu :: sn) (t.stop cu - 1) ≤ T.length := by
      have hm : ∀ i ∈ cu :: sn, i ∈ sn ++ cu :: stk := by
        intro i hi
        rw [mem_append, mem_cons]
        rcases mem_cons.mp hi with rfl | hi
        · exact .inr (.inl rfl)
        · exact .inl hi
      have hu : (cu :: sn).Nodup := by
        have hn := nodup_append.mp h.nodup
        exact nodup_cons.mpr ⟨fun hs => hn.2.2 cu hs cu mem_cons_self rfl, hn.1⟩
      exact ht.tipsAt_le hu (fun i hi => h.live i (hm i hi)) _
    rw [if_neg h0, hg, addU32_eq (by omega)]
    refine ⟨_, rfl, fun s => ?_⟩
    rw [Std.ExtTreeMap.getElem?_insert]
    by_cases hs : t.stop cu - 1 = s
    · subst hs
      rw [Nat.compare_eq_eq.mpr rfl, if_pos rfl, hc, if_neg (by omega), Nat.add_comm]
    · have he : t.stop cu ≠ s + 1 := by omega
      rw [if_neg (by rwa [Nat.compare_eq_eq]), tipsAt_cons, if_neg he, Nat.zero_add]
      exact h.expected s

/-- **The walk of the check** finds nothing wrong. -/
theorem Tracks.checkLoop (ht : Tracks t T) (hf : T.length < 2 ^ 32) (h : Seen t sn stk expected)
    (htu : t.size ≤ tn + sn.length) :
    t.checkLoop tn stk expected = .ok true := by
  induction tn generalizing sn stk expected with
  | zero =>
    cases stk with
    | nil => exact h.done ht
    | cons cu stk =>
      -- more nodes have been met than there are
      have hl : (sn ++ cu :: stk).length ≤ t.size := by
        rw [← length_range (n := t.size)]
        refine (h.nodup.subperm fun i hi => ?_).length_le
        exact mem_range.mpr (ht.lt_size i (h.live i hi))
      rw [length_append, length_cons] at hl
      omega
  | succ tn ih =>
    cases stk with
    | nil => exact h.done ht
    | cons cu stk =>
      have hu : (t.node cu).live := h.live cu (mem_append_right _ mem_cons_self)
      have hne : ¬ (cu ≠ 0 ∧ (t.node cu).tipSupport = 0 ∧ (t.node cu).children.length < 2) := by
        rintro ⟨h0, hp, hl⟩
        rcases ht.needed cu hu h0 with hn | hn
        · exact hn hp
        · omega
      have hb := ht.branch_eq hu
      have hle : (t.node cu).branchSupport ≤ T.length := by
        rw [ht.branch cu hu]
        exact countP_le_length
      obtain ⟨expected', hr, he⟩ := h.expect ht.toCounts hf
      rw [checkLoop, ht.liveChildren hu]
      simp only [hu, Bool.not_true, Bool.false_eq_true, false_and, if_false]
      rw [if_neg hne]
      rw [hr]
      rw [checkChildren_eq (fun c hc => (ht.child cu hu c hc).2.1) (by omega)]
      change (if (t.node cu).tipSupport + _ ≠ (t.node cu).branchSupport then _ else _) = _
      rw [if_neg (not_not.mpr hb.symm)]
      refine ih (h.step ht.toShape he) ?_
      rw [length_cons]
      omega

/-- **The check** returns, and finds nothing wrong. -/
theorem Tracks.checkInvariants (ht : Tracks t T) (hf : T.length < 2 ^ 32) : t.checkInvariants = .ok true := by
  have hs : Seen t [] [0] ∅ := by
    refine ⟨nodup_singleton _, fun i hi => ?_, mem_cons_self,
      fun i hi => absurd hi not_mem_nil, fun i hi p hp => ?_, fun s => Std.ExtTreeMap.getElem?_empty⟩
    · rw [mem_singleton.mp hi]
      exact ht.root_live
    · rw [mem_singleton.mp hi, ht.root_parent] at hp
      cases hp
  exact ht.checkLoop hf hs le_rfl

/-- **The structure of the trie.** After any calls that keep the whole support in a `u32`, no call has stopped, the trie
has the structure that it should, and its check says so. -/
theorem sound_of_runOps {ops : List (TrieOp L Id)} (hvalid : ∀ op ∈ ops, op.Valid) (hfits : Fits ops) :
    ∃ t, runOps ops = .ok t ∧ Sound t ∧ t.checkInvariants = .ok true := by
  obtain ⟨t, hr, ht⟩ := tracks_runOps hvalid hfits
  exact ⟨t, hr, ht.sound, ht.checkInvariants (hfits ops (prefix_refl _))⟩

end

/-- The trie with two branches passes its check. -/
theorem sound_of_twoBranches : ∃ t, runOps twoBranches = .ok t ∧ Sound t ∧ t.checkInvariants = .ok true :=
  sound_of_runOps twoBranches_valid twoBranches_fits

/-- **What the calls have to keep to**: more support than a `u32` holds stops a call, and the check fails after support of
nothing, or after a removal that names another sequence number. -/
theorem not_sound_of_runOps : runOps tooMuch = .error .overflow ∧
    (runOps [.insert (⟨[1]⟩ : Chain) 0] >>= LedgerTrie.checkInvariants) = .ok false ∧
    (runOps [.insert (⟨[1]⟩ : Chain) 2, .remove (code [1]) 7 1] >>= LedgerTrie.checkInvariants) = .ok false :=
  ⟨rfl, by decide +kernel, by decide +kernel⟩

end Xrpld.Consensus
