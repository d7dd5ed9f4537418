import Xrpld.Consensus.TrieInvariant

/-!
# Inserting a ledger

`insert` has three parts, and each of them keeps the invariant of the trie: the node where the
ledger leaves the trie is split there, a node is added for the rest of the ledger, and the support
of a node and of all above it is raised.

## What is proved

`Tracks.insert`: `insert` returns, and the trie then tracks the ledger as often as it was told to,
if the whole support fits in a `u32`.
-/

namespace Xrpld.Consensus

open TrieLedger List Nat Finset LedgerTrie

variable {L : Type} {i j n p pos tn : ℕ}

namespace LedgerTrie

variable {t : LedgerTrie L} {f : Node L → Node L} {n : Node L}

@[simp] theorem node_modify_self : (t.modify i f).node i = f (t.node i) := Function.update_self ..

theorem node_modify_of_ne (h : j ≠ i) : (t.modify i f).node j = t.node j := Function.update_of_ne h ..

@[simp] theorem size_modify : (t.modify i f).size = t.size := rfl

@[simp] theorem seqSupport_modify : (t.modify i f).seqSupport = t.seqSupport := rfl

@[simp] theorem node_alloc_self : (t.alloc n).node t.size = n := Function.update_self ..

theorem node_alloc_of_ne (h : j ≠ t.size) : (t.alloc n).node j = t.node j := Function.update_of_ne h ..

@[simp] theorem size_alloc : (t.alloc n).size = t.size + 1 := rfl

@[simp] theorem seqSupport_alloc : (t.alloc n).seqSupport = t.seqSupport := rfl

/-- The loop that gives children another parent. -/
theorem node_foldl_parent (p : Option ℕ) (l : List ℕ) :
    (l.foldl (fun t c => t.modify c fun n => { n with parent := p }) t).node j =
      if j ∈ l then { t.node j with parent := p } else t.node j := by
  induction l generalizing t with
  | nil => rfl
  | cons c l ih =>
    rw [foldl_cons, ih]
    by_cases hj : j = c
    · subst hj
      simp
    · simp [node_modify_of_ne hj, hj]

theorem size_foldl_modify (l : List ℕ) : (l.foldl (fun t c => t.modify c f) t).size = t.size := by
  induction l generalizing t with
  | nil => rfl
  | cons c l ih => rw [foldl_cons, ih, size_modify]

theorem seqSupport_foldl_modify (l : List ℕ) : (l.foldl (fun t c => t.modify c f) t).seqSupport = t.seqSupport := by
  induction l generalizing t with
  | nil => rfl
  | cons c l ih => rw [foldl_cons, ih, seqSupport_modify]

end LedgerTrie

open LedgerTrie (stop ledger start node_modify_of_ne node_modify_self climb node_alloc_of_ne node_foldl_parent)

namespace Span

variable {span : Span L}

/-- The span before a place inside it. -/
theorem before_eq (h : span.start < pos) (h' : pos ≤ span.stop) :
    span.before pos = some ⟨span.start, pos, span.ledger⟩ := by
  have h1 : span.clamp span.start = span.start := by rw [clamp, max_self, min_eq_left (h.le.trans h')]
  have h2 : span.clamp pos = pos := by rw [clamp, max_eq_left h.le, min_eq_left h']
  rw [before, sub, h1, h2, if_pos h]

/-- The span from a place inside it. -/
theorem fromSpot_eq (h : span.start ≤ pos) (h' : pos < span.stop) :
    span.fromSpot pos = some ⟨pos, span.stop, span.ledger⟩ := by
  have h1 : span.clamp pos = pos := by rw [clamp, max_eq_left h, min_eq_left h'.le]
  have h2 : span.clamp span.stop = span.stop := by rw [clamp, max_eq_left (h.trans h'.le), min_self]
  rw [fromSpot, sub, h1, h2, if_pos h']

/-- There is no span from the stop on. -/
theorem fromSpot_stop (h : span.stop ≤ pos) : span.fromSpot pos = none := by
  have h1 : span.clamp pos = span.stop := by rw [clamp, min_eq_right (h.trans (le_max_left _ _))]
  have h2 : span.clamp span.stop ≤ span.stop := min_le_right _ _
  rw [fromSpot, sub, h1, if_neg (not_lt.mpr h2)]

end Span

section

variable {Id : Type} [TrieLedger L Id] [DecidableEq Id] [LawfulTrieLedger L] {t t' : LedgerTrie L} {T : List L}
  {loc : ℕ} {l : L}

/-! ### Splitting a node -/

/-- **A node is split in two**: the new one has the rest of the span, the children and the support. -/
structure Split (t : LedgerTrie L) (loc pos : ℕ) (t' : LedgerTrie L) : Prop where
  size : t'.size = t.size + 1
  seqs : t'.seqSupport = t.seqSupport
  fresh : t'.node t.size = ⟨⟨pos, t.stop loc, t.ledger loc⟩, (t.node loc).tipSupport, (t.node loc).branchSupport,
    (t.node loc).children, some loc, true⟩
  place : t'.node loc = { t.node loc with
    span := ⟨t.start loc, pos, t.ledger loc⟩, children := [t.size], tipSupport := 0 }
  child : ∀ c ∈ (t.node loc).children, t'.node c = { t.node c with parent := some t.size }
  other : ∀ i, i ≠ t.size → i ≠ loc → i ∉ (t.node loc).children → t'.node i = t.node i

omit [DecidableEq Id] [LawfulTrieLedger L] in
/-- What `insert` does with the rest of a span. -/
theorem Shape.splitSuffix (ht : Shape t) (hp : Place t l loc pos) (hlt : pos < t.stop loc) :
    ∃ t', t.splitSuffix loc ((t.node loc).span.before pos) ((t.node loc).span.fromSpot pos) = .ok t' ∧
      Split t loc pos t' := by
  have hs := hp.start_lt
  have hn : loc ≠ t.size := (ht.lt_size loc hp.live).ne
  refine ⟨_, by rw [Span.before_eq hs hlt.le, Span.fromSpot_eq hs.le hlt, LedgerTrie.splitSuffix], ?_⟩
  have hh : ∀ c ∈ (t.node loc).children, c ≠ loc ∧ c ≠ t.size := by
    intro c hc
    obtain ⟨hv, -, hcs, -⟩ := ht.child loc hp.live c hc
    refine ⟨?_, (ht.lt_size c hv).ne⟩
    rintro rfl
    omega
  have hl : loc ∉ (t.node loc).children := fun h => (hh loc h).1 rfl
  have hz : t.size ∉ (t.node loc).children := fun h => (hh t.size h).2 rfl
  refine ⟨?_, ?_, ?_, ?_, fun c hc => ?_, fun i hi hil hic => ?_⟩
  · rw [size_modify, size_foldl_modify, size_alloc]
  · rw [seqSupport_modify, seqSupport_foldl_modify, seqSupport_alloc]
  · rw [node_modify_of_ne hn.symm, node_foldl_parent, if_neg hz, node_alloc_self]
  · rw [node_modify_self, node_foldl_parent, if_neg hl, node_alloc_of_ne hn]
  · rw [node_modify_of_ne (hh c hc).1, node_foldl_parent, if_pos hc, node_alloc_of_ne (hh c hc).2]
  · rw [node_modify_of_ne hil, node_foldl_parent, if_neg hic, node_alloc_of_ne hi]

section

omit [TrieLedger L Id] [DecidableEq Id] [LawfulTrieLedger L]

/-- The other nodes keep all but their parent. -/
theorem Split.same (hs : Split t loc pos t') (hi : i ≠ t.size) (hl : i ≠ loc) :
    (t'.node i).span = (t.node i).span ∧ (t'.node i).tipSupport = (t.node i).tipSupport ∧
      (t'.node i).branchSupport = (t.node i).branchSupport ∧ (t'.node i).children = (t.node i).children ∧
      (t'.node i).live = (t.node i).live := by
  by_cases hc : i ∈ (t.node loc).children
  · rw [hs.child i hc]
    exact ⟨rfl, rfl, rfl, rfl, rfl⟩
  · rw [hs.other i hi hl hc]
    exact ⟨rfl, rfl, rfl, rfl, rfl⟩

/-- The old nodes keep where they start, their ledger and whether they are live. -/
theorem Split.old (hs : Split t loc pos t') (hi : i ≠ t.size) :
    t'.start i = t.start i ∧ t'.ledger i = t.ledger i ∧ (t'.node i).live = (t.node i).live := by
  by_cases hl : i = loc
  · rw [hl]
    simp only [start, ledger, hs.place, and_self]
  · obtain ⟨hn, -, -, -, hv⟩ := hs.same hi hl
    simp only [start, ledger, hn, hv, and_self]

end

omit [DecidableEq Id] [LawfulTrieLedger L] in
/-- Splitting a node keeps the shape. -/
theorem Shape.split (ht : Shape t) (hlv : (t.node loc).live) (hsr : t.start loc < pos)
    (hsp : pos < t.stop loc) (hs : Split t loc pos t') : Shape t' := by
  have ho := ht.lt_size loc hlv
  have hn := ht.span loc hlv
  have hl : loc ≠ 0 := by
    rintro rfl
    have := ht.root_stop
    omega
  have hsi : (0 : ℕ) ≠ t.size := (ht.lt_size 0 ht.root_live).ne
  have hold : ∀ {i}, (t.node i).live → i ≠ t.size := fun hi => (ht.lt_size _ hi).ne
  -- a live node is the new one or an old one
  have hcs : ∀ {i}, (t'.node i).live → i = t.size ∨ i ≠ t.size ∧ (t.node i).live := by
    intro i hi
    by_cases hq : i = t.size
    · exact .inl hq
    · exact .inr ⟨hq, by rw [← (hs.old hq).2.2]; exact hi⟩
  have hlv' : ∀ {i}, (t.node i).live → (t'.node i).live := fun hi => by rw [(hs.old (hold hi)).2.2]; exact hi
  have hf : t'.start t.size = pos ∧ t'.stop t.size = t.stop loc ∧ t'.ledger t.size = t.ledger loc := by
    simp only [start, stop, ledger, hs.fresh, and_self]
  have he : t'.stop loc = pos := by simp only [stop, hs.place]
  -- the parent of a node other than a child of the place
  have hpa : ∀ {i p}, (t.node i).live → (t.node p).live → i ∈ (t.node p).children → p ≠ loc →
      (t'.node i).parent = (t.node i).parent := by
    intro i p hi hp hm hne
    by_cases hil : i = loc
    · rw [hil, hs.place]
    · rw [hs.other i (hold hi) hil]
      intro hic
      have h1 := (ht.child loc hlv i hic).2.1
      have h2 := (ht.child p hp i hm).2.1
      rw [h1] at h2
      exact hne (Option.some.inj h2).symm
  have hr : (0 : ℕ) ∉ (t.node loc).children := by
    intro h
    have h1 := (ht.child loc hlv 0 h).2.1
    rw [ht.root_parent] at h1
    cases h1
  constructor
  · exact hlv' ht.root_live
  · rw [(hs.old hsi).1, ht.root_start]
  · simp only [stop, (hs.same hsi hl.symm).1]
    exact ht.root_stop
  · rw [hs.other 0 hsi hl.symm hr, ht.root_parent]
  · intro i hi
    rw [hs.size]
    rcases hcs hi with rfl | ⟨-, hi⟩
    · exact lt_succ_self _
    · exact (ht.lt_size i hi).trans (lt_succ_self _)
  · intro i hi
    rcases hcs hi with rfl | ⟨hne, hi⟩
    · rw [hf.1, hf.2.1, hf.2.2]
      exact ⟨hsp, hn.2⟩
    · rw [(hs.old hne).1, (hs.old hne).2.1]
      by_cases hil : i = loc
      · rw [hil, he]
        exact ⟨hsr, by omega⟩
      · simp only [stop, (hs.same hne hil).1]
        exact ht.span i hi
  · intro i hi
    rcases hcs hi with rfl | ⟨hne, hi⟩
    · rw [hs.fresh]
      exact ht.nodup loc hlv
    · by_cases hil : i = loc
      · rw [hil, hs.place]
        exact nodup_singleton _
      · rw [(hs.same hne hil).2.2.2.1]
        exact ht.nodup i hi
  · intro i hi c hc
    rcases hcs hi with rfl | ⟨hne, hi⟩
    · rw [hs.fresh] at hc
      obtain ⟨hcl, -, ha, hca⟩ := ht.child loc hlv c hc
      rw [hf.2.1, hf.2.2, (hs.old (hold hcl)).1, (hs.old (hold hcl)).2.1, hs.child c hc]
      exact ⟨hcl, rfl, ha, hca⟩
    · by_cases hil : i = loc
      · rw [hil, hs.place] at hc
        cases List.mem_singleton.mp hc
        rw [hil, hf.1, hf.2.2, he, (hs.old ho.ne).2.1, hs.fresh]
        exact ⟨rfl, rfl, rfl, .refl (by omega)⟩
      · rw [(hs.same hne hil).2.2.2.1] at hc
        obtain ⟨hcl, hcp, ha, hca⟩ := ht.child i hi c hc
        simp only [stop, (hs.same hne hil).1]
        rw [(hs.old (hold hcl)).1, (hs.old (hold hcl)).2.1, (hs.old hne).2.1, hpa hcl hi hc hil]
        exact ⟨hlv' hcl, hcp, ha, hca⟩
  · intro i hi c hc d hd hcd
    rcases hcs hi with rfl | ⟨hne, hi⟩
    · rw [hs.fresh] at hc hd
      have hcl := (ht.child loc hlv c hc).1
      have hdl := (ht.child loc hlv d hd).1
      rw [hf.2.1, (hs.old (hold hcl)).2.1, (hs.old (hold hdl)).2.1]
      exact ht.apart loc hlv c hc d hd hcd
    · by_cases hil : i = loc
      · rw [hil, hs.place] at hc hd
        exact absurd ((List.mem_singleton.mp hc).trans (List.mem_singleton.mp hd).symm) hcd
      · rw [(hs.same hne hil).2.2.2.1] at hc hd
        have hcl := (ht.child i hi c hc).1
        have hdl := (ht.child i hi d hd).1
        simp only [stop, (hs.same hne hil).1]
        rw [(hs.old (hold hcl)).2.1, (hs.old (hold hdl)).2.1]
        exact ht.apart i hi c hc d hd hcd
  · intro i hi hi0
    rcases hcs hi with rfl | ⟨hne, hi⟩
    · exact ⟨loc, by rw [hs.fresh], hlv' hlv, by rw [hs.place]; exact mem_cons_self⟩
    · obtain ⟨p, hp, hv, hm⟩ := ht.parent i hi hi0
      by_cases hpl : p = loc
      · rw [hpl] at hm
        refine ⟨t.size, by rw [hs.child i hm], by rw [hs.fresh], ?_⟩
        rw [hs.fresh]
        exact hm
      · refine ⟨p, by rw [hpa hi hv hm hpl, hp], hlv' hv, ?_⟩
        rw [(hs.same (hold hv) hpl).2.2.2.1]
        exact hm

/-- **Splitting a node** changes nothing that is counted. -/
theorem Counts.split (ht : Counts t T) (hv : (t.node loc).live) (hr : t.start loc < pos)
    (hsp : pos < t.stop loc) (hs : Split t loc pos t') : Counts t' T := by
  have hsh := ht.toShape.split hv hr hsp hs
  have hold : ∀ {i}, (t.node i).live → i ≠ t.size := fun hi => (ht.lt_size _ hi).ne
  have hf : t'.stop t.size = t.stop loc ∧ t'.ledger t.size = t.ledger loc := by
    simp only [stop, ledger, hs.fresh, and_self]
  have hpl : t'.stop loc = pos ∧ t'.ledger loc = t.ledger loc := by
    simp only [stop, ledger, hs.place, and_self]
  have ho : ∀ {i}, i ≠ t.size → i ≠ loc → t'.stop i = t.stop i ∧ t'.ledger i = t.ledger i := by
    intro i hi hil
    simp only [stop, ledger, (hs.same hi hil).1, and_self]
  -- a tracked ledger that reaches into the span of the place goes to its end
  have hh : ∀ l ∈ T, Agree l (t.ledger loc) (pos - 1) → IsBelow t loc l := by
    intro l hl ha
    obtain ⟨j, hj, hp⟩ := ht.covered l hl
    exact ht.isBelow_of_agree hv hj hp ⟨by omega, by omega⟩ ha
  refine ⟨hsh, fun l hl => ?_, fun i hi => ?_, fun i hi => ?_⟩
  · obtain ⟨j, hj, hp⟩ := ht.covered l hl
    by_cases hjl : j = loc
    · refine ⟨t.size, by rw [hs.fresh], ?_⟩
      rw [IsTip, hf.1, hf.2]
      rw [hjl] at hp
      exact hp
    · refine ⟨j, by rw [(hs.old (hold hj)).2.2]; exact hj, ?_⟩
      rw [IsTip, (ho (hold hj) hjl).1, (ho (hold hj) hjl).2]
      exact hp
  · by_cases his : i = t.size
    · rw [his, hs.fresh]
      refine (ht.tip loc hv).trans (countP_congr fun l _ => ?_)
      rw [decide_eq_true_iff, decide_eq_true_iff, IsTip, IsTip, hf.1, hf.2]
    · by_cases hil : i = loc
      · rw [hil, hs.place]
        symm
        rw [countP_eq_zero]
        intro l hl hp
        rw [decide_eq_true_iff, IsTip, hpl.1, hpl.2] at hp
        have he : t.stop loc - 1 ≤ seq l := (hh l hl (hp.2.mono (by omega))).1
        omega
      · rw [(hs.same his hil).2.1]
        rw [(hs.old his).2.2] at hi
        rw [ht.tip i hi, countP_isTip_congr (hs.same his hil).1]
  · by_cases his : i = t.size
    · rw [his, hs.fresh]
      refine (ht.branch loc hv).trans (countP_congr fun l _ => ?_)
      rw [decide_eq_true_iff, decide_eq_true_iff, IsBelow, IsBelow, hf.1, hf.2]
    · by_cases hil : i = loc
      · rw [hil, hs.place]
        refine (ht.branch loc hv).trans (countP_congr fun l hl => ?_)
        rw [decide_eq_true_iff, decide_eq_true_iff, IsBelow, IsBelow, hpl.1, hpl.2]
        exact ⟨fun h => h.mono (by omega), hh l hl⟩
      · rw [(hs.same his hil).2.2.1]
        rw [(hs.old his).2.2] at hi
        rw [ht.branch i hi, countP_isBelow_congr (hs.same his hil).1]

/-! ### Adding a node -/

/-- **A node without support is added** below another one, for the rest of a ledger. -/
structure Grown (t : LedgerTrie L) (loc : ℕ) (span : Span L) (t' : LedgerTrie L) : Prop where
  size : t'.size = t.size + 1
  seqs : t'.seqSupport = t.seqSupport
  fresh : t'.node t.size = ⟨span, 0, 0, [], some loc, true⟩
  place : t'.node loc = { t.node loc with children := (t.node loc).children ++ [t.size] }
  other : ∀ i, i ≠ t.size → i ≠ loc → t'.node i = t.node i

section

omit [TrieLedger L Id] [DecidableEq Id] [LawfulTrieLedger L]

/-- What `insert` does with the rest of the ledger. -/
theorem grown_addSuffix (span : Span L) (hl : loc ≠ t.size) :
    ∃ t', t.addSuffix loc (some span) = (t.size, t') ∧ Grown t loc span t' := by
  refine ⟨_, rfl, rfl, rfl, ?_, ?_, fun i hi hil => ?_⟩
  · rw [node_modify_of_ne hl.symm, node_alloc_self]
    rfl
  · rw [node_modify_self, node_alloc_of_ne hl]
  · rw [node_modify_of_ne hil, node_alloc_of_ne hi]

/-- The old nodes keep all but their children. -/
theorem Grown.old {span : Span L} (hs : Grown t loc span t') (hi : i ≠ t.size) :
    (t'.node i).span = (t.node i).span ∧ (t'.node i).tipSupport = (t.node i).tipSupport ∧
      (t'.node i).branchSupport = (t.node i).branchSupport ∧ (t'.node i).parent = (t.node i).parent ∧
      (t'.node i).live = (t.node i).live := by
  by_cases hl : i = loc
  · rw [hl, hs.place]
    exact ⟨rfl, rfl, rfl, rfl, rfl⟩
  · rw [hs.other i hi hl]
    exact ⟨rfl, rfl, rfl, rfl, rfl⟩

end

omit [DecidableEq Id] [LawfulTrieLedger L] in
/-- Adding a node keeps the shape. -/
theorem Shape.grow (ht : Shape t) (hv : (t.node loc).live) (he : t.stop loc ≤ seq l)
    (hg : Agree l (t.ledger loc) (t.stop loc - 1)) (hla : ∀ c ∈ (t.node loc).children, ¬ Agree l (t.ledger c) (t.stop loc))
    (hs : Grown t loc ⟨t.stop loc, seq l + 1, l⟩ t') : Shape t' := by
  have hold : ∀ {i}, (t.node i).live → i ≠ t.size := fun hi => (ht.lt_size _ hi).ne
  have hcs : ∀ {i}, (t'.node i).live → i = t.size ∨ i ≠ t.size ∧ (t.node i).live := by
    intro i hi
    by_cases hq : i = t.size
    · exact .inl hq
    · exact .inr ⟨hq, by rw [← (hs.old hq).2.2.2.2]; exact hi⟩
  have hl : ∀ {i}, (t.node i).live → (t'.node i).live := fun hi => by
    rw [(hs.old (hold hi)).2.2.2.2]
    exact hi
  have hn : ∀ {i}, (t.node i).live → (t'.node i).span = (t.node i).span := fun hi => (hs.old (hold hi)).1
  have hf : (t'.node t.size).span = ⟨t.stop loc, seq l + 1, l⟩ := by rw [hs.fresh]
  -- the children of an old node are its old ones, and the new one below the place
  have hh : ∀ {i c}, (t.node i).live → c ∈ (t'.node i).children → c ∈ (t.node i).children ∨ i = loc ∧ c = t.size := by
    intro i c hi hc
    by_cases hil : i = loc
    · rw [hil, hs.place] at hc
      rcases mem_append.mp hc with hc | hc
      · rw [hil]
        exact .inl hc
      · exact .inr ⟨hil, List.mem_singleton.mp hc⟩
    · rw [hs.other i (hold hi) hil] at hc
      exact .inl hc
  have hmn : ∀ {i c}, (t.node i).live → c ∈ (t.node i).children → c ∈ (t'.node i).children := by
    intro i c hi hc
    by_cases hil : i = loc
    · rw [hil] at hc
      rw [hil, hs.place]
      exact mem_append_left _ hc
    · rw [hs.other i (hold hi) hil]
      exact hc
  constructor
  · exact hl ht.root_live
  · simp only [start, hn ht.root_live]
    exact ht.root_start
  · simp only [stop, hn ht.root_live]
    exact ht.root_stop
  · rw [(hs.old (hold ht.root_live)).2.2.2.1, ht.root_parent]
  · intro i hi
    rw [hs.size]
    rcases hcs hi with rfl | ⟨-, hi⟩
    · exact lt_succ_self _
    · exact (ht.lt_size i hi).trans (lt_succ_self _)
  · intro i hi
    rcases hcs hi with rfl | ⟨-, hi⟩
    · simp only [start, stop, ledger, hf]
      exact ⟨lt_succ_of_le he, le_rfl⟩
    · simp only [start, stop, ledger, hn hi]
      exact ht.span i hi
  · intro i hi
    rcases hcs hi with rfl | ⟨hne, hi⟩
    · rw [hs.fresh]
      exact nodup_nil
    · by_cases hil : i = loc
      · rw [hil, hs.place]
        refine nodup_append.mpr ⟨ht.nodup loc hv, nodup_singleton _, fun c hc d hd => ?_⟩
        rw [List.mem_singleton.mp hd]
        exact hold (ht.child loc hv c hc).1
      · rw [hs.other i hne hil]
        exact ht.nodup i hi
  · intro i hi c hc
    rcases hcs hi with rfl | ⟨-, hi⟩
    · rw [hs.fresh] at hc
      cases hc
    · rcases hh hi hc with hc | ⟨rfl, rfl⟩
      · obtain ⟨hcl, hcp, ha, hca⟩ := ht.child i hi c hc
        simp only [start, stop, ledger, hn hi, hn hcl]
        rw [(hs.old (hold hcl)).2.2.2.1]
        exact ⟨hl hcl, hcp, ha, hca⟩
      · simp only [start, stop, ledger, hn hi, hs.fresh, true_and]
        exact hg
  · intro i hi c hc d hd hcd
    rcases hcs hi with rfl | ⟨-, hi⟩
    · rw [hs.fresh] at hc
      cases hc
    · simp only [stop, ledger, hn hi]
      rcases hh hi hc with hc | ⟨rfl, rfl⟩
      · have hcl := (ht.child i hi c hc).1
        rw [hn hcl]
        rcases hh hi hd with hd | ⟨rfl, rfl⟩
        · rw [hn (ht.child i hi d hd).1]
          exact ht.apart i hi c hc d hd hcd
        · rw [hf]
          exact fun h => hla c hc h.symm
      · rcases hh hi hd with hd | ⟨-, rfl⟩
        · rw [hn (ht.child i hi d hd).1, hf]
          exact hla d hd
        · exact absurd rfl hcd
  · intro i hi hi0
    rcases hcs hi with rfl | ⟨hne, hi⟩
    · refine ⟨loc, by rw [hs.fresh], hl hv, ?_⟩
      rw [hs.place]
      exact mem_append_right _ mem_cons_self
    · obtain ⟨p, hp, hpl, hm⟩ := ht.parent i hi hi0
      exact ⟨p, by rw [(hs.old hne).2.2.2.1, hp], hl hpl, hmn hpl hm⟩

/-- **Adding a node without support** changes nothing that is counted. -/
theorem Counts.grow (ht : Counts t T) (hv : (t.node loc).live) (he : t.stop loc ≤ seq l)
    (ha : Agree l (t.ledger loc) (t.stop loc - 1)) (hla : ∀ c ∈ (t.node loc).children, ¬ Agree l (t.ledger c) (t.stop loc))
    (hs : Grown t loc ⟨t.stop loc, seq l + 1, l⟩ t') : Counts t' T := by
  have hold : ∀ {i}, (t.node i).live → i ≠ t.size := fun hi => (ht.lt_size _ hi).ne
  have hpl : Place t l loc (t.stop loc) :=
    ⟨hv, (ht.span loc hv).1, le_rfl, ha, fun h => absurd h (lt_irrefl _), fun _ => hla⟩
  -- no tracked ledger goes on where the new one does
  have hn : ∀ l' ∈ T, ¬ Agree l' l (seq l) := by
    intro l' hl h
    obtain ⟨j, hj, hp⟩ := ht.covered l' hl
    have hsp := hp.1
    have hle := h.1
    exact ht.not_agree hpl hj (by omega) ((h.symm.mono he).trans (hp.2.mono (by omega)))
  refine ⟨ht.toShape.grow hv he ha hla hs, fun l' hl => ?_, fun i hi => ?_, fun i hi => ?_⟩
  · obtain ⟨j, hj, hp⟩ := ht.covered l' hl
    refine ⟨j, by rw [(hs.old (hold hj)).2.2.2.2]; exact hj, ?_⟩
    simp only [IsTip, stop, ledger, (hs.old (hold hj)).1]
    exact hp
  · by_cases his : i = t.size
    · rw [his, hs.fresh]
      symm
      rw [countP_eq_zero]
      intro l' hl hp
      simp only [decide_eq_true_iff, IsTip, stop, ledger, hs.fresh] at hp
      refine hn l' hl ?_
      rw [succ.inj hp.1]
      exact hp.2
    · rw [(hs.old his).2.2.2.2] at hi
      rw [(hs.old his).2.1, ht.tip i hi, countP_isTip_congr (hs.old his).1]
  · by_cases his : i = t.size
    · rw [his, hs.fresh]
      symm
      rw [countP_eq_zero]
      intro l' hl hb
      simp only [decide_eq_true_iff, IsBelow, stop, ledger, hs.fresh, Nat.add_sub_cancel] at hb
      exact hn l' hl hb
    · rw [(hs.old his).2.2.2.2] at hi
      rw [(hs.old his).2.2.1, ht.branch i hi, countP_isBelow_congr (hs.old his).1]

/-! ### Changing the support -/

/-- The supports may differ, all else of the nodes is the same. -/
structure SameTree (t t' : LedgerTrie L) : Prop where
  size : t'.size = t.size
  span : ∀ i, (t'.node i).span = (t.node i).span
  children : ∀ i, (t'.node i).children = (t.node i).children
  parent : ∀ i, (t'.node i).parent = (t.node i).parent
  live : ∀ i, (t'.node i).live = (t.node i).live

omit [DecidableEq Id] [LawfulTrieLedger L] in
theorem SameTree.shape (hs : SameTree t t') (ht : Shape t) : Shape t' := by
  constructor <;> simp only [start, stop, ledger, hs.size, hs.span, hs.children, hs.parent, hs.live]
  · exact ht.root_live
  · exact ht.root_start
  · exact ht.root_stop
  · exact ht.root_parent
  · exact ht.lt_size
  · exact ht.span
  · exact ht.nodup
  · exact ht.child
  · exact ht.apart
  · exact ht.parent

section

omit [TrieLedger L Id] [DecidableEq Id] [LawfulTrieLedger L]

theorem SameTree.above_iff (hs : SameTree t t') : Above t' i j ↔ Above t i j := by
  simp only [Above, hs.children, hs.live]

theorem SameTree.trans {t'' : LedgerTrie L} (h : SameTree t t') (h' : SameTree t' t'') : SameTree t t'' :=
  ⟨h'.size.trans h.size, fun i => (h'.span i).trans (h.span i), fun i => (h'.children i).trans (h.children i),
    fun i => (h'.parent i).trans (h.parent i), fun i => (h'.live i).trans (h.live i)⟩

theorem sameTree_modify {f : Node L → Node L}
    (h : ∀ n, (f n).span = n.span ∧ (f n).children = n.children ∧ (f n).parent = n.parent ∧ (f n).live = n.live) :
    SameTree t (t.modify i f) := by
  have hn : ∀ j, (t.modify i f).node j = f (t.node j) ∨ (t.modify i f).node j = t.node j := by
    intro j
    by_cases hj : j = i
    · rw [hj]
      exact .inl node_modify_self
    · exact .inr (node_modify_of_ne hj)
  refine ⟨rfl, fun j => ?_, fun j => ?_, fun j => ?_, fun j => ?_⟩ <;> rcases hn j with hj | hj <;> rw [hj]
  · exact (h _).1
  · exact (h _).2.1
  · exact (h _).2.2.1
  · exact (h _).2.2.2

/-- **The branch support of a node and of all above it** has changed. -/
structure Climbed (t : LedgerTrie L) (i : ℕ) (g : ℕ → ℕ) (t' : LedgerTrie L) : Prop extends SameTree t t' where
  seqs : t'.seqSupport = t.seqSupport
  tip : ∀ j, (t'.node j).tipSupport = (t.node j).tipSupport
  above : ∀ j, Above t j i → (t'.node j).branchSupport = g (t.node j).branchSupport
  other : ∀ j, ¬ Above t j i → (t'.node j).branchSupport = (t.node j).branchSupport

/-- The nodes that start earlier than a node. -/
def earlier (t : LedgerTrie L) (i : ℕ) : Finset ℕ := (Finset.range t.size).filter fun j => t.start j < t.start i

theorem earlier_ssubset (hp : p < t.size) (hl : t.start p < t.start i) : earlier t p ⊂ earlier t i := by
  rw [ssubset_iff_of_subset]
  · refine ⟨p, ?_, ?_⟩
    · rw [earlier, Finset.mem_filter, Finset.mem_range]
      exact ⟨hp, hl⟩
    · rw [earlier, Finset.mem_filter]
      exact fun h => lt_irrefl _ h.2
  · intro j hj
    rw [earlier, Finset.mem_filter] at hj ⊢
    exact ⟨hj.1, hj.2.trans hl⟩

end

section

omit [DecidableEq Id] [LawfulTrieLedger L]

/-- A loop from a live node up has turns enough, if it has as many as there are nodes. -/
theorem Shape.card_earlier_lt (ht : Shape t) (hi : (t.node i).live) : (earlier t i).card < t.size := by
  have hs : earlier t i ⊂ range t.size := by
    refine (ssubset_iff_of_subset (filter_subset _ _)).mpr ?_
    exact ⟨i, Finset.mem_range.mpr (ht.lt_size i hi), fun h => lt_irrefl _ (Finset.mem_filter.mp h).2⟩
  simpa using card_lt_card hs

/-- What is above a node with a parent: the node, and what is above the parent. -/
theorem Shape.above_iff (ht : Shape t) (hp : (t.node p).live) (hm : i ∈ (t.node p).children) :
    Above t j i ↔ j = i ∨ Above t j p := by
  constructor
  · intro h
    cases h with
    | refl => exact .inl rfl
    | @tail q _ hq hs =>
      have h1 := (ht.child p hp i hm).2.1
      have h2 := (ht.child q hs.2 i hs.1).2.1
      rw [h1] at h2
      rw [Option.some.inj h2]
      exact .inr hq
  · rintro (rfl | h)
    · exact .refl
    · exact h.tail ⟨hm, hp⟩

end

omit [DecidableEq Id] in
/-- **The loop up the tree** changes the branch support of all nodes on its way. -/
theorem Shape.climb (ht : Shape t) (op : ℕ → Run ℕ) {g : ℕ → ℕ} (hi : (t.node i).live)
    (ho : ∀ j, Above t j i → op (t.node j).branchSupport = .ok (g (t.node j).branchSupport))
    (hu : (earlier t i).card < tn) : ∃ t', climb op tn (some i) t = .ok t' ∧ Climbed t i g t' := by
  induction tn generalizing t i with
  | zero => omega
  | succ tn ih =>
    let t1 := t.modify i fun n => { n with branchSupport := g n.branchSupport }
    have hs : SameTree t t1 := sameTree_modify fun n => ⟨rfl, rfl, rfl, rfl⟩
    have hti : ∀ j, (t1.node j).tipSupport = (t.node j).tipSupport := by
      intro j
      by_cases hj : j = i
      · rw [hj, node_modify_self]
      · rw [node_modify_of_ne hj]
    have hb : ∀ j, j ≠ i → (t1.node j).branchSupport = (t.node j).branchSupport := fun j hj => by
      rw [node_modify_of_ne hj]
    have hf : (t1.node i).branchSupport = g (t.node i).branchSupport := by rw [node_modify_self]
    rw [climb, ho i .refl]
    change ∃ t', climb op tn (t.node i).parent t1 = .ok t' ∧ _
    by_cases hi0 : i = 0
    · -- the root ends the loop, and only the root is above it
      have ha : ∀ j, Above t j 0 → j = 0 := by
        intro j h
        cases h with
        | refl => rfl
        | @tail q _ _ hsp =>
          have h2 := (ht.child q hsp.2 0 hsp.1).2.1
          rw [ht.root_parent] at h2
          cases h2
      subst hi0
      rw [ht.root_parent, climb]
      refine ⟨t1, rfl, hs, rfl, hti, fun j hj => ?_, fun j hj => ?_⟩
      · rw [ha j hj]
        exact hf
      · exact hb j fun h => hj (h ▸ .refl)
    · obtain ⟨p, hp, hl, hm⟩ := ht.parent i hi hi0
      obtain ⟨-, -, hsr, -⟩ := ht.child p hl i hm
      have hsn := (ht.span p hl).1
      -- the node itself is not met again
      have hn : ¬ Above t i p := by
        intro h
        have hle := (ht.of_above hl h).2.1
        omega
      have hne : ∀ {j}, Above t j p → j ≠ i := fun h hq => hn (hq ▸ h)
      have hc := card_lt_card (earlier_ssubset (i := i) (ht.lt_size p hl) (by omega))
      obtain ⟨t', hr, hcl⟩ := ih (t := t1) (i := p) (hs.shape ht) (by rw [hs.live]; exact hl) (fun j hj => by
          rw [hs.above_iff] at hj
          rw [hb j (hne hj)]
          exact ho j (hj.tail ⟨hm, hl⟩))
        (by
          have he : earlier t1 p = earlier t p := by
            simp only [earlier, start, hs.span, hs.size]
          rw [he]
          omega)
      rw [hp]
      refine ⟨t', hr, hs.trans hcl.toSameTree, hcl.seqs, fun j => (hcl.tip j).trans (hti j),
        fun j hj => ?_, fun j hj => ?_⟩
      · rcases (ht.above_iff hl hm).mp hj with rfl | hj
        · rw [hcl.other j fun h => hn (hs.above_iff.mp h), hf]
        · rw [hcl.above j (hs.above_iff.mpr hj), hb j (hne hj)]
      · rw [ht.above_iff hl hm, not_or] at hj
        rw [hcl.other j fun h => hj.2 (hs.above_iff.mp h), hb j hj.1]

omit [DecidableEq Id] in
/-- Ledgers with one tip count there only. -/
theorem Shape.countP_isTip [DecidableEq Id] (ht : Shape t) {R : List L} (hi : (t.node i).live) (hj : (t.node j).live)
    (hR : ∀ r ∈ R, IsTip t j r) : (R.countP fun l => IsTip t i l) = if i = j then R.length else 0 := by
  split_ifs with h
  · rw [countP_eq_length]
    intro r hr
    rw [decide_eq_true_iff, h]
    exact hR r hr
  · rw [countP_eq_zero]
    intro r hr hp
    rw [decide_eq_true_iff] at hp
    exact h (ht.tip_unique hi hj hp (hR r hr))

open Classical in
/-- Ledgers with one tip count in the branches of the nodes above it. -/
theorem Shape.countP_isBelow (ht : Shape t) {R : List L} (hi : (t.node i).live) (hj : (t.node j).live)
    (hR : ∀ r ∈ R, IsTip t j r) : (R.countP fun l => IsBelow t i l) = if Above t i j then R.length else 0 := by
  split_ifs with h
  · rw [countP_eq_length]
    intro r hr
    rw [decide_eq_true_iff, ht.isBelow_iff hi hj (hR r hr)]
    exact h
  · rw [countP_eq_zero]
    intro r hr hb
    rw [decide_eq_true_iff, ht.isBelow_iff hi hj (hR r hr)] at hb
    exact h hb

/-- **Raising the support** of a node and of all above it by new ledgers. -/
theorem Counts.raise (ht : Counts t T) {R : List L} (hj : (t.node j).live) (hR : ∀ r ∈ R, IsTip t j r)
    (hs : SameTree t t') (hp : ∀ i, (t'.node i).tipSupport = (t.node i).tipSupport + if i = j then R.length else 0)
    (ha : ∀ i, Above t i j → (t'.node i).branchSupport = (t.node i).branchSupport + R.length)
    (ho : ∀ i, ¬ Above t i j → (t'.node i).branchSupport = (t.node i).branchSupport) : Counts t' (R ++ T) := by
  refine ⟨hs.shape ht.toShape, fun l hl => ?_, fun i hi => ?_, fun i hi => ?_⟩
  · have hc : ∃ i, (t.node i).live ∧ IsTip t i l := by
      rcases mem_append.mp hl with hl | hl
      · exact ⟨j, hj, hR l hl⟩
      · exact ht.covered l hl
    simp only [IsTip, stop, ledger, hs.span, hs.live]
    exact hc
  · rw [hs.live] at hi
    rw [hp, ht.tip i hi, countP_isTip_congr (hs.span i), countP_append, ht.countP_isTip hi hj hR, add_comm]
  · rw [hs.live] at hi
    rw [countP_isBelow_congr (hs.span i), countP_append, ht.countP_isBelow hi hj hR, ← ht.branch i hi]
    split_ifs with h
    · rw [ha i h, add_comm]
    · rw [ho i h, zero_add]

section

omit [DecidableEq Id] [LawfulTrieLedger L]

/-- The support at a sequence number is raised with that of the ledgers there. -/
theorem SeqCounts.raise {support : Std.ExtTreeMap ℕ ℕ} (h : SeqCounts support T) (hn : 0 < n) :
    SeqCounts (support.insert (seq l) (support[seq l]?.getD 0 + n)) (replicate n l ++ T) := by
  intro s
  rw [countP_append, countP_replicate, Std.ExtTreeMap.getElem?_insert]
  have hs := h s
  by_cases he : seq l = s
  · subst he
    rw [Nat.compare_eq_eq.mpr rfl, if_pos rfl, hs]
    simp only [decide_true, if_true]
    have hp : n + T.countP (fun k => seq k = seq l) ≠ 0 := by omega
    rw [if_neg hp, add_comm n]
    split_ifs with h0
    · rw [h0]
      rfl
    · rw [Option.getD_some]
  · rw [if_neg (by rwa [Nat.compare_eq_eq]), hs]
    simp only [he, decide_false, Bool.false_eq_true, if_false, zero_add]

/-! ### Insertion -/

theorem addU32_eq {a b : ℕ} (h : a + b < 2 ^ 32) : addU32 a b = .ok (a + b) := if_pos h

end

/-- The first part of `insert` leaves a node that stops where the ledger leaves the trie. -/
theorem Tracks.splitSuffix (ht : Tracks t T) (hp : Place t l loc pos) :
    ∃ t', t.splitSuffix loc ((t.node loc).span.before pos) ((t.node loc).span.fromSpot pos) = .ok t' ∧
      Counts t' T ∧ t'.seqSupport = t.seqSupport ∧ (t'.node loc).live ∧ t'.stop loc = pos ∧
      Agree l (t'.ledger loc) (pos - 1) ∧ (∀ c ∈ (t'.node loc).children, ¬ Agree l (t'.ledger c) pos) ∧
      (∀ i, (t'.node i).live → i ≠ 0 → i ≠ loc → Needed t' i) ∧
      (loc = 0 ∨ Needed t' loc ∨ (t'.node loc).children ≠ []) := by
  by_cases hlt : pos < t.stop loc
  · obtain ⟨t', hr, hs⟩ := ht.toShape.splitSuffix hp hlt
    have ho := ht.toCounts.split hp.live hp.start_lt hlt hs
    have hn : loc ≠ t.size := (ht.lt_size loc hp.live).ne
    have hl : loc ≠ 0 := by
      rintro rfl
      have := ht.root_stop
      have := hp.start_lt
      omega
    have hsp : t'.stop loc = pos := by simp only [stop, hs.place]
    refine ⟨t', hr, ho, hs.seqs, by rw [(hs.old hn).2.2]; exact hp.live, hsp,
      by rw [(hs.old hn).2.1]; exact hp.agree, fun c hc => ?_, fun i hi hi0 hil => ?_, ?_⟩
    · rw [hs.place] at hc
      cases List.mem_singleton.mp hc
      simp only [ledger, hs.fresh]
      exact hp.leaves hlt
    · by_cases his : i = t.size
      · rw [his, Needed, hs.fresh]
        exact ht.needed loc hp.live hl
      · rw [(hs.old his).2.2] at hi
        rw [Needed, (hs.same his hil).2.1, (hs.same his hil).2.2.2.1]
        exact ht.needed i hi hi0
    · rw [hs.place]
      exact .inr (.inr (cons_ne_nil _ _))
  · have hsp : t.stop loc = pos := le_antisymm (not_lt.mp hlt) hp.le_stop
    refine ⟨t, ?_, ht.toCounts, rfl, hp.live, hsp, hp.agree, hp.last hsp.symm, fun i hi hi0 _ => ht.needed i hi hi0, ?_⟩
    · rw [Span.fromSpot_stop (not_lt.mp hlt), LedgerTrie.splitSuffix]
    · by_cases h0 : loc = 0
      · exact .inl h0
      · exact .inr (.inl (ht.needed loc hp.live h0))

/-- The second part of `insert` leaves a node with the ledger as its tip. -/
theorem Counts.addSuffix (ht : Counts t T) (hv : (t.node loc).live) (ha : Agree l (t.ledger loc) (t.stop loc - 1))
    (hla : ∀ c ∈ (t.node loc).children, ¬ Agree l (t.ledger c) (t.stop loc))
    (hne : ∀ i, (t.node i).live → i ≠ 0 → i ≠ loc → Needed t i)
    (hl : loc = 0 ∨ Needed t loc ∨ (t.node loc).children ≠ []) :
    ∃ inc t', t.addSuffix loc ((Span.fromLedger l 0).fromSpot (t.stop loc)) = (inc, t') ∧ Counts t' T ∧
      t'.seqSupport = t.seqSupport ∧ (t'.node inc).live ∧ IsTip t' inc l ∧
      ∀ i, (t'.node i).live → i ≠ 0 → i ≠ inc → Needed t' i := by
  have hle : t.stop loc - 1 ≤ seq l := ha.1
  by_cases he : t.stop loc ≤ seq l
  · have hf : (Span.fromLedger l 0).fromSpot (t.stop loc) = some ⟨t.stop loc, seq l + 1, l⟩ :=
      Span.fromSpot_eq (zero_le _) (lt_succ_of_le he)
    have hz := (ht.lt_size loc hv).ne
    obtain ⟨t', hr, hs⟩ := grown_addSuffix ⟨t.stop loc, seq l + 1, l⟩ hz
    rw [hf]
    refine ⟨t.size, t', hr, ht.grow hv he ha hla hs, hs.seqs, ?_, ?_, fun i hi hi0 hin => ?_⟩
    · rw [hs.fresh]
    · simp only [IsTip, stop, ledger, hs.fresh, true_and]
      exact .refl le_rfl
    · rw [(hs.old hin).2.2.2.2] at hi
      by_cases hil : i = loc
      · subst hil
        rw [Needed, hs.place]
        rcases hl with h0 | hn | hc
        · exact absurd h0 hi0
        · refine hn.imp id fun h => ?_
          rw [length_append]
          omega
        · have hp := length_pos_iff.mpr hc
          refine .inr ?_
          rw [length_append, length_singleton]
          omega
      · rw [Needed, hs.other i hin hil]
        exact hne i hi hi0 hil
  · have hq : t.stop loc = seq l + 1 := by omega
    have hf : (Span.fromLedger l 0).fromSpot (t.stop loc) = none := Span.fromSpot_stop (by rw [hq]; exact le_rfl)
    rw [hf]
    refine ⟨loc, t, rfl, ht, rfl, hv, ⟨hq, ?_⟩, hne⟩
    rw [hq] at ha
    exact ha

/-- **Insertion.** The trie then tracks the ledger as often as `insert` was told to. -/
theorem Tracks.insert (ht : Tracks t T) (hn : 0 < n) (hft : T.length + n < 2 ^ 32) (l : L) :
    ∃ t', t.insert l n = .ok t' ∧ Tracks t' (replicate n l ++ T) := by
  obtain ⟨loc, pos, hf, hp⟩ := ht.find l
  obtain ⟨t1, hsp, hc1, hq, hv, hst, ha, hla, hne, hlo⟩ := Tracks.splitSuffix ht hp
  subst hst
  obtain ⟨inc, t2, had, hc2, hseqs2, hl, htip2, hd⟩ := hc1.addSuffix hv ha hla hne hlo
  have hu : ∀ {s : ℕ} {p : L → Bool}, s = T.countP p → addU32 s n = .ok (s + n) := by
    intro s p hs
    refine addU32_eq ?_
    have := T.countP_le_length (p := p)
    omega
  let t3 := t2.modify inc fun m => { m with tipSupport := (t2.node inc).tipSupport + n }
  have hsa : SameTree t2 t3 := sameTree_modify fun _ => ⟨rfl, rfl, rfl, rfl⟩
  have hb : ∀ i, (t3.node i).branchSupport = (t2.node i).branchSupport := by
    intro i
    by_cases hi : i = inc
    · rw [hi, node_modify_self]
    · rw [node_modify_of_ne hi]
  have hti : ∀ i, (t3.node i).tipSupport = (t2.node i).tipSupport + if i = inc then n else 0 := by
    intro i
    by_cases hi : i = inc
    · rw [hi, node_modify_self, if_pos rfl]
    · rw [node_modify_of_ne hi, if_neg hi, add_zero]
  have hh := hsa.shape hc2.toShape
  have hli : (t3.node inc).live := by rw [hsa.live, hl]
  obtain ⟨t4, hcl, h4⟩ := hh.climb (addU32 · n) (g := (· + n)) hli (fun j hj => by
    have hj' := (hc2.of_above hl (hsa.above_iff.mp hj)).1
    rw [hb]
    exact hu (hc2.branch j hj')) (hh.card_earlier_lt hli)
  have hse : t4.seqSupport = t.seqSupport := h4.seqs.trans (hseqs2.trans hq)
  have he : addU32 (t4.seqSupport[seq l]?.getD 0) n = .ok (t4.seqSupport[seq l]?.getD 0 + n) := by
    refine hu (p := fun k => seq k = seq l) ?_
    rw [hse, ht.seqs (seq l)]
    split_ifs with h0
    · exact h0.symm
    · rfl
  refine ⟨{ t4 with seqSupport := t4.seqSupport.insert (seq l) (t4.seqSupport[seq l]?.getD 0 + n) }, ?_, ?_, ?_, ?_⟩
  · rw [LedgerTrie.insert, hf]
    simp only [bind, Except.bind, hsp, had, hu (hc2.tip inc hl)]
    rw [hcl]
    simp only [he]
    rfl
  · have hm : SameTree t2 t4 := hsa.trans h4.toSameTree
    have ho : Counts t4 (replicate n l ++ T) := by
      refine hc2.raise hl (fun r hr => ?_) hm (fun i => ?_) (fun i hi => ?_) fun i hi => ?_
      · rw [eq_of_mem_replicate hr]
        exact htip2
      · rw [h4.tip, hti, length_replicate]
      · rw [h4.above i (hsa.above_iff.mpr hi), hb, length_replicate]
      · rw [h4.other i fun h => hi (hsa.above_iff.mp h), hb]
    exact ⟨⟨ho.root_live, ho.root_start, ho.root_stop, ho.root_parent, ho.lt_size,
      ho.span, ho.nodup, ho.child, ho.apart, ho.parent⟩, ho.covered, ho.tip,
      ho.branch⟩
  · change SeqCounts (t4.seqSupport.insert (seq l) (t4.seqSupport[seq l]?.getD 0 + n)) _
    rw [hse]
    exact ht.seqs.raise hn
  · intro i hi hi0
    have hm : SameTree t2 t4 := hsa.trans h4.toSameTree
    rw [Needed, h4.tip, hti, hm.children]
    by_cases hc : i = inc
    · rw [if_pos hc]
      exact .inl (by omega)
    · rw [if_neg hc, add_zero]
      exact hd i (by rw [← hm.live]; exact hi) hi0 hc

/-! ### The bound -/

omit [DecidableEq Id] [LawfulTrieLedger L] in
/-- A loop up the tree that returns has changed the support of all nodes on its way. -/
theorem Shape.climb_ok (ht : Shape t) {op : ℕ → Run ℕ} (hi : (t.node i).live)
    (hr : LedgerTrie.climb op tn (some i) t = .ok t') (hj : Above t j i) :
    ∃ v, op (t.node j).branchSupport = .ok v := by
  induction tn generalizing t i with
  | zero => cases hr
  | succ tn ih =>
    rw [LedgerTrie.climb] at hr
    cases ho : op (t.node i).branchSupport with
    | error e =>
      rw [ho] at hr
      cases hr
    | ok v =>
      rw [ho] at hr
      by_cases hji : j = i
      · rw [hji]
        exact ⟨v, ho⟩
      · have hs : SameTree t (t.modify i fun n => { n with branchSupport := v }) :=
          sameTree_modify fun _ => ⟨rfl, rfl, rfl, rfl⟩
        by_cases hi0 : i = 0
        · cases hj with
          | refl => exact absurd rfl hji
          | @tail q _ _ hsp =>
            have ha := (ht.child q hsp.2 i hsp.1).2.1
            rw [hi0, ht.root_parent] at ha
            cases ha
        · obtain ⟨p, hp, hl, hm⟩ := ht.parent i hi hi0
          rw [hp] at hr
          have hjp : Above t j p := ((ht.above_iff hl hm).mp hj).resolve_left hji
          obtain ⟨w, hw⟩ := ih (hs.shape ht) (by rw [hs.live]; exact hl) hr (hs.above_iff.mpr hjp)
          rw [node_modify_of_ne hji] at hw
          exact ⟨w, hw⟩

/-- **An insertion that returns** has not passed the bound: the root counts all that is tracked. -/
theorem Tracks.fits_of_insert (ht : Tracks t T) (hr : t.insert l n = .ok t') : T.length + n < 2 ^ 32 := by
  obtain ⟨loc, pos, hf, hp⟩ := ht.find l
  obtain ⟨t1, hsp, hc1, -, hli, hs, ha, hla, hn, ho⟩ := Tracks.splitSuffix ht hp
  subst hs
  obtain ⟨inc, t2, hd, hc, -, hl, -, -⟩ := hc1.addSuffix hli ha hla hn ho
  rw [LedgerTrie.insert, hf] at hr
  simp only [bind, Except.bind, hsp, hd] at hr
  cases hi : addU32 (t2.node inc).tipSupport n with
  | error e =>
    rw [hi] at hr
    cases hr
  | ok v =>
    rw [hi] at hr
    simp only at hr
    have hm : SameTree t2 (t2.modify inc fun m => { m with tipSupport := v }) :=
      sameTree_modify fun _ => ⟨rfl, rfl, rfl, rfl⟩
    cases hcl : climb (addU32 · n) (t2.modify inc fun m => { m with tipSupport := v }).size (some inc)
        (t2.modify inc fun m => { m with tipSupport := v }) with
    | error e =>
      rw [hcl] at hr
      cases hr
    | ok t3 =>
      have hrt : Above t2 0 inc := by
        refine hc.above_of_agree hc.root_live hl ?_ ?_
        · have := hc.root_stop
          have := (hc.span inc hl).1
          omega
        · rw [hc.root_stop]
          exact agree_zero _ _
      obtain ⟨w, hw⟩ := (hm.shape hc.toShape).climb_ok (by rw [hm.live]; exact hl) hcl (hm.above_iff.mpr hrt)
      have hb : ((t2.modify inc fun m => { m with tipSupport := v }).node 0).branchSupport = T.length := by
        rw [← hc.branch_root]
        by_cases h0 : 0 = inc
        · rw [← h0, node_modify_self]
        · rw [node_modify_of_ne h0]
      rw [hb, addU32] at hw
      split_ifs at hw with hlt
      exact hlt

end

end Xrpld.Consensus
