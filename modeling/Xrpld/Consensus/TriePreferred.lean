import Xrpld.Consensus.TrieCheck

/-!
# The preferred ledger

`get_preferred` walks down the compressed trie. What it is meant to find is said here over the
tracked ledgers alone: from the genesis ledger on, one sequence number at a time, the walk goes to
the next ledger with the most support, as long as its margin exceeds the support that may still go
elsewhere.

## The model

`next` is one step of that walk, `Preferred` where it ends.

## What is proved

`Tracks.getPreferred`: `get_preferred` returns where the walk ends. `preferred_of_runOps`: this
holds after every sequence of calls that keep the whole support in a `u32`, so the answer depends on
what is tracked only, and not on the order of the calls. `preferred_of_majority`: the walk does not leave a ledger
that more than half of what is tracked supports.
-/

namespace Xrpld.Consensus

open TrieLedger Relation List Finset LedgerTrie

/-! ### The walk over ancestors -/

variable {L Id : Type} {us bd iss : ℕ}

section

variable [TrieLedger L Id] [LinearOrder Id] (T : List L)

/-- The tracked ledgers that are a ledger or descend from it. -/
def supportAt (s : ℕ) (id : Id) : ℕ := T.countP fun k => s ≤ seq k ∧ ancestor k s = id

/-- The ids that come next after an ancestor of tracked ledgers. -/
def nextIds (s : ℕ) (id : Id) : Finset Id :=
  ((T.filter fun k => s < seq k ∧ ancestor k s = id).map fun k => ancestor k (s + 1)).toFinset

/-- The ledgers that come next, with their support, the best first: the one with the most support, and of those the one
with the largest id. -/
def ranked (s : ℕ) (id : Id) : List (ℕ ×ₗ Id) :=
  ((nextIds T s id).image fun c => toLex (supportAt T (s + 1) c, c)).sort (· ≥ ·)

/-- The tip support below a sequence number, or below the largest one issued. -/
def uncommitted (largestIssued s : ℕ) : ℕ := T.countP fun k => seq k < max s largestIssued

omit [TrieLedger L Id] in
/-- The margin of the best: what it has more than the second, plus one if its id is the larger one. -/
def marginOf : List (ℕ ×ₗ Id) → ℕ
  | [] => 0
  | [best] => (ofLex best).1
  | best :: second :: _ =>
    if (ofLex second).2 < (ofLex best).2 then (ofLex best).1 - (ofLex second).1 + 1
    else (ofLex best).1 - (ofLex second).1

/-- **One step**: to the best ledger that comes next, if its margin exceeds the uncommitted support or there is none. -/
def next (largestIssued : ℕ) (a : ℕ × Id) : Option (ℕ × Id) :=
  match ranked T a.1 a.2 with
  | [] => none
  | best :: others =>
    if uncommitted T largestIssued (a.1 + 1) < marginOf (best :: others) ∨ uncommitted T largestIssued (a.1 + 1) = 0
    then some (a.1 + 1, (ofLex best).2) else none

/-- The walk goes from one ledger to another. -/
def Walk (largestIssued : ℕ) : ℕ × Id → ℕ × Id → Prop :=
  ReflTransGen fun a b => next T largestIssued a = some b

/-- **Where the walk from the genesis ledger ends.** -/
def Preferred (largestIssued : ℕ) (a : ℕ × Id) : Prop :=
  Walk T largestIssued (0, ownId (genesis : L)) a ∧ next T largestIssued a = none

variable {T T' : List L} {a b : ℕ × Id}

/-- The walk ends at one ledger only. -/
theorem Preferred.unique (ha : Preferred T iss a) (hb : Preferred T iss b) : a = b := by
  have he : ∀ {a b}, next T iss a = none → Walk T iss a b → a = b := by
    intro a b hn h
    rcases ReflTransGen.cases_head h with rfl | ⟨c, hc, -⟩
    · rfl
    · rw [hn] at hc
      cases hc
  have hr : Relator.RightUnique fun a b => next T iss a = some b := fun a b c hb hc =>
    Option.some.inj (hb.symm.trans hc)
  rcases ReflTransGen.total_of_right_unique hr ha.1 hb.1 with h | h
  · exact he ha.2 h
  · exact (he hb.2 h).symm

/-- The steps depend on what is tracked only. -/
theorem next_perm (h : T.Perm T') : next T iss = next T' iss := by
  have hs : ∀ s id, supportAt T s id = supportAt T' s id := fun s id => h.countP_eq _
  have hi : ∀ s id, nextIds T s id = nextIds T' s id := fun s id =>
    toFinset_eq_of_perm _ _ ((h.filter _).map _)
  have hr : ∀ s id, ranked T s id = ranked T' s id := by
    intro s id
    simp only [ranked, hs, hi]
  have hu : ∀ s, uncommitted T iss s = uncommitted T' iss s := fun s => h.countP_eq _
  funext a
  simp only [next, hr, hu]

theorem Preferred.perm (ha : Preferred T iss a) (h : T.Perm T') : Preferred T' iss a := by
  rw [Preferred, Walk, next_perm h] at ha
  exact ha

/-- A step goes to a ledger with the most support of those that come next. -/
theorem next_eq_some {s : ℕ} {id : Id} (h : next T iss (s, id) = some b) : ∃ c ∈ nextIds T s id, b = (s + 1, c) ∧
    ∀ c' ∈ nextIds T s id, supportAt T (s + 1) c' ≤ supportAt T (s + 1) c := by
  have hr {x} : x ∈ ranked T s id ↔ ∃ c ∈ nextIds T s id, toLex (supportAt T (s + 1) c, c) = x := by
    simp [ranked]
  have hp : (ranked T s id).Pairwise (· ≥ ·) := pairwise_sort _ _
  simp only [next] at h
  split at h
  · cases h
  next best others he =>
  obtain ⟨-, hb⟩ := Option.ite_none_right_eq_some.mp h
  rw [he] at hr hp
  obtain ⟨c, hc, rfl⟩ := hr.mp List.mem_cons_self
  refine ⟨c, hc, (Option.some.inj hb).symm, fun c' hc' => ?_⟩
  rcases List.mem_cons.mp (hr.mpr ⟨c', hc', rfl⟩) with h | h
  · exact (congrArg (fun x => (ofLex x).1) h).le
  · exact (Prod.Lex.monotone_fst _ _ ((pairwise_cons.mp hp).1 _ h) :)

end

section

variable [TrieLedger L Id] [LinearOrder Id] [LawfulTrieLedger L] {t : LedgerTrie L} {T : List L} {i c s : ℕ}

/-! ### The support still to come -/

/-- **The state of the iterator** over the support at sequence numbers: all below a bound has been taken. -/
structure Rest (T : List L) (bound uncommitted : ℕ) (rest : List (ℕ × ℕ)) : Prop where
  taken : uncommitted = T.countP fun k => seq k < bound
  sorted : rest.Pairwise fun a b => a.1 < b.1
  mem : ∀ s n, (s, n) ∈ rest ↔ bound ≤ s ∧ n = T.countP (fun k => seq k = s) ∧ n ≠ 0

namespace Rest

variable {bound' n : ℕ} {rest : List (ℕ × ℕ)}

section

omit [LinearOrder Id] [LawfulTrieLedger L]

/-- Where nothing is tracked the bound can move on. -/
theorem skip (h : Rest T bd us rest) (hl : bd ≤ bound') (hr : ∀ e ∈ rest, bound' ≤ e.1) : Rest T bound' us rest := by
  have hn : ∀ k ∈ T, bd ≤ seq k → bound' ≤ seq k := by
    intro k hk hb
    have hp : T.countP (fun k' => seq k' = seq k) ≠ 0 := by
      rw [ne_eq, countP_eq_zero]
      exact fun h => h k hk (decide_eq_true rfl)
    exact hr _ ((h.mem (seq k) _).mpr ⟨hb, rfl, hp⟩)
  refine ⟨?_, h.sorted, fun s n => ?_⟩
  · rw [h.taken]
    refine countP_congr fun k hk => ?_
    rw [decide_eq_true_iff, decide_eq_true_iff]
    refine ⟨fun ht => ht.trans_le hl, fun ht => ?_⟩
    by_contra hg
    have := hn k hk (not_lt.mp hg)
    omega
  · constructor
    · intro hs
      exact ⟨hr _ hs, ((h.mem s n).mp hs).2⟩
    · rintro ⟨hb, hs⟩
      exact (h.mem s n).mpr ⟨hl.trans hb, hs⟩

/-- The next support is taken. -/
theorem pop (h : Rest T bd us ((s, n) :: rest)) : bd ≤ s ∧ Rest T (s + 1) (us + n) rest := by
  obtain ⟨hb, hn, -⟩ := (h.mem s n).mp mem_cons_self
  obtain ⟨hl, hd⟩ := pairwise_cons.mp h.sorted
  have hk : Rest T s us ((s, n) :: rest) := by
    refine h.skip hb fun e he => ?_
    rcases mem_cons.mp he with rfl | he
    · exact le_rfl
    · exact (hl e he).le
  refine ⟨hb, ?_, hd, fun s' n' => ?_⟩
  · rw [hk.taken, hn]
    clear h hk hn hd hl
    induction T with
    | nil => rfl
    | cons k T ih =>
      simp only [countP_cons, decide_eq_true_iff]
      split_ifs <;> omega
  · have hm := hk.mem s' n'
    constructor
    · intro hs
      have ht := hl _ hs
      exact ⟨ht, (hm.mp (mem_cons_of_mem _ hs)).2⟩
    · rintro ⟨ht, hs⟩
      rcases mem_cons.mp (hm.mpr ⟨by omega, hs⟩) with hq | hs
      · have := congrArg Prod.fst hq
        omega
      · exact hs

theorem le_length (h : Rest T bd us rest) : us ≤ T.length := by
  rw [h.taken]
  exact countP_le_length

/-- All support below a bound is taken. -/
theorem takeBelow (h : Rest T bd us rest) (hf : T.length < 2 ^ 32) (hle : bd ≤ bound') :
    ∃ us' rest', takeBelow bound' us rest = .ok (us', rest') ∧ Rest T bound' us' rest' := by
  induction rest generalizing bd us with
  | nil => exact ⟨us, [], rfl, h.skip hle fun e he => absurd he not_mem_nil⟩
  | cons e rest ih =>
    obtain ⟨s, n⟩ := e
    rw [takeBelow]
    split_ifs with hs
    · obtain ⟨-, hp⟩ := h.pop
      have hl := hp.le_length
      obtain ⟨us', rest', hr, hre⟩ := ih hp hs
      refine ⟨us', rest', ?_, hre⟩
      rw [addU32_eq (by omega)]
      exact hr
    · refine ⟨us, (s, n) :: rest, rfl, h.skip hle fun e he => ?_⟩
      rcases mem_cons.mp he with rfl | he
      · exact not_lt.mp hs
      · have := (pairwise_cons.mp h.sorted).1 e he
        omega

/-- **The loop along a span** stops where the uncommitted support is no less than that of the branch. -/
theorem walkSpan (stop branch : ℕ) {first : ℕ} (h : Rest T (max first iss) us rest) (ht : T.length < 2 ^ 32)
    (hf : first ≤ stop) :
    ∃ sp us' rest', walkSpan stop branch first us rest = .ok (sp, us', rest') ∧ first ≤ sp ∧ sp ≤ stop ∧
      Rest T (max sp iss) us' rest' ∧
      (∀ s, first ≤ s → s < sp → (T.countP fun k => seq k < max s iss) < branch) ∧
      (sp < stop → branch ≤ us') := by
  induction rest generalizing first us with
  | nil =>
    rw [walkSpan]
    have hk : ∀ {s}, first ≤ s → Rest T (max s iss) us [] := fun hs =>
      h.skip (max_le_max hs le_rfl) fun e he => absurd he not_mem_nil
    split_ifs with hg
    · refine ⟨stop, us, [], rfl, hf, le_rfl, hk hf, fun s hs _ => ?_, fun hlt => absurd hlt (lt_irrefl _)⟩
      rw [← (hk hs).taken]
      exact hg.2
    · exact ⟨first, us, [], rfl, le_rfl, hf, h, fun s hs hlt => absurd hlt (not_lt.mpr hs),
        fun hlt => not_lt.mp fun hb => hg ⟨hlt, hb⟩⟩
  | cons e rest ih =>
    obtain ⟨s, n⟩ := e
    rw [walkSpan]
    obtain ⟨hb, hp⟩ := h.pop
    have hk : ∀ {s'}, first ≤ s' → s' ≤ s → Rest T (max s' iss) us ((s, n) :: rest) := by
      intro s' hs' hle
      refine h.skip (max_le_max hs' le_rfl) fun e he => ?_
      rcases mem_cons.mp he with rfl | he
      · simp only
        omega
      · have := (pairwise_cons.mp h.sorted).1 e he
        omega
    split_ifs with hg hs
    · have hlen := hp.le_length
      have hm : max (s + 1) iss = s + 1 := by omega
      obtain ⟨sp, us', rest', hr, hle, hsp, hre, hw, hn⟩ := ih
        (show Rest T (max (s + 1) iss) _ rest by rw [hm]; exact hp) hs
      refine ⟨sp, us', rest', ?_, by omega, hsp, hre, fun s' hs' hlt => ?_, hn⟩
      · rw [addU32_eq (by omega)]
        exact hr
      · by_cases hl : s' ≤ s
        · rw [← (hk hs' hl).taken]
          exact hg.2
        · exact hw s' (by omega) hlt
    · refine ⟨stop, us, (s, n) :: rest, rfl, hf, le_rfl, hk hf (by omega), fun s' hs' hlt => ?_,
        fun hlt => absurd hlt (lt_irrefl _)⟩
      rw [← (hk hs' (by omega)).taken]
      exact hg.2
    · exact ⟨first, us, _, rfl, le_rfl, hf, h, fun s hs hlt => absurd hlt (not_lt.mpr hs),
        fun hlt => not_lt.mp fun hb => hg ⟨hlt, hb⟩⟩

end

end Rest

omit [LawfulTrieLedger L] in
/-- At first nothing is taken. -/
theorem Tracks.rest (ht : Tracks t T) : Rest T 0 0 t.seqSupport.toList := by
  refine ⟨?_, ?_, fun s n => ?_⟩
  · symm
    rw [countP_eq_zero]
    intro k _ h
    exact absurd (of_decide_eq_true h) (Nat.not_lt_zero _)
  · exact Std.ExtTreeMap.ordered_keys_toList.imp fun h => Nat.compare_eq_lt.mp h
  · rw [Std.ExtTreeMap.mem_toList_iff_getElem?_eq_some, ht.seqs s]
    split_ifs with h0
    · constructor
      · intro h
        cases h
      · rintro ⟨-, hn, hn0⟩
        exact absurd (hn.trans h0) hn0
    · rw [Option.some.injEq]
      exact ⟨fun h => ⟨Nat.zero_le _, h.symm, h ▸ h0⟩, fun h => h.2.1.symm⟩

/-! ### The tree that is walked -/

/-- The support of an ancestor that lies in the span of a node. -/
theorem Counts.supportAt_eq (ht : Counts t T) (hi : (t.node i).live) (hs : t.start i ≤ s ∧ s < t.stop i) :
    supportAt T s (ancestor (t.ledger i) s) = (t.node i).branchSupport := by
  have hn := ht.span i hi
  rw [ht.branch i hi, supportAt]
  refine countP_congr fun k hk => ?_
  rw [decide_eq_true_iff, decide_eq_true_iff]
  constructor
  · rintro ⟨hl, he⟩
    obtain ⟨j, hj, hp⟩ := ht.covered k hk
    exact ht.isBelow_of_agree hi hj hp hs ⟨hl, by omega, he⟩
  · intro h
    have ha : Agree k (t.ledger i) s := Agree.mono h (by omega)
    exact ⟨ha.1, ha.2.2⟩

/-- A node other than the root has support. -/
theorem Tracks.branch_pos (ht : Tracks t T) (hi : (t.node i).live) (hi0 : i ≠ 0) : 0 < (t.node i).branchSupport := by
  -- by induction on how many nodes start later: a node without support of its own has a child
  induction hn : (later t i).card using Nat.strong_induction_on generalizing i with
  | h n ih =>
    rw [ht.branch_eq hi]
    rcases ht.needed i hi hi0 with hti | hh
    · omega
    · obtain ⟨c, hc⟩ := exists_mem_of_length_pos (l := (t.node i).children) (by omega)
      obtain ⟨hl, hcp, hs, -⟩ := ht.child i hi c hc
      have hsn := (ht.span i hi).1
      have hc0 : c ≠ 0 := by
        rintro rfl
        rw [ht.root_parent] at hcp
        cases hcp
      have ha := card_lt_card (later_ssubset (i := i) (ht.lt_size c hl) (by omega))
      have hp := ih _ (hn ▸ ha) hl hc0 rfl
      have he := le_sum_of_mem (mem_map_of_mem (f := fun c => (t.node c).branchSupport) hc)
      omega

omit [LinearOrder Id] [LawfulTrieLedger L] in
/-- A node with support has a tracked ledger below it. -/
theorem Counts.exists_below [DecidableEq Id] (ht : Counts t T) (hi : (t.node i).live)
    (hp : 0 < (t.node i).branchSupport) : ∃ k ∈ T, IsBelow t i k := by
  rw [ht.branch i hi, countP_pos_iff] at hp
  obtain ⟨k, hk, hb⟩ := hp
  exact ⟨k, hk, of_decide_eq_true hb⟩

/-- **Inside a span** one ledger comes next. -/
theorem Counts.ranked_inner (ht : Counts t T) (hi : (t.node i).live) (hp : 0 < (t.node i).branchSupport)
    (hs : t.start i ≤ s ∧ s + 1 < t.stop i) :
    ranked T s (ancestor (t.ledger i) s) = [toLex ((t.node i).branchSupport, ancestor (t.ledger i) (s + 1))] := by
  have hn := ht.span i hi
  have hd : nextIds T s (ancestor (t.ledger i) s) = {ancestor (t.ledger i) (s + 1)} := by
    ext id
    simp only [nextIds, List.mem_toFinset, List.mem_map, List.mem_filter, decide_eq_true_eq, Finset.mem_singleton]
    constructor
    · rintro ⟨k, ⟨hk, hl, he⟩, rfl⟩
      obtain ⟨j, hj, hti⟩ := ht.covered k hk
      have hb := ht.isBelow_of_agree hi hj hti ⟨hs.1, by omega⟩ ⟨hl.le, by omega, he⟩
      exact (Agree.mono hb (by omega)).2.2
    · rintro rfl
      obtain ⟨k, hk, hb⟩ := ht.exists_below hi hp
      have ha : Agree k (t.ledger i) (s + 1) := Agree.mono hb (by omega)
      exact ⟨k, ⟨hk, ha.1, (ha.mono (by omega)).2.2⟩, ha.2.2⟩
  rw [ranked, hd, Finset.image_singleton, Finset.sort_singleton, ht.supportAt_eq hi ⟨by omega, hs.2⟩]

/-- **At the tip of a node** its children come next. -/
theorem Tracks.nextIds_tip (ht : Tracks t T) (hi : (t.node i).live) :
    nextIds T (t.stop i - 1) (ancestor (t.ledger i) (t.stop i - 1)) =
      (t.node i).children.toFinset.image fun c => (t.node c).span.startId := by
  have hn := ht.span i hi
  ext id
  simp only [nextIds, List.mem_toFinset, List.mem_map, List.mem_filter, decide_eq_true_eq, Finset.mem_image]
  constructor
  · rintro ⟨k, ⟨hk, hlt, he⟩, rfl⟩
    obtain ⟨j, hj, hp⟩ := ht.covered k hk
    have hb : IsBelow t i k := ⟨hlt.le, by omega, he⟩
    rcases ReflTransGen.cases_head ((ht.isBelow_iff hi hj hp).mp hb) with rfl | ⟨c, ⟨hc, -⟩, hcj⟩
    · have hsp := hp.1
      omega
    · obtain ⟨hl, -, hcs, -⟩ := ht.child i hi c hc
      have ha := (ht.span c hl).1
      have hck : Agree k (t.ledger c) (t.start c) :=
        Agree.mono ((ht.isBelow_iff hl hj hp).mpr hcj) (by omega)
      refine ⟨c, hc, ?_⟩
      have hs : t.stop i - 1 + 1 = t.start c := by omega
      rw [hs]
      exact hck.2.2.symm
  · rintro ⟨c, hc, rfl⟩
    obtain ⟨hl, hcp, hcs, hca⟩ := ht.child i hi c hc
    have ha := (ht.span c hl).1
    have hc0 : c ≠ 0 := by
      rintro rfl
      rw [ht.root_parent] at hcp
      cases hcp
    obtain ⟨k, hk, hb⟩ := ht.exists_below hl (ht.branch_pos hl hc0)
    have hr : Agree k (t.ledger c) (t.start c) := Agree.mono hb (by omega)
    have hp : Agree k (t.ledger i) (t.stop i - 1) := (hr.mono (by omega)).trans hca
    have hs : t.stop i - 1 + 1 = t.start c := by omega
    refine ⟨k, ⟨hk, ?_, hp.2.2⟩, ?_⟩
    · have := hr.1
      omega
    · rw [hs]
      exact hr.2.2

omit [LinearOrder Id] [LawfulTrieLedger L] in
/-- The children of a node start with different ids. -/
theorem Shape.startId_inj (ht : Shape t) (hi : (t.node i).live) {d : ℕ} (hc : c ∈ (t.node i).children)
    (hd : d ∈ (t.node i).children) (h : (t.node c).span.startId = (t.node d).span.startId) : c = d := by
  obtain ⟨hl, -, hcs, -⟩ := ht.child i hi c hc
  obtain ⟨hdl, -, hds, -⟩ := ht.child i hi d hd
  have hs := ht.span c hl
  have hp := ht.span d hdl
  by_contra hn
  refine ht.apart i hi c hc d hd hn ⟨by omega, by omega, ?_⟩
  change ancestor (t.ledger c) (t.start c) = ancestor (t.ledger d) (t.start d) at h
  rw [hcs, hds] at h
  exact h

/-- The ledgers that come next at the tip of a node are ranked as its children are, in any order of these that is by
rank. -/
theorem Tracks.ranked_tip (ht : Tracks t T) (hi : (t.node i).live) {children : List ℕ}
    (hpm : children.Perm (t.node i).children) (hsd : children.Pairwise fun a b => t.rank b ≤ t.rank a) :
    ranked T (t.stop i - 1) (ancestor (t.ledger i) (t.stop i - 1)) = children.map t.rank := by
  have hsn := (ht.span i hi).1
  have hm : ∀ {c}, c ∈ children ↔ c ∈ (t.node i).children := hpm.mem_iff
  have he : (nextIds T (t.stop i - 1) (ancestor (t.ledger i) (t.stop i - 1))).image
      (fun c => toLex (supportAt T (t.stop i - 1 + 1) c, c)) = (children.map t.rank).toFinset := by
    rw [ht.nextIds_tip hi, Finset.image_image]
    ext r
    simp only [Finset.mem_image, List.mem_toFinset, List.mem_map, Function.comp_apply]
    refine exists_congr fun c => ?_
    rw [hm]
    refine and_congr_right fun hc => ?_
    obtain ⟨hl, -, hcs, -⟩ := ht.child i hi c hc
    have hp := (ht.span c hl).1
    have hs : t.stop i - 1 + 1 = t.start c := by omega
    have hu : supportAt T (t.stop i - 1 + 1) (t.node c).span.startId = (t.node c).branchSupport := by
      rw [hs]
      exact ht.supportAt_eq hl ⟨le_rfl, hp⟩
    rw [hu, LedgerTrie.rank]
  have hn : (children.map t.rank).Nodup := by
    refine List.Nodup.map_on (fun c hc d hd h => ?_) (hpm.nodup_iff.mpr (ht.nodup i hi))
    exact ht.startId_inj hi (hm.mp hc) (hm.mp hd) (congrArg (fun r => (ofLex r).2) h)
  rw [ranked, he]
  exact (List.toFinset_sort (· ≥ ·) hn).mpr (List.pairwise_map.mpr hsd)

/-- **The best child** is the best ledger that comes next, with its margin. -/
theorem Tracks.bestChild (ht : Tracks t T) (hft : T.length < 2 ^ 32) (hi : (t.node i).live) :
    match ranked T (t.stop i - 1) (ancestor (t.ledger i) (t.stop i - 1)) with
    | [] => t.bestChild i = .ok none
    | best :: others => ∃ c ∈ (t.node i).children,
      t.bestChild i = .ok (some (c, marginOf (best :: others))) ∧ t.rank c = best := by
  have ho : ∀ c ∈ (t.node i).children, 0 < (t.node c).branchSupport ∧ (t.node c).branchSupport ≤ T.length := by
    intro c hc
    obtain ⟨hcl, hcp, -, -⟩ := ht.child i hi c hc
    refine ⟨ht.branch_pos hcl ?_, ?_⟩
    · rintro rfl
      rw [ht.root_parent] at hcp
      cases hcp
    · rw [ht.branch c hcl]
      exact countP_le_length
  have hsd := pairwise_insertionSort (fun a b => t.rank b ≤ t.rank a) (t.node i).children
  have hpm := perm_insertionSort (fun a b => t.rank b ≤ t.rank a) (t.node i).children
  rw [ht.ranked_tip hi hpm hsd, LedgerTrie.bestChild, ht.liveChildren hi]
  match hh : (t.node i).children with
  | [] =>
    rfl
  | [c] =>
    exact ⟨c, mem_cons_self, rfl, rfl⟩
  | c :: d :: children =>
    rw [hh] at hsd hpm ho
    have hl := hpm.length_eq
    simp only
    match hs : (c :: d :: children).insertionSort fun a b => t.rank b ≤ t.rank a with
    | [] => rw [hs] at hl; cases hl
    | [first] => rw [hs] at hl; cases hl
    | first :: second :: rest =>
      rw [hs] at hsd hpm
      have hf : first ∈ c :: d :: children := hpm.mem_iff.mp mem_cons_self
      have hse : second ∈ c :: d :: children := hpm.mem_iff.mp (mem_cons_of_mem _ mem_cons_self)
      have hle : (t.node second).branchSupport ≤ (t.node first).branchSupport := by
        have hr := (pairwise_cons.mp hsd).1 second mem_cons_self
        rcases Prod.Lex.le_iff.mp hr with h | h
        · exact h.le
        · exact h.1.le
      refine ⟨first, hf, ?_, rfl⟩
      obtain ⟨hp, he⟩ := ho first hf
      obtain ⟨hpo, -⟩ := ho second hse
      have hm : marginOf (t.rank first :: t.rank second :: rest.map t.rank) =
          if (t.node second).span.startId < (t.node first).span.startId then
            (t.node first).branchSupport - (t.node second).branchSupport + 1
          else (t.node first).branchSupport - (t.node second).branchSupport := rfl
      rw [List.map_cons, hm]
      simp only [subU32_eq hle, bind, Except.bind, pure, Except.pure]
      by_cases hd : (t.node second).span.startId < (t.node first).span.startId
      · rw [if_pos hd, if_pos hd, addU32_eq (by omega)]
      · rw [if_neg hd, if_neg hd]

/-! ### The walk down the trie -/

/-- The ledger of a node at a sequence number, as a place of the walk. -/
abbrev spotOf (t : LedgerTrie L) (i s : ℕ) : ℕ × Id := (s, ancestor (t.ledger i) s)

/-- Inside a span the walk goes on as long as the uncommitted support is less than that of the branch. -/
theorem Counts.next_inner (ht : Counts t T) (hi : (t.node i).live) (hp : 0 < (t.node i).branchSupport)
    (hs : t.start i ≤ s ∧ s + 1 < t.stop i) : next T iss (spotOf t i s) =
      if uncommitted T iss (s + 1) < (t.node i).branchSupport then some (spotOf t i (s + 1)) else none := by
  rw [next, ht.ranked_inner hi hp hs]
  simp only [marginOf, ofLex_toLex]
  refine if_congr ⟨?_, .inl⟩ rfl rfl
  rintro (h | h)
  · exact h
  · omega

/-- The walk along a span. -/
theorem Counts.walk_inner (ht : Counts t T) (hi : (t.node i).live) {sp : ℕ} (hst : sp ≤ t.stop i)
    (hl : ∀ s, t.start i + 1 ≤ s → s < sp → uncommitted T iss s < (t.node i).branchSupport)
    (hs : t.start i ≤ s ∧ s < sp) : Walk T iss (spotOf t i (t.start i)) (spotOf t i s) := by
  obtain ⟨hr, hs⟩ := hs
  induction s, hr using Nat.le_induction with
  | base => exact .refl
  | succ s hr ih =>
    refine (ih (by omega)).tail ?_
    have hu := hl (s + 1) (by omega) hs
    rw [ht.next_inner hi (by omega) ⟨hr, by omega⟩, if_pos hu]

/-- **The loop of `get_preferred`** goes on from a node to where the walk ends. -/
theorem Tracks.preferredLoop (ht : Tracks t T) (hf : T.length < 2 ^ 32) {tn cu : ℕ} {rest : List (ℕ × ℕ)}
    (hv : (t.node cu).live) (hp : 0 < (t.node cu).branchSupport) (hre : Rest T bd us rest)
    (hd : bd ≤ max (t.start cu + 1) iss) (htu : (later t cu).card < tn) : ∃ tip, t.preferredLoop iss tn cu us rest = .ok (some tip) ∧
      Walk T iss (spotOf t cu (t.start cu)) (tip.seq, tip.id) ∧
      next T iss (tip.seq, tip.id) = none ∧ tip.seq ≤ seq tip.ledger ∧ tip.id = ancestor tip.ledger tip.seq := by
  induction tn generalizing cu bd us rest with
  | zero => omega
  | succ tn ih =>
    have hsn := ht.span cu hv
    obtain ⟨us1, rest1, htk, hrest1⟩ := hre.takeBelow hf hd
    obtain ⟨sp, us2, rest2, hk, hfi, hsp, hr, hl, he⟩ :=
      hrest1.walkSpan (t.stop cu) (t.node cu).branchSupport hf hsn.1
    have hin : ∀ {s}, t.start cu ≤ s → s < sp → Walk T iss (spotOf t cu (t.start cu)) (spotOf t cu s) := fun h h' =>
      ht.walk_inner hv hsp hl ⟨h, h'⟩
    rw [preferredLoop]
    simp only [htk, bind, Except.bind]
    rw [hk]
    change ∃ tip, (if sp < t.stop cu then _ else _) = _ ∧ _
    by_cases hlt : sp < t.stop cu
    · -- the walk ends inside the span
      rw [if_pos hlt, Span.before_eq (show t.start cu < sp by omega) hsp]
      refine ⟨_, rfl, hin (s := sp - 1) (by omega) (by omega), ?_, ?_, rfl⟩
      · change next T iss (spotOf t cu (sp - 1)) = none
        have hsu : sp - 1 + 1 = sp := by omega
        rw [ht.next_inner hv hp ⟨by omega, by omega⟩, if_neg]
        rw [hsu, uncommitted, ← hr.taken]
        exact not_lt.mpr (he hlt)
      · change sp - 1 ≤ seq (t.ledger cu)
        omega
    · -- the walk reaches the tip of the node
      have hi : Walk T iss (spotOf t cu (t.start cu)) (spotOf t cu (t.stop cu - 1)) :=
        hin (by omega) (by omega)
      have hus : uncommitted T iss (t.stop cu - 1 + 1) = us2 := by
        have hsu : t.stop cu - 1 + 1 = sp := by omega
        rw [hsu, uncommitted, ← hr.taken]
      have hs : t.stop cu - 1 ≤ seq (t.ledger cu) := by omega
      have hb := ht.bestChild hf hv
      rw [if_neg hlt]
      cases ha : ranked T (t.stop cu - 1) (ancestor (t.ledger cu) (t.stop cu - 1)) with
      | nil =>
        rw [ha] at hb
        rw [hb]
        refine ⟨_, rfl, hi, ?_, hs, rfl⟩
        change next T iss (spotOf t cu (t.stop cu - 1)) = none
        simp only [next, ha]
      | cons best others =>
        have hn : next T iss (spotOf t cu (t.stop cu - 1)) = if us2 < marginOf (best :: others) ∨ us2 = 0
            then some (t.stop cu - 1 + 1, (ofLex best).2) else none := by
          simp only [next, ha, hus]
        rw [ha] at hb
        obtain ⟨c, hc, hu, hrk⟩ := hb
        rw [hu]
        change ∃ tip, (if us2 < marginOf (best :: others) ∨ us2 = 0 then _ else _) = _ ∧ _
        split_ifs at hn with hg
        · rw [if_pos hg]
          obtain ⟨hcl, hcp, hcs, -⟩ := ht.child cu hv c hc
          have hc0 : c ≠ 0 := by
            rintro rfl
            rw [ht.root_parent] at hcp
            cases hcp
          have hca := card_lt_card (later_ssubset (i := cu) (ht.lt_size c hcl) (by omega))
          obtain ⟨tip, hlo, hw, ho, hle, hid⟩ := ih hcl (ht.branch_pos hcl hc0) hr (by omega) (by omega)
          refine ⟨tip, hlo, hi.trans (ReflTransGen.head ?_ hw), ho, hle, hid⟩
          have hsr : t.stop cu - 1 + 1 = t.start c := by omega
          rw [hn, ← hrk, hsr]
          rfl
        · rw [if_neg hg]
          exact ⟨_, rfl, hi, hn, hs, rfl⟩

/-- **`get_preferred`** returns where the walk ends, if anything is tracked. -/
theorem Tracks.getPreferred (ht : Tracks t T) (hf : T.length < 2 ^ 32) (hT : T ≠ []) (iss : ℕ) :
    ∃ tip, t.getPreferred iss = .ok (some tip) ∧ Preferred T iss (tip.seq, tip.id) ∧
      tip.seq ≤ seq tip.ledger ∧ tip.id = ancestor tip.ledger tip.seq := by
  have hp : 0 < (t.node 0).branchSupport := by
    rw [ht.branch_root]
    exact length_pos_iff.mpr hT
  have he : ¬ t.isEmpty := by
    rw [LedgerTrie.isEmpty, beq_iff_eq]
    exact hp.ne'
  have hs : later t 0 ⊂ range t.size := by
    refine (ssubset_iff_of_subset (filter_subset _ _)).mpr ?_
    exact ⟨0, Finset.mem_range.mpr (ht.lt_size 0 ht.root_live), fun h => lt_irrefl _ (Finset.mem_filter.mp h).2⟩
  have hc : (later t 0).card < t.size := by simpa using card_lt_card hs
  obtain ⟨tip, hr, hw, hn, hl, hi⟩ := ht.preferredLoop hf ht.root_live hp ht.rest
    (Nat.zero_le (max (t.start 0 + 1) iss)) hc
  rw [LedgerTrie.getPreferred, if_neg he]
  refine ⟨tip, hr, ⟨?_, hn⟩, hl, hi⟩
  have hrt : spotOf t 0 (t.start 0) = (0, ownId (genesis : L)) := by
    rw [spotOf, ht.root_start, ownId, LawfulTrieLedger.seq_genesis]
    exact congrArg (Prod.mk 0) (LawfulTrieLedger.agree_genesis _ _)
  rw [← hrt]
  exact hw

omit [LawfulTrieLedger L] in
/-- A trie that tracks nothing has no preferred ledger. -/
theorem Tracks.getPreferred_nil (ht : Tracks t []) (iss : ℕ) : t.getPreferred iss = .ok none := by
  have hz : (t.node 0).branchSupport = 0 := ht.branch 0 ht.root_live
  rw [LedgerTrie.getPreferred, LedgerTrie.isEmpty, if_pos (beq_iff_eq.mpr hz)]

/-- **The preferred ledger.** After any calls that keep the whole support in a `u32`, `get_preferred` returns nothing if
nothing is tracked and the ledger where the walk ends otherwise. The same ledgers tracked by other calls give the same
answer. -/
theorem preferred_of_runOps {ops : List (TrieOp L Id)} (hvalid : ∀ op ∈ ops, op.Valid) (hfits : Fits ops)
    (largestIssued : ℕ) : ∃ t, runOps ops = .ok t ∧ (tracked ops = [] → t.getPreferred largestIssued = .ok none) ∧
      (tracked ops ≠ [] → ∃ tip, t.getPreferred largestIssued = .ok (some tip) ∧
        Preferred (tracked ops) largestIssued (tip.seq, tip.id) ∧ tip.seq ≤ seq tip.ledger ∧
        tip.id = ancestor tip.ledger tip.seq) ∧
      ∀ ops' : List (TrieOp L Id), (∀ op ∈ ops', op.Valid) → Fits ops' → (tracked ops').Perm (tracked ops) →
        ∃ t' answer answer', runOps ops' = .ok t' ∧ t.getPreferred largestIssued = .ok answer ∧
          t'.getPreferred largestIssued = .ok answer' ∧
          answer.map (fun tip => (tip.seq, tip.id)) = answer'.map fun tip => (tip.seq, tip.id) := by
  obtain ⟨t, hu, ht⟩ := tracks_runOps hvalid hfits
  have he := hfits ops (prefix_refl _)
  refine ⟨t, hu, fun hn => ?_, fun hT => ht.getPreferred he hT largestIssued, fun ops' hv hf hm => ?_⟩
  · rw [hn] at ht
    exact ht.getPreferred_nil largestIssued
  · obtain ⟨t', hr, ht'⟩ := tracks_runOps hv hf
    have hl := hf ops' (prefix_refl _)
    by_cases hT : tracked ops = []
    · rw [hT] at ht hm
      rw [hm.eq_nil] at ht'
      exact ⟨t', none, none, hr, ht.getPreferred_nil _, ht'.getPreferred_nil _, rfl⟩
    · have hT' : tracked ops' ≠ [] := fun h => hT (List.Perm.eq_nil (h ▸ hm.symm))
      obtain ⟨tip, hge, hp, -⟩ := ht.getPreferred he hT largestIssued
      obtain ⟨tip', hg, hp', -⟩ := ht'.getPreferred hl hT' largestIssued
      refine ⟨t', some tip, some tip', hr, hge, hg, ?_⟩
      exact congrArg some (hp.unique (hp'.perm hm))

/-! ### Majorities -/

variable {l : L} {id : Id} {a b : ℕ × Id}

/-- A tracked ledger goes through a spot of the walk, and as far as the spot through a ledger. -/
def Passes (T : List L) (l : L) (a : ℕ × Id) : Prop :=
  ∃ k ∈ T, a.1 ≤ seq k ∧ ancestor k a.1 = a.2 ∧ Agree k l (min a.1 (seq l))

/-- **A step does not leave a majority**: what goes on elsewhere has less support. -/
theorem Passes.next (hm : T.length < 2 * T.countP fun k => Agree k l (seq l)) (h : Passes T l (s, id))
    (hn : next T iss (s, id) = some b) : Passes T l b := by
  obtain ⟨k0, -, hs0, ha0, hl0⟩ := h
  obtain ⟨c, hc, rfl, hx⟩ := next_eq_some hn
  have hi {c} : c ∈ nextIds T s id ↔ ∃ k ∈ T, (s < seq k ∧ ancestor k s = id) ∧ ancestor k (s + 1) = c := by
    simp [nextIds, and_assoc]
  obtain ⟨k, hk, ⟨hs, ha⟩, rfl⟩ := hi.mp hc
  refine ⟨k, hk, hs, rfl, ?_⟩
  dsimp only at *
  by_cases hsl : seq l ≤ s
  · rw [min_eq_right hsl] at hl0
    rw [min_eq_right (hsl.trans (Nat.le_succ s))]
    exact (Agree.mono ⟨hs.le, hs0, ha.trans ha0.symm⟩ hsl).trans hl0
  · rw [min_eq_left (by omega)] at hl0 ⊢
    refine ⟨hs, by omega, by_contra fun hne => ?_⟩
    have hd {k'} (h : Agree k' l (seq l)) : Agree k' l (s + 1) := h.mono (by omega)
    obtain ⟨k1, hk1, hl1⟩ := countP_pos_iff.mp (by omega : 0 < T.countP fun k => Agree k l (seq l))
    replace hl1 := hd (of_decide_eq_true hl1)
    have h1 := hx _ (hi.mpr ⟨k1, hk1, ⟨hl1.1, (hl1.mono (Nat.le_succ s)).2.2.trans (hl0.2.2.symm.trans ha0)⟩, hl1.2.2⟩)
    have h2 : T.countP (fun k => Agree k l (seq l)) ≤ supportAt T (s + 1) (ancestor l (s + 1)) :=
      countP_mono_left fun k' _ h => decide_eq_true ⟨(hd (of_decide_eq_true h)).1, (hd (of_decide_eq_true h)).2.2⟩
    have h3 : supportAt T (s + 1) (ancestor k (s + 1)) ≤ T.countP fun k => ¬ Agree k l (seq l) :=
      countP_mono_left fun k' _ h => decide_eq_true fun h' => hne ((of_decide_eq_true h).2.symm.trans (hd h').2.2)
    have h4 := T.length_eq_countP_add_countP fun k => Agree k l (seq l)
    simp only [decide_eq_true_eq] at h4
    omega

/-- Nor does the walk. -/
theorem Passes.walk (hm : T.length < 2 * T.countP fun k => Agree k l (seq l)) (h : Passes T l a)
    (hw : Walk T iss a b) : Passes T l b := by
  induction hw with
  | refl => exact h
  | tail _ hn ih => exact ih.next hm hn

/-- **A majority is preferred.** After any calls that keep the whole support in a `u32`, and whatever has been issued:
if more than half of what is tracked is a ledger or descends from it, then `get_preferred` returns an ancestor of that
ledger, the ledger, or one that descends from it. -/
theorem preferred_of_majority {ops : List (TrieOp L Id)} (hvalid : ∀ op ∈ ops, op.Valid) (hfits : Fits ops) (l : L)
    (largestIssued : ℕ) : ∃ t n, runOps ops = .ok t ∧ t.branchSupport l = .ok n ∧
      ((tracked ops).length < 2 * n → ∃ tip, t.getPreferred largestIssued = .ok (some tip) ∧
        Agree tip.ledger l (min tip.seq (seq l))) := by
  obtain ⟨t, hr, ht⟩ := tracks_runOps hvalid hfits
  refine ⟨t, _, hr, ht.branchSupport_eq l, fun hm => ?_⟩
  obtain ⟨k, hk, hl⟩ := countP_pos_iff.mp (by omega : 0 < (tracked ops).countP fun k => Agree k l (seq l))
  obtain ⟨tip, hg, ⟨hw, -⟩, hs, hi⟩ := ht.getPreferred (hfits ops (prefix_refl _)) (ne_nil_of_mem hk) largestIssued
  have hz : Passes (tracked ops) l (0, ownId (genesis : L)) := by
    refine ⟨k, hk, Nat.zero_le _, ?_, ?_⟩
    · rw [ownId, LawfulTrieLedger.seq_genesis]
      exact LawfulTrieLedger.agree_genesis _ _
    · rw [Nat.zero_min]
      exact agree_zero k l
  obtain ⟨k', -, hs', ha, hl'⟩ := hz.walk hm hw
  exact ⟨tip, hg, (Agree.mono ⟨hs, hs', hi.symm.trans ha.symm⟩ (Nat.min_le_left _ _)).trans hl'⟩

end

/-- The preferred ledger of the trie with two branches. -/
theorem preferred_of_twoBranches : ∃ t tip, runOps twoBranches = .ok t ∧ t.getPreferred 0 = .ok (some tip) ∧
    Preferred (tracked twoBranches) 0 (tip.seq, tip.id) := by
  obtain ⟨t, hr, -, hs, -⟩ := preferred_of_runOps twoBranches_valid twoBranches_fits 0
  obtain ⟨tip, hg, hp, -⟩ := hs (by decide)
  exact ⟨t, tip, hr, hg, hp⟩

/-- The two branches together are a majority for the ledger they go through. -/
theorem majority_of_twoBranches : ∃ t tip, runOps twoBranches = .ok t ∧ t.branchSupport (⟨[1]⟩ : Chain) = .ok 2 ∧
    t.getPreferred 0 = .ok (some tip) ∧ Agree tip.ledger (⟨[1]⟩ : Chain) (min tip.seq 1) := by
  obtain ⟨t, n, hr, hn, ht⟩ := preferred_of_majority twoBranches_valid twoBranches_fits ⟨[1]⟩ 0
  obtain ⟨t', hr', hb⟩ : ∃ t, runOps twoBranches = .ok t ∧ t.branchSupport (⟨[1]⟩ : Chain) = .ok 2 := ⟨_, rfl, rfl⟩
  cases hr.symm.trans hr'
  cases hn.symm.trans hb
  obtain ⟨tip, hg, ha⟩ := ht (by decide)
  exact ⟨t, tip, hr, hb, hg, ha⟩

/-- Support of nothing for a sibling. -/
def idleSibling : List (TrieOp Chain ℕ) := [.insert ⟨[2]⟩ 1, .insert ⟨[1]⟩ 0]

/-- A removal that names another sequence number than the ledger's. -/
def wrongSeq : List (TrieOp Chain ℕ) := [.insert ⟨[1, 1]⟩ 2, .insert ⟨[2]⟩ 2, .remove (code [2]) 9 2]

/-- Where the preferred ledger is after calls. -/
def preferredSpot (ops : List (TrieOp Chain ℕ)) (largestIssued : ℕ) : Run (Option (ℕ × ℕ)) := do
  let t ← runOps ops
  return (← t.getPreferred largestIssued).map fun tip => (tip.seq, tip.id)

/-- **What the calls have to keep to**: more support than a `u32` holds stops a call. After support of nothing the answer
is a ledger that the walk does not go to, and after a removal that names another sequence number the answer is one that
the walk leaves. -/
theorem not_preferred_of_runOps : runOps tooMuch = .error .overflow ∧
    preferredSpot idleSibling 2 = .ok (some (1, code [2])) ∧ next (tracked idleSibling) 2 (0, code []) = none ∧
    preferredSpot wrongSeq 2 = .ok (some (0, code [])) ∧ next (tracked wrongSeq) 2 (0, code []) = some (1, code [1]) := by
  have hd : ranked (tracked idleSibling) 0 (code []) = [toLex (1, code [2])] := by
    have hi : (nextIds (tracked idleSibling) 0 (code [])).image
      (fun c => toLex (supportAt (tracked idleSibling) (0 + 1) c, c)) = {toLex (1, code [2])} := by decide
    rw [ranked, hi, sort_singleton]
  have hw : ranked (tracked wrongSeq) 0 (code []) = [toLex (2, code [1])] := by
    have hi : (nextIds (tracked wrongSeq) 0 (code [])).image
      (fun c => toLex (supportAt (tracked wrongSeq) (0 + 1) c, c)) = {toLex (2, code [1])} := by decide
    rw [ranked, hi, sort_singleton]
  refine ⟨rfl, by decide +kernel, ?_, by decide +kernel, ?_⟩
  · rw [next, hd]
    decide
  · rw [next, hw]
    decide

end Xrpld.Consensus
