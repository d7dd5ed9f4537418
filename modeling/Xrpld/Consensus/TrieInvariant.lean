import Xrpld.Consensus.LedgerTrie

/-!
# What the ancestry trie stands for

The ledgers that are tracked are a list, with as many copies of a ledger as its support. The trie
stands for that list when its live nodes form a tree whose spans lie end to end, each tracked
ledger is the tip of a node, and the counters count tracked ledgers.

## The model

`LawfulTrieLedger` says that ids are unique and ancestries full: two ledgers with the same id
somewhere *agree* from there down to the genesis ledger. All of the trie is stated by agreement.

## What is proved

`Shape.unique`: a point of an ancestry lies in at most one live node. `Shape.find`: what `find`
returns. From these the counters are shown to be right in the modules that follow.
-/

namespace Xrpld.Consensus

open TrieLedger List Finset LedgerTrie

/-! ### Agreement -/

variable {L Id : Type} {i j s : ℕ}

section

variable [TrieLedger L Id]

/-- Two ledgers have the same ancestor at a sequence number. -/
def Agree (a b : L) (s : ℕ) : Prop := s ≤ seq a ∧ s ≤ seq b ∧ ancestor a s = ancestor b s

instance [DecidableEq Id] (a b : L) (s : ℕ) : Decidable (Agree a b s) := inferInstanceAs (Decidable (_ ∧ _))

/-- Ids are unique, ancestries are full, and the genesis ledger is below all others. -/
class LawfulTrieLedger (L : Type) {Id : Type} [TrieLedger L Id] : Prop where
  seq_genesis : seq (genesis : L) = 0
  agree_genesis : ∀ a b : L, ancestor a 0 = ancestor b 0
  unique : ∀ (a b : L) (s t : ℕ), s ≤ seq a → t ≤ seq b → ancestor a s = ancestor b t →
    s = t ∧ ∀ u ≤ s, ancestor a u = ancestor b u
  lt_mismatch : ∀ (a b : L) (s : ℕ), s < mismatch a b ↔ ∀ u ≤ s, Agree a b u

variable [LawfulTrieLedger L] {a b c : L} {u : ℕ}

section

omit [LawfulTrieLedger L]

theorem Agree.symm (h : Agree a b s) : Agree b a s := ⟨h.2.1, h.1, h.2.2.symm⟩

theorem Agree.trans (h : Agree a b s) (h' : Agree b c s) : Agree a c s := ⟨h.1, h'.2.1, h.2.2.trans h'.2.2⟩

theorem Agree.refl (h : s ≤ seq a) : Agree a a s := ⟨h, h, rfl⟩

end

/-- Agreement goes down to the genesis ledger. -/
theorem Agree.mono (h : Agree a b s) (hu : u ≤ s) : Agree a b u :=
  ⟨hu.trans h.1, hu.trans h.2.1, (LawfulTrieLedger.unique a b s s h.1 h.2.1 h.2.2).2 u hu⟩

theorem agree_zero (a b : L) : Agree a b 0 := ⟨Nat.zero_le _, Nat.zero_le _, LawfulTrieLedger.agree_genesis a b⟩

/-- **The mismatch** is where agreement ends. -/
theorem lt_mismatch_iff : s < mismatch a b ↔ Agree a b s := by
  rw [LawfulTrieLedger.lt_mismatch]
  exact ⟨fun h => h s le_rfl, fun h u hu => h.mono hu⟩

end

/-! ### The shape of a trie -/

namespace LedgerTrie

/-- Where the span of a node starts. -/
abbrev start (t : LedgerTrie L) (i : ℕ) : ℕ := (t.node i).span.start

/-- Where the span of a node stops. -/
abbrev stop (t : LedgerTrie L) (i : ℕ) : ℕ := (t.node i).span.stop

/-- The ledger of the span of a node. -/
abbrev ledger (t : LedgerTrie L) (i : ℕ) : L := (t.node i).span.ledger

end LedgerTrie

section

variable [TrieLedger L Id]

/-- **The live nodes are a tree**, the spans of a node and its children lie end to end, and the ledgers of children of one
node part where the children start. -/
structure Shape (t : LedgerTrie L) : Prop where
  root_live : (t.node 0).live = true
  root_start : t.start 0 = 0
  root_stop : t.stop 0 = 1
  root_parent : (t.node 0).parent = none
  lt_size : ∀ i, (t.node i).live = true → i < t.size
  span : ∀ i, (t.node i).live = true → t.start i < t.stop i ∧ t.stop i ≤ seq (t.ledger i) + 1
  nodup : ∀ i, (t.node i).live = true → (t.node i).children.Nodup
  child : ∀ i, (t.node i).live = true → ∀ c ∈ (t.node i).children, (t.node c).live = true ∧
    (t.node c).parent = some i ∧ t.start c = t.stop i ∧ Agree (t.ledger c) (t.ledger i) (t.stop i - 1)
  apart : ∀ i, (t.node i).live = true → ∀ c ∈ (t.node i).children, ∀ d ∈ (t.node i).children, c ≠ d →
    ¬ Agree (t.ledger c) (t.ledger d) (t.stop i)
  parent : ∀ i, (t.node i).live = true → i ≠ 0 → ∃ p, (t.node i).parent = some p ∧ (t.node p).live = true ∧
    i ∈ (t.node p).children

variable [LawfulTrieLedger L] {t : LedgerTrie L} {l : L}

omit [LawfulTrieLedger L] in
/-- Only the root starts at the genesis ledger. -/
theorem Shape.eq_root (ht : Shape t) (hi : (t.node i).live) (h0 : t.start i = 0) : i = 0 := by
  by_contra he
  obtain ⟨p, -, hp, hm⟩ := ht.parent i hi he
  have hs := (ht.child p hp i hm).2.2.1
  have hn := (ht.span p hp).1
  omega

/-- **A point of an ancestry lies in at most one live node.** -/
theorem Shape.unique (ht : Shape t) (hi : (t.node i).live) (hj : (t.node j).live)
    (hsi : t.start i ≤ s ∧ s < t.stop i) (hsj : t.start j ≤ s ∧ s < t.stop j)
    (hag : Agree (t.ledger i) (t.ledger j) s) : i = j := by
  -- down the ancestry: the parents of two nodes that start at one point share the point before
  induction s using Nat.strong_induction_on generalizing i j with
  | h s ih =>
    have hu : ∀ {i j}, (t.node i).live → (t.node j).live → t.start i ≤ s ∧ s < t.stop i →
        t.start j ≤ s ∧ s < t.stop j → Agree (t.ledger i) (t.ledger j) s → t.start i ≤ t.start j → i ≠ j →
        ∃ p, (t.node p).live ∧ j ∈ (t.node p).children ∧ (t.start i < t.start j → p = i) ∧
          Agree (t.ledger p) (t.ledger i) (t.start j - 1) ∧ 0 < t.start j := by
      intro i j hi hj hsi hsj hag hle he
      have hj0 : j ≠ 0 := by
        rintro rfl
        have h0 := ht.root_start
        exact he (ht.eq_root hi (by omega))
      obtain ⟨p, -, hp, hm⟩ := ht.parent j hj hj0
      obtain ⟨-, -, hr, hpj⟩ := ht.child p hp j hm
      have hsn := (ht.span p hp).1
      have hpi : Agree (t.ledger p) (t.ledger i) (t.start j - 1) := by
        rw [hr]
        exact hpj.symm.trans (hag.mono (by omega)).symm
      refine ⟨p, hp, hm, fun hl => ?_, hpi, by omega⟩
      exact ih (t.start j - 1) (by omega) hp hi (by omega) (by omega) hpi
    by_contra he
    rcases Nat.lt_trichotomy (t.start i) (t.start j) with hl | heq | hl
    · obtain ⟨p, hp, hm, hpi, -⟩ := hu hi hj hsi hsj hag hl.le he
      have hr := (ht.child p hp j hm).2.2.1
      rw [hpi hl] at hr
      omega
    · obtain ⟨p, hp, hpj, -, hg, ho⟩ := hu hi hj hsi hsj hag heq.le he
      obtain ⟨q, hq, hqi, -, ha, -⟩ := hu hj hi hsj hsi hag.symm heq.ge (Ne.symm he)
      have hst := (ht.child p hp j hpj).2.2.1
      have hs := (ht.child q hq i hqi).2.2.1
      have hsp := (ht.span p hp).1
      have hn := (ht.span q hq).1
      rw [heq] at ha
      have hpq : p = q := ih (t.start j - 1) (by omega) hp hq (by omega) (by omega)
        (hg.trans ((hag.mono (by omega)).trans ha.symm))
      rw [← hpq] at hqi
      exact ht.apart p hp i hqi j hpj he (hag.mono (by omega))
    · obtain ⟨p, hp, hm, hpj, -⟩ := hu hj hi hsj hsi hag.symm hl.le (Ne.symm he)
      have hr := (ht.child p hp i hm).2.2.1
      rw [hpj hl] at hr
      omega

/-- A node is above another one, or the same. -/
def Above (t : LedgerTrie L) : ℕ → ℕ → Prop := Relation.ReflTransGen fun p i => i ∈ (t.node p).children ∧ (t.node p).live = true

/-- **The nodes above a live one** hold all points of its ancestry. -/
theorem Shape.exists_above (ht : Shape t) (hj : (t.node j).live) (hs : s < t.stop j) :
    ∃ i, (t.node i).live ∧ Above t i j ∧ t.start i ≤ s ∧ s < t.stop i ∧ Agree (t.ledger i) (t.ledger j) s := by
  induction hn : t.start j using Nat.strong_induction_on generalizing j with
  | h n ih =>
    by_cases hsj : t.start j ≤ s
    · have hsn := ht.span j hj
      exact ⟨j, hj, .refl, hsj, hs, .refl (by omega)⟩
    · have hj0 : j ≠ 0 := by
        rintro rfl
        have h0 := ht.root_start
        omega
      obtain ⟨p, -, hp, hm⟩ := ht.parent j hj hj0
      obtain ⟨-, -, hr, hpj⟩ := ht.child p hp j hm
      have hsn := (ht.span p hp).1
      obtain ⟨i, hi, ha, hl, hlt, hg⟩ := ih (t.start p) (by omega) hp (by omega) rfl
      exact ⟨i, hi, ha.tail ⟨hm, hp⟩, hl, hlt, hg.trans (hpj.symm.mono (by omega))⟩

/-- A live node whose tip is an ancestor of another node's tip is above it. -/
theorem Shape.above_of_agree (ht : Shape t) (hi : (t.node i).live) (hj : (t.node j).live)
    (hl : t.stop i ≤ t.stop j) (hg : Agree (t.ledger j) (t.ledger i) (t.stop i - 1)) : Above t i j := by
  have hs := (ht.span i hi).1
  obtain ⟨k, hk, ha, hl, hlt, hkj⟩ := ht.exists_above hj (s := t.stop i - 1) (by omega)
  rw [ht.unique hi hk (by omega) ⟨hl, hlt⟩ (hg.symm.trans hkj.symm)]
  exact ha

/-- What is above a live node is live, stops no later, and agrees with it up to its tip. -/
theorem Shape.of_above (ht : Shape t) (hj : (t.node j).live) (h : Above t i j) :
    (t.node i).live ∧ t.start i ≤ t.start j ∧ (i = j ∨ t.stop i ≤ t.start j) ∧
      Agree (t.ledger j) (t.ledger i) (t.stop i - 1) := by
  induction h with
  | refl =>
    have hn := ht.span i hj
    exact ⟨hj, le_rfl, .inl rfl, .refl (by omega)⟩
  | @tail p j' _ hp ih =>
    obtain ⟨hl, hle, hs, ha⟩ := ih hp.2
    obtain ⟨-, -, hr, hg⟩ := ht.child p hp.2 j' hp.1
    have hn := (ht.span p hp.2).1
    have hst : t.stop i ≤ t.stop p := by
      rcases hs with he | hs
      · rw [he]
      · omega
    exact ⟨hl, by omega, .inr (by omega), (hg.mono (by omega)).trans ha⟩

/-! ### Finding a place -/

/-- **Where a ledger leaves the trie**: it agrees with the span of a live node from its start to before `pos`, and no
further. -/
structure Place (t : LedgerTrie L) (l : L) (loc pos : ℕ) : Prop where
  live : (t.node loc).live = true
  start_lt : t.start loc < pos
  le_stop : pos ≤ t.stop loc
  agree : Agree l (t.ledger loc) (pos - 1)
  leaves : pos < t.stop loc → ¬ Agree l (t.ledger loc) pos
  last : pos = t.stop loc → ∀ c ∈ (t.node loc).children, ¬ Agree l (t.ledger c) pos

/-- **The ledger leaves the whole trie** at its place: no live node goes on with it. -/
theorem Shape.not_agree (ht : Shape t) {loc pos : ℕ} (hp : Place t l loc pos) (hj : (t.node j).live)
    (hlt : pos < t.stop j) : ¬ Agree l (t.ledger j) pos := by
  intro hg
  obtain ⟨k, hk, -, hks, hlt, hkj⟩ := ht.exists_above hj hlt
  have hl : Agree l (t.ledger k) pos := hg.trans hkj.symm
  have hr := hp.start_lt
  have hsp := hp.le_stop
  -- the node that goes on is the place itself or a child of it
  by_cases hks' : t.start k = pos
  · have hk0 : k ≠ 0 := by
      rintro rfl
      have := ht.root_start
      omega
    obtain ⟨p, -, hpl, hm⟩ := ht.parent k hk hk0
    obtain ⟨-, -, ha, hkp⟩ := ht.child p hpl k hm
    have hs := (ht.span p hpl).1
    have he : p = loc := by
      refine ht.unique hpl hp.live (s := pos - 1) (by omega) (by omega) ?_
      rw [← hks', ha]
      exact hkp.symm.trans ((hl.symm.mono (by omega)).trans (hp.agree.mono (by omega)))
    rw [he] at hm ha
    exact hp.last (by omega) k hm hl
  · have he := ht.unique hk hp.live (s := pos - 1) (by omega) (by omega) ((hl.symm.mono (by omega)).trans hp.agree)
    rw [he] at hlt hl
    exact hp.leaves hlt hl

/-- A span agrees with a ledger as far as `diff` says. -/
theorem lt_diff_iff (hs : s < t.stop i) (hr : t.start i ≤ s) : s < (t.node i).span.diff l ↔ Agree l (t.ledger i) s := by
  have hi : s < mismatch (t.ledger i) l ↔ Agree l (t.ledger i) s := lt_mismatch_iff.trans ⟨Agree.symm, Agree.symm⟩
  rw [← hi, Span.diff, Span.clamp, lt_min_iff, lt_max_iff]
  constructor
  · rintro ⟨h | h, -⟩
    · exact h
    · exact absurd h (Nat.not_lt.mpr hr)
  · intro h
    exact ⟨.inl h, hs⟩

omit [LawfulTrieLedger L] in
theorem diff_le_stop : (t.node i).span.diff l ≤ t.stop i := Nat.min_le_right _ _

/-- The child that is found agrees with the ledger where it starts; if none is found, none does. -/
theorem Shape.findChild (ht : Shape t) (hi : (t.node i).live) {children : List ℕ}
    (hs : ∀ c ∈ children, c ∈ (t.node i).children) :
    match t.findChild l (t.stop i) children with
    | none => ∀ c ∈ children, ¬ Agree l (t.ledger c) (t.stop i)
    | some (c, pos) => c ∈ children ∧ pos = (t.node c).span.diff l ∧ t.stop i < pos := by
  induction children with
  | nil => exact fun c hc => absurd hc not_mem_nil
  | cons c children ih =>
    obtain ⟨hl, -, hr, -⟩ := ht.child i hi c (hs c mem_cons_self)
    have hsn := (ht.span c hl).1
    have ih := ih fun d hd => hs d (mem_cons_of_mem _ hd)
    rw [LedgerTrie.findChild, hl, if_neg (by simp)]
    split_ifs with hp
    · exact ⟨mem_cons_self, rfl, hp⟩
    · have hn : ¬ Agree l (t.ledger c) (t.stop i) := by
        rw [← lt_diff_iff (by omega) (by omega)]
        exact hp
      cases hf : t.findChild l (t.stop i) children with
      | none =>
        rw [hf] at ih
        intro d hd
        rcases mem_cons.mp hd with rfl | hd
        · exact hn
        · exact ih d hd
      | some found =>
        rw [hf] at ih
        exact ⟨mem_cons_of_mem _ ih.1, ih.2⟩

/-- The nodes that start later than a node. -/
def later (t : LedgerTrie L) (i : ℕ) : Finset ℕ := (Finset.range t.size).filter fun j => t.start i < t.start j

omit [LawfulTrieLedger L] [TrieLedger L Id] in
theorem later_ssubset {c : ℕ} (hc : c < t.size) (hl : t.start i < t.start c) : later t c ⊂ later t i := by
  rw [ssubset_iff_of_subset]
  · refine ⟨c, ?_, ?_⟩
    · rw [later, Finset.mem_filter, Finset.mem_range]
      exact ⟨hc, hl⟩
    · rw [later, Finset.mem_filter]
      exact fun h => lt_irrefl _ h.2
  · intro j hj
    rw [later, Finset.mem_filter] at hj ⊢
    exact ⟨hj.1, hl.trans hj.2⟩

/-- The loop of `find` ends at a place, if it has turns for all nodes further on. -/
theorem Shape.findLoop (ht : Shape t) {tn cu : ℕ} (hl : (t.node cu).live)
    (ha : Agree l (t.ledger cu) (t.start cu)) (hu : (later t cu).card < tn) :
    ∃ loc pos, t.findLoop l tn cu ((t.node cu).span.diff l) = .ok (loc, pos) ∧ Place t l loc pos := by
  induction tn generalizing cu with
  | zero => omega
  | succ tn ih =>
    have hn := ht.span cu hl
    have hr : t.start cu < (t.node cu).span.diff l := (lt_diff_iff hn.1 le_rfl).mpr ha
    have he : (t.node cu).span.diff l ≤ t.stop cu := diff_le_stop
    have hb : Agree l (t.ledger cu) ((t.node cu).span.diff l - 1) :=
      (lt_diff_iff (by omega) (by omega)).mp (by omega)
    rw [LedgerTrie.findLoop]
    split_ifs with hsp
    · have hf := ht.findChild hl (l := l) fun c hc => hc
      rw [hsp]
      cases hh : t.findChild l (t.stop cu) (t.node cu).children with
      | none =>
        rw [hh] at hf
        rw [hsp] at hr hb
        exact ⟨cu, t.stop cu, rfl, hl, hn.1, le_rfl, hb, fun h => absurd h (lt_irrefl _), fun _ => hf⟩
      | some found =>
        rw [hh] at hf
        obtain ⟨c, pos⟩ := found
        obtain ⟨hc, rfl, hlt⟩ := hf
        obtain ⟨hcl, -, hcs, -⟩ := ht.child cu hl c hc
        have hp := ht.span c hcl
        have hs := card_lt_card (later_ssubset (i := cu) (ht.lt_size c hcl) (by omega))
        exact ih hcl ((lt_diff_iff hp.1 le_rfl).mp (by omega)) (by omega)
    · refine ⟨cu, _, rfl, hl, hr, he, hb, fun hlt => ?_, fun h => absurd h hsp⟩
      rw [← lt_diff_iff hlt hr.le]
      exact lt_irrefl _

/-- **What `find` returns.** -/
theorem Shape.find (ht : Shape t) (l : L) : ∃ loc pos, t.find l = .ok (loc, pos) ∧ Place t l loc pos := by
  refine ht.findLoop ht.root_live ?_ ?_
  · rw [ht.root_start]
    exact agree_zero _ _
  · have hs : later t 0 ⊂ range t.size := by
      refine (ssubset_iff_of_subset (filter_subset _ _)).mpr ?_
      exact ⟨0, Finset.mem_range.mpr (ht.lt_size 0 ht.root_live), fun h => lt_irrefl _ (Finset.mem_filter.mp h).2⟩
    simpa using card_lt_card hs

end

/-! ### Support -/

section

variable [TrieLedger L Id] [DecidableEq Id]

/-- A ledger is the tip of a node. -/
def IsTip (t : LedgerTrie L) (i : ℕ) (l : L) : Prop := t.stop i = seq l + 1 ∧ Agree l (t.ledger i) (seq l)

/-- A ledger is the tip of a node or descends from it. -/
def IsBelow (t : LedgerTrie L) (i : ℕ) (l : L) : Prop := Agree l (t.ledger i) (t.stop i - 1)

instance (t : LedgerTrie L) (i : ℕ) : DecidablePred (IsTip t i) := fun _ => inferInstanceAs (Decidable (_ ∧ _))

instance (t : LedgerTrie L) (i : ℕ) : DecidablePred (IsBelow t i) := fun _ => inferInstanceAs (Decidable (Agree _ _ _))

/-- **The trie counts the ledgers** `T`. -/
structure Counts (t : LedgerTrie L) (T : List L) : Prop extends Shape t where
  covered : ∀ l ∈ T, ∃ i, (t.node i).live = true ∧ IsTip t i l
  tip : ∀ i, (t.node i).live = true → (t.node i).tipSupport = T.countP fun l => IsTip t i l
  branch : ∀ i, (t.node i).live = true → (t.node i).branchSupport = T.countP fun l => IsBelow t i l

/-- The support at each sequence number counts the ledgers `T`. -/
def SeqCounts (support : Std.ExtTreeMap ℕ ℕ) (T : List L) : Prop :=
  ∀ s, support[s]? = if T.countP (fun l => seq l = s) = 0 then none else some (T.countP fun l => seq l = s)

/-- A node has support of its own, or several children. -/
def Needed (t : LedgerTrie L) (i : ℕ) : Prop := (t.node i).tipSupport ≠ 0 ∨ 2 ≤ (t.node i).children.length

/-- **The invariant of the trie** that tracks `T`. -/
structure Tracks (t : LedgerTrie L) (T : List L) : Prop extends Counts t T where
  seqs : SeqCounts t.seqSupport T
  needed : ∀ i, (t.node i).live = true → i ≠ 0 → Needed t i

variable [LawfulTrieLedger L] {t : LedgerTrie L} {T : List L} {l : L}

omit [DecidableEq Id] [LawfulTrieLedger L] in
theorem IsTip.isBelow (h : IsTip t i l) : IsBelow t i l := by
  rw [IsBelow, h.1]
  exact h.2

omit [LawfulTrieLedger L] in
/-- What is counted at a node depends on its span only. -/
theorem countP_isTip_congr {t' : LedgerTrie L} (h : (t'.node i).span = (t.node j).span) :
    (T.countP fun l => IsTip t' i l) = T.countP fun l => IsTip t j l := by
  refine countP_congr fun l _ => ?_
  rw [decide_eq_true_iff, decide_eq_true_iff, IsTip, IsTip, stop, ledger, h]

omit [LawfulTrieLedger L] in
theorem countP_isBelow_congr {t' : LedgerTrie L} (h : (t'.node i).span = (t.node j).span) :
    (T.countP fun l => IsBelow t' i l) = T.countP fun l => IsBelow t j l := by
  refine countP_congr fun l _ => ?_
  rw [decide_eq_true_iff, decide_eq_true_iff, IsBelow, IsBelow, stop, ledger, h]

section

omit [DecidableEq Id]

/-- A ledger is the tip of one live node at most. -/
theorem Shape.tip_unique (ht : Shape t) (hi : (t.node i).live) (hj : (t.node j).live)
    (hl : IsTip t i l) (hjl : IsTip t j l) : i = j := by
  have hp := (ht.span i hi).1
  have hs := (ht.span j hj).1
  have ho := hl.1
  have hst := hjl.1
  exact ht.unique hi hj (by omega) (by omega) (hl.2.symm.trans hjl.2)

/-- **The nodes that a tip is below** are those above its node. -/
theorem Shape.isBelow_iff (ht : Shape t) (hi : (t.node i).live) (hj : (t.node j).live)
    (hl : IsTip t j l) : IsBelow t i l ↔ Above t i j := by
  have hp := hl.1
  constructor
  · intro h
    have he : t.stop i - 1 ≤ seq l := h.1
    exact ht.above_of_agree hi hj (by omega) ((hl.2.mono he).symm.trans h)
  · intro h
    obtain ⟨-, -, ho, ha⟩ := ht.of_above hj h
    have hs := (ht.span j hj).1
    have he : t.stop i ≤ t.stop j := by
      rcases ho with rfl | ho
      · exact le_rfl
      · omega
    exact (hl.2.mono (by omega)).trans ha

/-- A tracked ledger that agrees with a node somewhere in its span is below it. -/
theorem Shape.isBelow_of_agree (ht : Shape t) (hi : (t.node i).live) (hj : (t.node j).live)
    (hl : IsTip t j l) (hs : t.start i ≤ s ∧ s < t.stop i) (ha : Agree l (t.ledger i) s) : IsBelow t i l := by
  have hp := hl.1
  have he := ha.1
  obtain ⟨k, hk, hb, hks, hlt, hkj⟩ := ht.exists_above hj (s := s) (by omega)
  have hik : i = k := ht.unique hi hk hs ⟨hks, hlt⟩ (ha.symm.trans ((hl.2.mono he).trans hkj.symm))
  rw [ht.isBelow_iff hi hj hl, hik]
  exact hb

end

/-- The root counts all that is tracked. -/
theorem Counts.branch_root (ht : Counts t T) : (t.node 0).branchSupport = T.length := by
  rw [ht.branch 0 ht.root_live, countP_eq_length]
  intro k _
  rw [decide_eq_true_iff, IsBelow, ht.root_stop]
  exact agree_zero _ _

end

end Xrpld.Consensus
