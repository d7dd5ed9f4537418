import Xrpld.Consensus.TrieRemove

/-!
# The support that the trie keeps

A trie is filled and emptied by any number of calls of `insert` and `remove`. What it is meant to
keep is a list of tracked ledgers, with as many copies of a ledger as its support.

## What is proved

`tipSupport_eq` and `branchSupport_eq`: what the trie answers is what is counted in the list.
`support_of_runOps`: this holds after every sequence of calls, as long as the whole support fits in
a `u32`.
-/

namespace Xrpld.Consensus

open TrieLedger List LedgerTrie

section

variable {L Id : Type} [TrieLedger L Id] [DecidableEq Id] [LawfulTrieLedger L] {t t' : LedgerTrie L} {T : List L}
  {i j p loc : ℕ} {l : L}

omit [DecidableEq Id] in
theorem shape_new : Shape (new : LedgerTrie L) := by
  have hl : ∀ i, ((new : LedgerTrie L).node i).live → i = 0 := fun i hi => beq_iff_eq.mp hi
  have hh : ∀ i, ((new : LedgerTrie L).node i).children = [] := fun _ => rfl
  have hs : ∀ i, (new : LedgerTrie L).start i = 0 := fun _ => LawfulTrieLedger.seq_genesis
  have hp : ∀ i, (new : LedgerTrie L).stop i = 1 := fun _ =>
    congrArg (· + 1) (LawfulTrieLedger.seq_genesis (L := L))
  refine ⟨rfl, hs 0, hp 0, rfl, fun i hi => ?_, fun i _ => ?_, fun i _ => ?_, fun i _ c hc => ?_,
    fun i _ c hc => ?_, fun i hi hi0 => ?_⟩
  · rw [hl i hi]
    exact Nat.one_pos
  · rw [hs, hp]
    exact ⟨Nat.one_pos, Nat.le_add_left _ _⟩
  · rw [hh]
    exact nodup_nil
  · rw [hh] at hc
    cases hc
  · rw [hh] at hc
    cases hc
  · exact absurd (hl i hi) hi0

/-- **A new trie** tracks nothing. -/
theorem tracks_new : Tracks (new : LedgerTrie L) [] := by
  refine ⟨⟨shape_new, fun l hl => absurd hl not_mem_nil, fun _ _ => rfl, fun _ _ => rfl⟩, fun s => ?_, fun i hi hi0 => ?_⟩
  · exact Std.ExtTreeMap.getElem?_empty
  · exact absurd (beq_iff_eq.mp hi) hi0

/-! ### Answers -/

/-- **`tip_support`** is the number of tracked ledgers with the id. -/
theorem Counts.tipSupport_eq (ht : Counts t T) (id : Id) : t.tipSupport id = T.countP fun l => ownId l = id := by
  have hs := ht.findByLedgerId id
  rw [tipSupport]
  cases hf : t.findByLedgerId id with
  | none =>
    rw [hf] at hs
    exact hs.symm
  | some i =>
    rw [hf] at hs
    exact hs.2.2

/-- **`branch_support`** is the number of tracked ledgers that are the ledger or descend from it. -/
theorem Counts.branchSupport_eq (ht : Counts t T) (l : L) :
    t.branchSupport l = .ok (T.countP fun k => Agree k l (seq l)) := by
  have hs := ht.toShape.findByLedgerId (ownId l)
  have ho : ancestor l (seq l) = ownId l := rfl
  rw [branchSupport, ho]
  cases hf : t.findByLedgerId (ownId l) with
  | some i =>
    rw [hf] at hs
    obtain ⟨hi, hti⟩ := hs
    obtain ⟨hsp, ha⟩ := (hti l).mpr rfl
    have hb : ∀ k, IsBelow t i k ↔ Agree k l (seq l) := by
      intro k
      rw [IsBelow, hsp, Nat.add_sub_cancel]
      exact ⟨fun h => h.trans ha.symm, fun h => h.trans ha⟩
    simp only [ht.branch i hi, hb]
  | none =>
    obtain ⟨loc, pos, hr, hp⟩ := ht.find l
    have hle : pos - 1 ≤ seq l := hp.agree.1
    have hsr := hp.start_lt
    have hsp := hp.le_stop
    simp only [hr, bind, Except.bind, pure, Except.pure]
    congr 1
    by_cases hpo : seq l < pos
    · rw [if_pos ⟨hpo, hpo.trans_le hsp⟩, ht.branch loc hp.live]
      have ha : Agree l (t.ledger loc) (seq l) := by
        have he : pos - 1 = seq l := by omega
        rw [← he]
        exact hp.agree
      refine countP_congr fun k hk => ?_
      rw [decide_eq_true_iff, decide_eq_true_iff]
      constructor
      · intro h
        exact (Agree.mono h (by omega)).trans ha.symm
      · intro h
        obtain ⟨j, hj, hti⟩ := ht.covered k hk
        exact ht.isBelow_of_agree hp.live hj hti ⟨by omega, by omega⟩ (h.trans ha)
    · rw [if_neg fun h => hpo h.1]
      symm
      rw [countP_eq_zero]
      intro k hk h
      rw [decide_eq_true_iff] at h
      obtain ⟨j, hj, hti⟩ := ht.covered k hk
      have hk := hti.1
      have hl := h.1
      exact ht.not_agree hp hj (by omega) ((h.symm.mono (by omega)).trans (hti.2.mono (by omega)))

/-! ### Calls -/

/-- The calls that change a trie. -/
inductive TrieOp (L Id : Type) where
  | insert (ledger : L) (count : ℕ)
  | remove (ledgerId : Id) (ledgerSeq count : ℕ)

/-- A call, its answer left out. -/
def TrieOp.apply (t : LedgerTrie L) : TrieOp L Id → Run (LedgerTrie L)
  | .insert ledger count => t.insert ledger count
  | .remove ledgerId ledgerSeq count => return (← t.remove ledgerId ledgerSeq count).2

/-- What a call does to the list of tracked ledgers. -/
def TrieOp.track (T : List L) : TrieOp L Id → List L
  | .insert ledger count => List.replicate count ledger ++ T
  | .remove ledgerId _ count => untrack ledgerId count T

/-- A call gives support, or it names a ledger by its own sequence number. -/
def TrieOp.Valid : TrieOp L Id → Prop
  | .insert _ count => 1 ≤ count
  | .remove ledgerId ledgerSeq _ => ∀ l : L, ownId l = ledgerId → seq l = ledgerSeq

variable (ops : List (TrieOp L Id))

/-- Calls on a new trie. -/
def runOps : Run (LedgerTrie L) := ops.foldlM TrieOp.apply LedgerTrie.new

/-- The ledgers that are tracked after calls. -/
def tracked : List L := ops.foldl TrieOp.track []

/-- The whole support fits in a `u32` all the time. -/
def Fits : Prop := ∀ before, before <+: ops → (tracked before).length < 2 ^ 32

/-- **One call**: the trie goes on to track what it should. -/
theorem Tracks.apply (ht : Tracks t T) {op : TrieOp L Id} (ho : op.Valid) (hf : (op.track T).length < 2 ^ 32) :
    ∃ t', op.apply t = .ok t' ∧ Tracks t' (op.track T) := by
  cases op with
  | insert l n =>
    rw [TrieOp.track, length_append, length_replicate] at hf
    exact ht.insert ho (by omega) l
  | remove id s n =>
    obtain ⟨t', hr, ht'⟩ := ht.remove (fun l _ hl => ho l hl) n
    refine ⟨t', ?_, ht'⟩
    rw [TrieOp.apply, hr]
    rfl

/-- **Any number of calls**: the trie tracks what it should. -/
theorem tracks_runOps {ops : List (TrieOp L Id)} (hv : ∀ op ∈ ops, op.Valid) (hft : Fits ops) :
    ∃ t, runOps ops = .ok t ∧ Tracks t (tracked ops) := by
  induction ops using reverseRecOn with
  | nil => exact ⟨_, rfl, tracks_new⟩
  | append_singleton ops op ih =>
    obtain ⟨t, hr, ht⟩ := ih (fun o ho => hv o (mem_append_left _ ho))
      fun before h => hft before (h.trans (prefix_append _ _))
    have hl : tracked (ops ++ [op]) = op.track (tracked ops) := by
      rw [tracked, foldl_append]
      rfl
    have hf := hft _ (prefix_refl _)
    rw [hl] at hf
    obtain ⟨t', ha, ht'⟩ := ht.apply (hv op (mem_append_right _ mem_cons_self)) hf
    rw [hl]
    refine ⟨t', ?_, ht'⟩
    rw [runOps, foldlM_append]
    rw [runOps] at hr
    rw [hr]
    simp only [bind, Except.bind, foldlM_cons, foldlM_nil, ha]
    rfl

end

/-! ### Chains -/

/-- A ledger that is given by the choices made since the genesis ledger. -/
structure Chain where
  choices : List ℕ

/-- How long two lists of choices are the same. -/
def commonLength : List ℕ → List ℕ → ℕ
  | a :: as, b :: bs => if a = b then commonLength as bs + 1 else 0
  | _, _ => 0

theorem le_commonLength {s : ℕ} {as bs : List ℕ} :
    s ≤ commonLength as bs ↔ s ≤ as.length ∧ s ≤ bs.length ∧ as.take s = bs.take s := by
  induction as generalizing s bs with
  | nil => cases s <;> simp [commonLength]
  | cons a as ih =>
    cases bs with
    | nil => cases s <;> simp [commonLength]
    | cons b bs =>
      cases s with
      | zero => simp
      | succ s =>
        rw [commonLength, take_succ_cons, take_succ_cons, cons.injEq, length_cons, length_cons,
          Nat.succ_le_succ_iff, Nat.succ_le_succ_iff]
        split_ifs with ha
        · rw [Nat.succ_le_succ_iff, ih]
          simp only [ha, true_and]
        · simp [ha]

/-- The number of a list of choices. -/
def code (choices : List ℕ) : ℕ := choices.foldl (fun n c => Nat.pair n c + 1) 0

theorem code_injective : Function.Injective code := by
  intro as
  induction as using reverseRecOn with
  | nil =>
    intro bs h
    rcases eq_nil_or_concat bs with rfl | ⟨bs, b, rfl⟩
    · rfl
    · rw [code, code, concat_eq_append, foldl_append] at h
      cases h
  | append_singleton as a ih =>
    intro bs h
    rcases eq_nil_or_concat bs with rfl | ⟨bs, b, rfl⟩
    · rw [code, code, foldl_append] at h
      cases h
    · rw [code, code, concat_eq_append, foldl_append, foldl_append] at h
      obtain ⟨hn, ha⟩ := Nat.pair_eq_pair.mp (Nat.succ.inj h)
      rw [ih hn, ha, concat_eq_append]

instance : TrieLedger Chain ℕ where
  genesis := ⟨[]⟩
  seq c := c.choices.length
  ancestor c s := code (c.choices.take s)
  mismatch a b := commonLength a.choices b.choices + 1

/-- The id of a chain names its length. -/
theorem length_of_ownId {c : Chain} {choices : List ℕ} (h : ownId c = code choices) :
    c.choices.length = choices.length := by
  have he : c.choices.take c.choices.length = choices := code_injective h
  rw [take_length] at he
  rw [he]

instance : LawfulTrieLedger Chain where
  seq_genesis := rfl
  agree_genesis _ _ := rfl
  unique a b s t hs ht h := by
    replace h : a.choices.take s = b.choices.take t := code_injective h
    have hst : s = t := by
      have hlen := congrArg List.length h
      rwa [List.length_take_of_le hs, List.length_take_of_le ht] at hlen
    subst hst
    refine ⟨rfl, fun u hu => congrArg code ?_⟩
    rw [← Nat.min_eq_left hu, ← List.take_take, ← List.take_take, h]
  lt_mismatch a b s := by
    change s < commonLength a.choices b.choices + 1 ↔ _
    rw [Nat.lt_succ_iff, le_commonLength]
    constructor
    · intro h u hu
      refine ⟨hu.trans h.1, hu.trans h.2.1, congrArg code ?_⟩
      rw [← Nat.min_eq_left hu, ← List.take_take, ← List.take_take, h.2.2]
    · intro h
      obtain ⟨ha, hb, heq⟩ := h s le_rfl
      exact ⟨ha, hb, code_injective heq⟩

/-! ### The refinement -/

section

variable {L Id : Type} [TrieLedger L Id] [DecidableEq Id] [LawfulTrieLedger L]

/-- **The trie refines the list of tracked ledgers.** After any calls that keep the whole support in a `u32`, the tip
support of an id is the number of tracked ledgers with it, the branch support of a ledger is the number of those that
are it or descend from it, and `remove` answers whether its ledger is tracked. -/
theorem support_of_runOps {ops : List (TrieOp L Id)} (hvalid : ∀ op ∈ ops, op.Valid) (hfits : Fits ops) :
    ∃ t, runOps ops = .ok t ∧ (∀ id, t.tipSupport id = (tracked ops).countP fun k => ownId k = id) ∧
      (∀ l, t.branchSupport l = .ok ((tracked ops).countP fun k => Agree k l (seq l))) ∧
      ∀ id s n, (TrieOp.remove id s n : TrieOp L Id).Valid →
        ∃ t', t.remove id s n = .ok (decide (0 < (tracked ops).countP fun k => ownId k = id), t') := by
  obtain ⟨t, hu, ht⟩ := tracks_runOps hvalid hfits
  refine ⟨t, hu, ht.tipSupport_eq, ht.branchSupport_eq, fun id s n ho => ?_⟩
  obtain ⟨t', hr, -⟩ := ht.remove (fun l _ hl => ho l hl) n
  exact ⟨t', hr⟩

end

/-- Two branches, of which one loses part of its support. -/
def twoBranches : List (TrieOp Chain ℕ) :=
  [.insert ⟨[1, 2]⟩ 2, .insert ⟨[1, 3]⟩ 1, .remove (code [1, 2]) 2 1]

theorem twoBranches_valid : ∀ op ∈ twoBranches, op.Valid := by
  intro op ho
  simp only [twoBranches, mem_cons, not_mem_nil, or_false] at ho
  rcases ho with rfl | rfl | rfl
  · exact Nat.le_succ _
  · exact le_rfl
  · exact fun c hc => length_of_ownId hc

theorem twoBranches_fits : Fits twoBranches := by
  have h : ∀ before ∈ twoBranches.inits, (tracked before).length < 2 ^ 32 := by decide
  exact fun before hb => h before ((mem_inits _ _).mpr hb)

/-- The two branches are counted. -/
theorem support_of_twoBranches : ∃ t, runOps twoBranches = .ok t ∧ t.tipSupport (code [1, 2]) = 1 ∧
    t.branchSupport (⟨[1]⟩ : Chain) = .ok 2 ∧ ∃ t', t.remove (code [1, 3]) 2 1 = .ok (true, t') := by
  obtain ⟨t, hu, ht, hb, hr⟩ := support_of_runOps twoBranches_valid twoBranches_fits
  exact ⟨t, hu, ht _, hb _, hr (code [1, 3]) 2 1 fun c hc => length_of_ownId hc⟩

/-- Support that does not fit in a `u32`. -/
def tooMuch : List (TrieOp Chain ℕ) := [.insert ⟨[1]⟩ (2 ^ 32 - 1), .insert ⟨[1]⟩ 1]

theorem tooMuch_valid : ∀ op ∈ tooMuch, op.Valid := by
  intro op ho
  simp only [tooMuch, mem_cons, not_mem_nil, or_false] at ho
  rcases ho with rfl | rfl
  · exact Nat.le_of_ble_eq_true rfl
  · exact le_rfl

/-- **Without the bound** the counters overflow, and there is no answer. -/
theorem not_support_of_runOps : ¬ ∀ ops : List (TrieOp Chain ℕ), (∀ op ∈ ops, op.Valid) → ∃ t, runOps ops = .ok t ∧
    (∀ id, t.tipSupport id = (tracked ops).countP fun k => ownId k = id) ∧
    (∀ l, t.branchSupport l = .ok ((tracked ops).countP fun k => Agree k l (seq l))) := by
  intro h
  obtain ⟨t, hr, -⟩ := h tooMuch tooMuch_valid
  cases hr

end Xrpld.Consensus
