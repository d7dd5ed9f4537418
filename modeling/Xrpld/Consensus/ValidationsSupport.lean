import Xrpld.Lib.TreeMap
import Xrpld.Consensus.TriePreferred
import Xrpld.Consensus.Validations

/-!
# The trie and the ledgers that nodes support

The trie of `Validations` is changed whenever `last_ledger` is. Nothing else ties the two together,
so what is shown here is that no call forgets one of them.

## What is proved

`Kept`: the trie tracks the ledgers in `last_ledger`. Each call keeps this (`Kept.apply`), so it
holds after any sequence of calls: `support_of_runCalls`. The counters of the trie are `u32`, so the
calls may not name more nodes than that.
-/

namespace Xrpld.Consensus

open Std (ExtTreeMap ExtTreeSet)
open TrieLedger Xrpld.Consensus.Inner List Std.ExtTreeMap TreeMap Prod

section

variable {N L Id : Type} [LinearOrder N] [TrieLedger L Id] [LinearOrder Id] [LawfulTrieLedger L]
  {ad : ValidationsAdaptor N L Id} {pm : ValidationParms} {V : Finset N} {s s' : Inner N L Id} {T T' : List L}
  {l : L} {n : N} {key : LedgerKey Id} {Q : Unit → Inner N L Id → Prop} {E : Empty → Inner N L Id → Prop} {F : Fault → Prop}

/-- **The trie tracks what the nodes support**, and all nodes are among those that were named. -/
structure Kept (V : Finset N) (s : Inner N L Id) : Prop where
  tracks : Tracks s.trie (s.lastLedger.toList.map Prod.snd)
  last : ∀ n, n ∈ s.lastLedger → n ∈ V
  current : ∀ n, n ∈ s.current → n ∈ V
  waiting : ∀ (key : LedgerKey Id) (nodes : ExtTreeSet N), s.acquiring[key]? = some nodes → ∀ n ∈ nodes, n ∈ V

/-! ### The trie -/

omit [LinearOrder Id] in
theorem seq_eq_of_ownId {k : L} (h : ownId k = ownId l) : seq k = seq l :=
  (LawfulTrieLedger.unique k l _ _ le_rfl le_rfl h).1

theorem wp_trieRemove (ht : Tracks s.trie T) (hpm : T.Perm (l :: T'))
    (hQ : ∀ t, Tracks t T' → Q () { s with trie := t }) : wp (trieRemove l) Q E F s := by
  have hm : l ∈ T := hpm.mem_iff.mpr mem_cons_self
  have hp : 0 < T.countP fun k => ownId k = ownId l := countP_pos_iff.mpr ⟨l, hm, decide_eq_true rfl⟩
  obtain ⟨t, hu, ht'⟩ := ht.remove_of_perm (s := seq l) (n := 1) (R := [l]) (fun k _ hk => seq_eq_of_ownId hk) hpm
    (fun r hr => by rw [mem_singleton.mp hr]) (by rw [length_singleton]; omega)
  rw [trieRemove, wp_bind, wp_read, wp_bind, hu, wp_lift_ok]
  exact hQ t ht'

theorem wp_trieInsert (ht : Tracks s.trie T) (hf : T.length + 1 < 2 ^ 32)
    (hQ : ∀ t, Tracks t (l :: T) → Q () { s with trie := t }) : wp (trieInsert l) Q E F s := by
  obtain ⟨t, hr, ht'⟩ := ht.insert Nat.one_pos hf l
  rw [trieInsert, wp_bind, wp_read, wp_bind, hr, wp_lift_ok]
  exact hQ t ht'

omit [TrieLedger L Id] [LinearOrder Id] [LawfulTrieLedger L] in
/-- There are no more supported ledgers than nodes. -/
theorem length_toList_le {m : ExtTreeMap N L} (h : ∀ n, n ∈ m → n ∈ V) : m.toList.length ≤ V.card := by
  have hk : m.keys.length = m.toList.length := by rw [← map_fst_toList_eq_keys, length_map]
  rw [← hk, ← toFinset_card_of_nodup nodup_keys]
  refine Finset.card_le_card fun n hn => h n ?_
  rwa [List.mem_toFinset, ExtTreeMap.mem_keys] at hn

/-! ### Support -/

/-- The state of a node's support changes, what is known of the nodes does not. -/
structure SameNodes (s s' : Inner N L Id) : Prop where
  current : s'.current = s.current
  acquiring : s'.acquiring = s.acquiring

variable (h : Kept V s)

include h

/-- A node's support is taken back. -/
theorem Kept.dropSupport (hQ : ∀ s', Kept V s' → SameNodes s s' → Q () s') : wp (dropSupport n) Q E F s := by
  rw [Inner.dropSupport, wp_bind, wp_read]
  cases hl : s.lastLedger[n]? with
  | none => exact hQ s h ⟨rfl, rfl⟩
  | some last =>
    have hp := (toList_perm_cons_erase hl).map snd
    refine wp_trieRemove h.tracks hp fun t ht => hQ _ ⟨ht, fun k hk => ?_, h.current, h.waiting⟩ ⟨rfl, rfl⟩
    exact h.last k (mem_of_mem_erase hk)

/-- **A node comes to support a ledger**, and takes its support of another one back. -/
theorem Kept.updateTrieLedger (hV : V.card < 2 ^ 32) (hn : n ∈ V) (hQ : ∀ s', Kept V s' → SameNodes s s' → Q () s') :
    wp (updateTrieLedger l n) Q E F s := by
  rw [Inner.updateTrieLedger, wp_bind, wp_read, wp_bind, wp_update, wp_bind]
  have ha : ∀ k, k ∈ s.lastLedger.insert n l → k ∈ V := by
    intro k hk
    rw [ExtTreeMap.mem_insert, compare_eq_iff_eq] at hk
    rcases hk with rfl | hk
    · exact hn
    · exact h.last k hk
  have hm : ((s.lastLedger.insert n l).toList.map snd).Perm (l :: (s.lastLedger.erase n).toList.map snd) :=
    toList_insert_perm.map snd
  have hl : ((s.lastLedger.erase n).toList.map snd).length + 1 < 2 ^ 32 := by
    have he := length_toList_le ha
    rw [toList_insert_perm.length_eq, length_cons] at he
    rw [length_map]
    omega
  -- in both cases the trie tracks what the other nodes support when the ledger is put in
  have hi : ∀ t, Tracks t ((s.lastLedger.erase n).toList.map snd) →
      wp (trieInsert l) Q E F { s with lastLedger := s.lastLedger.insert n l, trie := t } := fun t ht =>
    wp_trieInsert ht hl fun t' ht' => hQ _ ⟨ht'.perm hm.symm, ha, h.current, h.waiting⟩ ⟨rfl, rfl⟩
  cases hp : s.lastLedger[n]? with
  | none =>
    have hr := h.tracks
    rw [← erase_eq_self hp] at hr
    exact hi _ hr
  | some prior =>
    exact wp_trieRemove h.tracks ((toList_perm_cons_erase hp).map snd) hi

/-! ### Waiting -/

section

omit [LawfulTrieLedger L]

/-- Nodes that wait less are still among those that were named. -/
theorem Kept.leave : Kept V (s.leave key n) ∧ (s.leave key n).current = s.current := by
  rw [Inner.leave]
  cases hw : s.acquiring[key]? with
  | none => exact ⟨h, rfl⟩
  | some waiters =>
    simp only
    split_ifs
    · refine ⟨⟨h.tracks, h.last, h.current, fun k' ns hn => ?_⟩, rfl⟩
      rw [TreeMap.getElem?_erase] at hn
      split_ifs at hn
      exact h.waiting k' ns hn
    · refine ⟨⟨h.tracks, h.last, h.current, fun k' ns hn k hk => ?_⟩, rfl⟩
      rw [TreeMap.getElem?_insert] at hn
      split_ifs at hn
      · rw [← Option.some.inj hn, TreeMap.mem_erase] at hk
        exact h.waiting key waiters hw k hk.2
      · exact h.waiting k' ns hn k hk

theorem Kept.wait (hn : n ∈ V) : Kept V (s.wait key n) := by
  refine ⟨h.tracks, h.last, h.current, fun k' ns hs k hk => ?_⟩
  rw [Inner.wait, TreeMap.getElem?_insert] at hs
  split_ifs at hs
  · rw [← Option.some.inj hs, TreeMap.mem_insert] at hk
    rcases hk with rfl | hk
    · exact hn
    · cases hw : s.acquiring[key]? with
      | none =>
        rw [hw] at hk
        exact absurd hk ExtTreeSet.not_mem_empty
      | some waiters =>
        rw [hw] at hk
        exact h.waiting key waiters hw k hk
  · exact h.waiting k' ns hs k hk

/-- Asking changes nothing that matters. -/
theorem wp_ask {α : Type} {an : ℕ → α} {Q : α → Inner N L Id → Prop}
    (hQ : ∀ s', Kept V s' → s'.current = s.current → s'.acquiring = s.acquiring → s'.lastLedger = s.lastLedger →
      Q (an s.calls) s') : wp (ask an) Q E F s := by
  exact hQ _ ⟨h.tracks, h.last, h.current, h.waiting⟩ rfl rfl rfl

end

variable {v : Validation Id}

theorem Kept.removeTrie (hQ : ∀ s', Kept V s' → s'.current = s.current → Q () s') : wp (removeTrie n v) Q E F s := by
  have hp : Kept V (s.pruneValidationRecoverySigner v.ledgerKey n) ∧
      (s.pruneValidationRecoverySigner v.ledgerKey n).current = s.current := by
    rw [pruneValidationRecoverySigner]
    split_ifs
    · exact ⟨⟨h.tracks, h.last, h.current, h.waiting⟩, rfl⟩
    · exact ⟨⟨h.tracks, h.last, h.current, h.waiting⟩, rfl⟩
    · exact ⟨h, rfl⟩
  obtain ⟨hl, hc⟩ : Kept V ((s.pruneValidationRecoverySigner v.ledgerKey n).leave v.ledgerKey n) ∧ _ :=
    hp.1.leave
  rw [Inner.removeTrie, wp_bind, wp_update, wp_bind, wp_read, wp_when]
  refine ⟨fun _ => hl.dropSupport fun s' hs' hs => hQ s' hs' ?_, fun _ => hQ _ hl (hc.trans hp.2)⟩
  exact hs.current.trans (hc.trans hp.2)

/-! ### Acquired ledgers -/

variable (hV : V.card < 2 ^ 32)

include hV

theorem Kept.checkLedger (hQ : ∀ s', Kept V s' → s'.current = s.current → Q () s') : wp (checkLedger ad key) Q E F s := by
  rw [Inner.checkLedger, wp_bind]
  refine wp_ask h fun s1 h1 hc ha _ => ?_
  cases ad.acquire s.calls (ofLex key).2 with
  | none => exact hQ s1 h1 hc
  | some ledger =>
    rw [wp_whenSome_some, wp_bind, wp_read, wp_bind]
    refine wp_ask h1 fun s2 h2 hu _ _ => ?_
    have hns : ∀ k ∈ ad.order s1.calls (s1.acquiring[key]?.getD ∅).toList, k ∈ V := by
      intro k hk
      rw [(ad.order_perm _ _).mem_iff, ExtTreeSet.mem_toList] at hk
      cases hw : s1.acquiring[key]? with
      | none =>
        rw [hw] at hk
        exact absurd hk ExtTreeSet.not_mem_empty
      | some waiters =>
        rw [hw] at hk
        exact h1.waiting key waiters hw k hk
    rw [wp_bind]
    refine wp_imp (wp_forEach (fun s' => Kept V s' ∧ s'.current = s.current)
      ⟨h2, hu.trans hc⟩ fun k hk s' hs => ?_) (fun _ s3 h3 => ?_)
    · exact hs.1.updateTrieLedger hV (hns k hk) fun s'' hs'' hm => ⟨hs'', hm.current.trans hs.2⟩
    · refine hQ _ ⟨h3.1.tracks, h3.1.last, h3.1.current, fun k' ns hn => ?_⟩ h3.2
      rw [TreeMap.getElem?_erase] at hn
      split_ifs at hn
      exact h3.1.waiting k' ns hn

/-- **Pending acquisitions** that are complete. -/
theorem Kept.checkAcquired (hQ : ∀ s', Kept V s' → s'.current = s.current → Q () s') : wp (checkAcquired ad) Q E F s := by
  refine wp_imp (wp_forEach (fun s' => Kept V s' ∧ s'.current = s.current) ⟨h, rfl⟩ fun key _ s' hs => ?_)
    (fun _ s' hs => hQ s' hs.1 hs.2)
  exact hs.1.checkLedger hV fun s'' hs'' hc => ⟨hs'', hc.trans hs.2⟩

theorem Kept.supportOrWait (hn : n ∈ V) (hQ : ∀ s', Kept V s' → s'.current = s.current → Q () s') :
    wp (supportOrWait ad n v) Q E F s := by
  rw [Inner.supportOrWait, wp_bind, wp_read, wp_ite]
  refine ⟨fun _ => hQ _ (h.wait hn) rfl, fun _ => ?_⟩
  rw [wp_bind]
  refine wp_ask h fun s1 h1 hc _ _ => ?_
  cases ad.acquire s.calls v.ledgerId with
  | none => exact hQ _ (h1.wait hn) hc
  | some ledger => exact h1.updateTrieLedger hV hn fun s' hs hm => hQ s' hs (hm.current.trans hc)

/-- **A trusted validation** changes the support of its node. -/
theorem Kept.updateTrieValidation {prior : Option (LedgerKey Id)} (hn : n ∈ V) (hv : v.trusted)
    (hQ : ∀ s', Kept V s' → s'.current = s.current → Q () s') : wp (updateTrieValidation ad n v prior) Q E F s := by
  have hk : ∀ s1, Kept V s1 → s1.current = s.current →
      wp (do Inner.checkAcquired ad; Inner.supportOrWait ad n v) Q E F s1 := by
    intro s1 h1 hu
    rw [wp_bind]
    refine h1.checkAcquired hV fun s2 h2 hcu => h2.supportOrWait hV hn fun s3 h3 hc => hQ s3 h3 ?_
    exact hc.trans (hcu.trans hu)
  rw [Inner.updateTrieValidation, wp_bind, wp_check]
  refine ⟨fun _ => ?_, fun hf => absurd hv (by rw [hf]; exact Bool.false_ne_true)⟩
  cases prior with
  | none => exact hk s h rfl
  | some priorKey => exact hk _ h.leave.1 h.leave.2

/-! ### The calls -/

variable (hQ : ∀ s', Kept V s' → Q () s') {now : ℕ} {added removed : List N}

include hQ

omit hV in
theorem Kept.evict : wp (evict n) Q E F s := by
  have he : ∀ s', Kept V s' → Q () { s' with current := s'.current.erase n } := fun s' hs =>
    hQ _ ⟨hs.tracks, hs.last, fun k hk => hs.current k (mem_of_mem_erase hk), hs.waiting⟩
  rw [Inner.evict, wp_bind, wp_read, wp_bind]
  cases s.current[n]? with
  | none => exact he s h
  | some v => exact h.removeTrie fun s' hs _ => he s' hs

omit hV in
/-- **Stale validations** are evicted. -/
theorem Kept.currentLive : wp (currentLive ad pm now) Q E F s := by
  rw [Inner.currentLive, wp_bind, wp_read, wp_bind]
  refine wp_ask h fun s1 h1 _ _ _ => ?_
  refine wp_imp (wp_forEach (Kept V) h1 fun k _ s' hs => hs.evict fun _ h => h) (fun _ s' hs => hQ s' hs)

theorem Kept.acquiredFor {ns : ExtTreeSet N} : wp (acquiredFor l ns n) Q E F s := by
  rw [Inner.acquiredFor, wp_bind, wp_read, wp_when]
  refine ⟨fun hc => ?_, fun _ => hQ s h⟩
  rw [Bool.and_eq_true, Option.any_eq_true] at hc
  obtain ⟨⟨v, hv, -⟩, -⟩ := hc
  exact h.updateTrieLedger hV (h.current n (mem_iff_exists.mpr ⟨v, hv⟩)) fun s' hs _ => hQ s' hs

omit hQ in
omit hV in
omit [LawfulTrieLedger L] in
theorem Kept.takeRecovery : Kept V (s.takeValidationRecoveryNodes key).2 := by
  rw [takeValidationRecoveryNodes]
  split_ifs
  · exact ⟨h.tracks, h.last, h.current, h.waiting⟩
  · exact ⟨h.tracks, h.last, h.current, h.waiting⟩
  · exact h

theorem Kept.onLedgerAcquired : wp (onLedgerAcquired ad pm now l) Q E F s := by
  rw [Inner.onLedgerAcquired, wp_bind]
  refine h.currentLive fun s1 h1 => ?_
  rw [wp_bind, wp_read, wp_bind, wp_update, wp_bind, wp_read]
  have h2 : Kept V { s1 with acquiring := s1.acquiring.erase (toLex (seq l, ownId l)) } := by
    refine ⟨h1.tracks, h1.last, h1.current, fun k' ns hn => ?_⟩
    rw [TreeMap.getElem?_erase] at hn
    split_ifs at hn
    exact h1.waiting k' ns hn
  rw [wp_bind, wp_update, wp_bind]
  refine wp_ask h2.takeRecovery fun s3 h3 _ _ _ => ?_
  exact wp_imp (wp_forEach (Kept V) h3 fun k _ s' hs => hs.acquiredFor hV fun _ h => h) (fun _ s' hs => hQ s' hs)

theorem Kept.unacquiredFor : wp (unacquiredFor ad n) Q E F s := by
  rw [Inner.unacquiredFor, wp_bind]
  refine h.dropSupport fun s1 h1 _ => ?_
  rw [wp_bind, wp_read]
  cases hc : s1.current[n]? with
  | none => exact hQ s1 h1
  | some v =>
    rw [wp_whenSome_some, wp_when]
    refine ⟨fun _ => ?_, fun _ => hQ s1 h1⟩
    exact h1.supportOrWait hV (h1.current n (mem_iff_exists.mpr ⟨v, hc⟩)) fun s' hs _ => hQ s' hs

omit hQ

theorem Kept.onLedgerUnacquired {id : Id} {Q : ℕ → Inner N L Id → Prop} (hQ : ∀ k s', Kept V s' → Q k s') :
    wp (onLedgerUnacquired ad pm now id) Q E F s := by
  rw [Inner.onLedgerUnacquired, wp_bind]
  refine h.currentLive fun s1 h1 => ?_
  rw [wp_bind, wp_read, wp_bind]
  refine wp_ask h1 fun s2 h2 _ _ _ => ?_
  rw [wp_bind]
  exact wp_imp (wp_forEach (Kept V) h2 fun k _ s' hs => hs.unacquiredFor hV fun _ h => h) (fun _ s' hs => hQ _ s' hs)

omit hV in
omit [LawfulTrieLedger L] in
/-- A validation of a named node becomes its current one. -/
theorem Kept.setCurrent (hn : n ∈ V) : Kept V { s with current := s.current.insert n v } := by
  refine ⟨h.tracks, h.last, fun k hk => ?_, h.waiting⟩
  rw [ExtTreeMap.mem_insert, compare_eq_iff_eq] at hk
  rcases hk with rfl | hk
  · exact hn
  · exact h.current k hk

theorem Kept.addCurrent {Q : ValStatus → Inner N L Id → Prop} (hn : n ∈ V)
    (hQ : ∀ status s', Kept V s' → Q status s') : wp (addCurrent ad n v) Q E F s := by
  rw [Inner.addCurrent, wp_bind, wp_read]
  cases s.current[n]? with
  | none =>
    rw [wp_bind, wp_when]
    refine ⟨fun hv => h.updateTrieValidation hV hn hv fun s' hs _ => hQ _ _ (hs.setCurrent hn), fun _ => ?_⟩
    exact hQ _ _ (h.setCurrent hn)
  | some oldVal =>
    rw [wp_ite]
    refine ⟨fun _ => ?_, fun _ => hQ _ s h⟩
    rw [wp_bind, wp_update, wp_bind, wp_when]
    refine ⟨fun hv => ?_, fun _ => hQ _ _ (h.setCurrent hn)⟩
    exact (h.setCurrent hn).updateTrieValidation hV hn hv fun s' hs _ => hQ _ s' hs

/-- **`add`** keeps the support in step. -/
theorem Kept.add {now instant : ℕ} {Q : ValStatus → Inner N L Id → Prop} (hn : n ∈ V)
    (hQ : ∀ status s', Kept V s' → Q status s') : wp (add ad pm now instant n v) Q E F s := by
  rw [Inner.add, wp_ite]
  refine ⟨fun _ => hQ _ s h, fun _ => ?_⟩
  rw [wp_bind, wp_update, wp_bind, wp_read, wp_bind, wp_update, wp_ite]
  refine ⟨fun _ => hQ _ _ ⟨h.tracks, h.last, h.current, h.waiting⟩, fun _ => ?_⟩
  refine Kept.addCurrent ?_ hV hn hQ
  exact ⟨h.tracks, h.last, h.current, h.waiting⟩

theorem Kept.trustChangedFor (hn : n ∈ s.current)
    (hQ : ∀ s', Kept V s' → (∀ k, k ∈ s.current → k ∈ s'.current) → Q () s') :
    wp (trustChangedFor ad added removed n) Q E F s := by
  have hnV := h.current n hn
  obtain ⟨v, hv⟩ := mem_iff_exists.mp hn
  have hm : ∀ {w : Validation Id} {k : N}, k ∈ s.current → k ∈ s.current.insert n w := fun hk =>
    mem_insert.mpr (.inr hk)
  rw [Inner.trustChangedFor, wp_bind, wp_read, hv]
  rw [wp_ite]
  refine ⟨fun _ => ?_, fun _ => ?_⟩
  · rw [wp_bind, wp_update]
    refine (h.setCurrent hnV).updateTrieValidation hV hnV rfl fun s' hs hc => hQ s' hs fun k hk => ?_
    rw [hc]
    exact hm hk
  · rw [wp_ite]
    refine ⟨fun _ => ?_, fun _ => hQ s h fun k hk => hk⟩
    refine (h.setCurrent hnV).removeTrie fun s' hs hc => hQ s' hs fun k hk => ?_
    rw [hc]
    exact hm hk

/-- **`trust_changed`** keeps the support in step. -/
theorem Kept.trustChanged (hQ : ∀ s', Kept V s' → Q () s') : wp (trustChanged ad added removed) Q E F s := by
  rw [Inner.trustChanged, wp_bind, wp_read, wp_bind]
  refine wp_ask h fun s1 h1 hc _ _ => ?_
  rw [wp_bind]
  refine wp_imp (wp_forEach (fun s' => Kept V s' ∧ ∀ k ∈ s.current.keys, k ∈ s'.current) ⟨h1, fun k hk => ?_⟩
    fun k hk s' hs => ?_) (fun _ s' hs => ?_)
  · rw [hc]
    exact mem_keys.mp hk
  · rw [(ad.order_perm _ _).mem_iff] at hk
    exact hs.1.trustChangedFor hV (hs.2 k hk) fun s'' hs'' hm => ⟨hs'', fun k' hk' => hm k' (hs.2 k' hk')⟩
  · exact hQ _ ⟨hs.1.tracks, hs.1.last, hs.1.current, hs.1.waiting⟩

/-- The preferred ledger of the trie. -/
theorem Kept.triePreferred {Q : Option (SpanTip L Id) → Inner N L Id → Prop} (hQ : ∀ tip s', Kept V s' → Q tip s') : wp
    (triePreferred ad pm now) Q E F s := by
  rw [Inner.triePreferred, wp_bind, withTrie, wp_bind]
  refine h.currentLive fun s1 h1 => h1.checkAcquired hV fun s2 h2 _ => ?_
  rw [wp_bind, wp_read]
  have hl : (s2.lastLedger.toList.map snd).length < 2 ^ 32 := by
    have he := length_toList_le h2.last
    rw [length_map]
    omega
  obtain ⟨tip, hr⟩ : ∃ tip, s2.trie.getPreferred s2.localSeqEnforcer.seq = .ok tip := by
    by_cases hT : s2.lastLedger.toList.map snd = []
    · have ht := h2.tracks
      rw [hT] at ht
      exact ⟨none, ht.getPreferred_nil _⟩
    · obtain ⟨tip, hr, -⟩ := h2.tracks.getPreferred hl hT s2.localSeqEnforcer.seq
      exact ⟨some tip, hr⟩
  rw [hr, wp_lift_ok]
  exact hQ tip s2 h2

/-! ### Runs -/

omit hV

omit h

/-- The calls of `Validations`, with the times they are made at. -/
inductive ValCall (N L Id : Type) where
  | add (now instant : ℕ) (nodeId : N) (val : Validation Id)
  | trustChanged (added removed : List N)
  | onLedgerAcquired (now : ℕ) (ledger : L)
  | onLedgerUnacquired (now : ℕ) (ledgerId : Id)
  | getPreferred (now : ℕ) (curr : L)
  | getPreferredLcl (now : ℕ) (lcl : L) (minSeq : ℕ) (peerCounts : List (Id × ℕ))
  | expire (instant : ℕ)
  | reconcileValidationRecoveryLatch (actualAnchor actualCandidate : Option (LedgerKey Id))
  | canValidateSeq (instant s : ℕ)
  | setSeqToKeep (low high : ℕ) (lt : low < high)

/-- The node that a call brings in. -/
def ValCall.node? : ValCall N L Id → Option N
  | .add _ _ nodeId _ => some nodeId
  | _ => none

/-- A call, its answer left out. -/
def ValCall.apply (ad : ValidationsAdaptor N L Id) (parms : ValidationParms) : ValCall N L Id → ValM N L Id Unit
  | .add now instant nodeId val => do let _ ← Inner.add ad parms now instant nodeId val
  | .trustChanged added removed => Inner.trustChanged ad added removed
  | .onLedgerAcquired now ledger => Inner.onLedgerAcquired ad parms now ledger
  | .onLedgerUnacquired now ledgerId => do let _ ← Inner.onLedgerUnacquired ad parms now ledgerId
  | .getPreferred now curr => do let _ ← Inner.getPreferred ad parms now curr
  | .getPreferredLcl now lcl minSeq peerCounts => do let _ ← Inner.getPreferredLcl ad parms now lcl minSeq peerCounts
  | .expire instant => Inner.expire ad parms instant
  | .reconcileValidationRecoveryLatch anchor candidate =>
    Prog.update fun s => s.reconcileValidationRecoveryLatch anchor candidate
  | .canValidateSeq instant s => do let _ ← Inner.canValidateSeq parms instant s
  | .setSeqToKeep low high _ => Inner.setSeqToKeep low high

/-- Calls on a new tracker. -/
def runCalls (ad : ValidationsAdaptor N L Id) (parms : ValidationParms) (calls : List (ValCall N L Id)) :
    Run (Except Empty Unit × Inner N L Id) := (forEach (ValCall.apply ad parms) calls).run Inner.new

/-- The nodes that calls bring in. -/
def namedNodes (calls : List (ValCall N L Id)) : Finset N := (calls.filterMap ValCall.node?).toFinset

omit [LawfulTrieLedger L] in
theorem Kept.observe {pv : Option (Provenance N Id)} (h : Kept V s) : Kept V (s.observeValidationRecovery pv) := by
  have hs : (s.observeValidationRecovery pv).trie = s.trie ∧
      (s.observeValidationRecovery pv).lastLedger = s.lastLedger ∧
      (s.observeValidationRecovery pv).current = s.current ∧
      (s.observeValidationRecovery pv).acquiring = s.acquiring := by
    fun_cases observeValidationRecovery s pv <;> exact ⟨rfl, rfl, rfl, rfl⟩
  obtain ⟨ht, hl, hc, ha⟩ := hs
  refine ⟨?_, ?_, ?_, ?_⟩
  · rw [ht, hl]
    exact h.tracks
  · rw [hl]
    exact h.last
  · rw [hc]
    exact h.current
  · rw [ha]
    exact h.waiting

/-- **Each call** keeps the support in step. -/
theorem Kept.apply {call : ValCall N L Id} (h : Kept V s) (hV : V.card < 2 ^ 32) (hc : ∀ n ∈ call.node?, n ∈ V) :
    wp (call.apply ad pm) (fun _ s' => Kept V s') E F s := by
  cases call with
  | add now instant n v =>
    rw [ValCall.apply, wp_bind]
    exact h.add hV (hc n rfl) fun _ _ h => h
  | trustChanged added removed => exact h.trustChanged hV fun _ h => h
  | onLedgerAcquired now ledger => exact h.onLedgerAcquired hV fun _ h => h
  | onLedgerUnacquired now id =>
    rw [ValCall.apply, wp_bind]
    exact h.onLedgerUnacquired hV fun _ _ h => h
  | getPreferred now cu =>
    rw [ValCall.apply, wp_bind, getPreferred, wp_bind]
    refine h.triePreferred hV fun tip s' hs => ?_
    cases tip with
    | none => exact hs
    | some tip => exact hs
  | getPreferredLcl now lcl minSeq peerCounts =>
    rw [ValCall.apply, wp_bind, getPreferredLcl, wp_bind]
    refine h.triePreferred hV fun tip s' hs => ?_
    exact hs.observe
  | expire instant =>
    rw [ValCall.apply, expire, wp_update]
    cases s.keep with
    | none => exact ⟨h.tracks, h.last, h.current, h.waiting⟩
    | some range =>
      simp only [refreshKept]
      split_ifs <;> exact ⟨h.tracks, h.last, h.current, h.waiting⟩
  | reconcileValidationRecoveryLatch anchor candidate =>
    exact ⟨h.tracks, h.last, h.current, h.waiting⟩
  | canValidateSeq instant t =>
    exact ⟨h.tracks, h.last, h.current, h.waiting⟩
  | setSeqToKeep low high lt =>
    rw [ValCall.apply, setSeqToKeep, wp_bind, wp_check]
    refine ⟨fun _ => ⟨h.tracks, h.last, h.current, h.waiting⟩, fun hf => ?_⟩
    exact absurd lt (of_decide_eq_false hf)

/-- At first nothing is supported. -/
theorem kept_new : Kept V (new : Inner N L Id) := by
  refine ⟨tracks_new, fun n hn => ?_, fun n hn => ?_, fun key ns hn => ?_⟩
  · exact absurd hn not_mem_empty
  · exact absurd hn not_mem_empty
  · rw [new, getElem?_empty] at hn
    cases hn

end

/-! ### Samples -/

/-- An adaptor that has one ledger. -/
def oneLedger : ValidationsAdaptor ℕ Chain ℕ where
  acquire _ id := if id = code [1] then some ⟨[1]⟩ else none
  order _ nodes := nodes
  order_perm _ _ := .refl _

/-- A trusted validation of the one ledger. -/
def oneVote : Validation ℕ := ⟨code [1], 1, 1000, 0, true, true, 0⟩

/-- As many nodes as told validate the one ledger. -/
def crowd (k : ℕ) : List (ValCall ℕ Chain ℕ) := (List.range k).map fun n => .add 1000 0 n oneVote

/-- A crowd of a size is in. -/
structure Crowd (k : ℕ) (s : Inner ℕ Chain ℕ) : Prop where
  tracks : Tracks s.trie (s.lastLedger.toList.map Prod.snd)
  length : s.lastLedger.toList.length = k
  fits : k < 2 ^ 32
  fresh : ∀ n, k ≤ n → s.current[n]? = none ∧ s.seqEnforcers[n]? = none ∧ s.lastLedger[n]? = none
  acquiring : s.acquiring = ∅

variable {E : Empty → Inner ℕ Chain ℕ → Prop} {s : Inner ℕ Chain ℕ}

/-- The support of one node more, if the call returns. -/
theorem updateTrieValidation_of_fresh {k : ℕ} {Q : Unit → Inner ℕ Chain ℕ → Prop} (ht : Tracks s.trie (s.lastLedger.toList.map snd))
    (hl : s.lastLedger[k]? = none) (ha : s.acquiring = ∅)
    (hQ : ∀ t, s.lastLedger.toList.length + 1 < 2 ^ 32 → Tracks t ((s.lastLedger.insert k ⟨[1]⟩).toList.map snd) →
      Q () { s with lastLedger := s.lastLedger.insert k ⟨[1]⟩, trie := t, calls := s.calls + 1 }) :
    wp (updateTrieValidation oneLedger k oneVote none) Q E ⊤ s := by
  have hp := (toList_insert_perm (m := s.lastLedger) (k := k) (v := (⟨[1]⟩ : Chain))).map snd
  rw [erase_eq_self hl] at hp
  rw [updateTrieValidation, wp_bind, wp_check]
  refine ⟨fun _ => ?_, fun _ => trivial⟩
  rw [wp_bind, wp_whenSome_none, wp_bind, checkAcquired, wp_bind, wp_read, ha]
  change wp (supportOrWait oneLedger k oneVote) Q E ⊤ s
  rw [supportOrWait, wp_bind, wp_read, ha, wp_ite]
  refine ⟨fun hm => absurd hm not_mem_empty, fun _ => ?_⟩
  change wp (updateTrieLedger ⟨[1]⟩ k) Q E ⊤ _
  rw [updateTrieLedger, wp_bind, wp_read, wp_bind, wp_update, wp_bind, hl,
    wp_whenSome_none, trieInsert, wp_bind, wp_read, wp_bind, wp_lift]
  refine ⟨fun t hu => ?_, fun _ _ => trivial⟩
  have hf := ht.fits_of_insert hu
  obtain ⟨t', hr, ht'⟩ := ht.insert Nat.one_pos hf ⟨[1]⟩
  cases hu.symm.trans hr
  rw [length_map] at hf
  exact hQ t hf (ht'.perm hp.symm)

/-- One node more is in, if the call returns. -/
theorem Crowd.add {k : ℕ} (h : Crowd k s) :
    wp (ValCall.apply oneLedger {} (.add 1000 0 k oneVote)) (fun _ s' => Crowd (k + 1) s') E ⊤ s := by
  obtain ⟨hr, hf, ha⟩ := h.fresh k le_rfl
  rw [ValCall.apply, wp_bind, Inner.add, wp_ite]
  refine ⟨fun hs => absurd hs (by decide), fun _ => ?_⟩
  rw [wp_bind, wp_update, wp_bind, wp_read, wp_bind, wp_update, hf, wp_ite]
  refine ⟨fun hb => absurd hb (by decide), fun _ => ?_⟩
  rw [wp_bind, wp_update, Inner.addCurrent, wp_bind, wp_read, hr]
  rw [wp_bind, wp_when]
  refine ⟨fun _ => ?_, fun hu => absurd hu (by decide)⟩
  refine updateTrieValidation_of_fresh h.tracks ha h.acquiring fun t hft ht => ?_
  refine ⟨ht, ?_, h.length ▸ hft, fun n hn => ?_, h.acquiring⟩
  · rw [TreeMap.toList_insert_perm.length_eq, List.length_cons, TreeMap.erase_eq_self ha, h.length]
  · obtain ⟨hc, he, hl⟩ := h.fresh n (by omega)
    have hne : k ≠ n := by omega
    simp only [TreeMap.getElem?_insert, if_neg hne]
    exact ⟨hc, he, hl⟩

/-- The crowd is in after its calls, if they return. -/
theorem crowd_of_runCalls (k : ℕ) :
    wp (forEach (ValCall.apply oneLedger {}) (crowd k)) (fun _ s => Crowd k s) E ⊤ new := by
  induction k with
  | zero =>
    refine ⟨tracks_new, rfl, by omega, fun n _ => ⟨?_, ?_, ?_⟩, rfl⟩ <;> exact getElem?_empty
  | succ k ih =>
    rw [crowd, range_succ, map_append, map_singleton, Prog.wp_forEach_concat]
    exact wp_imp ih (fun _ s hs => hs.add)

/-- A crowd that gets in is no larger than a `u32` counts. -/
theorem crowd_fits {k : ℕ} (hr : runCalls oneLedger {} (crowd k) = .ok (.ok (), s)) : k < 2 ^ 32 :=
  have hc : Crowd k s := post_of_run (crowd_of_runCalls k (E := ⊤)) hr
  hc.fits

end Xrpld.Consensus
