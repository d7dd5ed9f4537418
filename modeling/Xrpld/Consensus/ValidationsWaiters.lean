import Xrpld.Consensus.ValidationsSupport

/-!
# The nodes that wait for a ledger

A node whose trusted validation is for a ledger that is not there yet is listed in `acquiring`
under that ledger, and `check_acquired` gives the ledger its support once it is there. It trusts the
list: nothing is checked again. So the list has to be cleaned whenever the current validation of a
node changes.

## What is proved

`Settled`: every node that waits has a current validation that is trusted and for that ledger, and
no node came to support a ledger for another reason. Every call keeps this but one: `add` with an
untrusted validation that is newer than the current one of a node that waits (`ValCall.Strands`).
Such a call always breaks it, so along a run it holds exactly when no call is of this kind:
`orderly_iff`.
-/

namespace Xrpld.Consensus

open Std (ExtTreeMap ExtTreeSet)
open TrieLedger Xrpld.Consensus.Inner Option TreeMap ValCall

section

variable {N L Id : Type} [LinearOrder N] [TrieLedger L Id] [LinearOrder Id] {ad : ValidationsAdaptor N L Id}
  {pm : ValidationParms} {s0 s s' : Inner N L Id} {cur : ExtTreeMap N (Validation Id)} {l : L} {m n : N}
  {key k' : LedgerKey Id} {v w : Validation Id}
  {Q : Unit → Inner N L Id → Prop} {E : Empty → Inner N L Id → Prop}

/-! ### Waiting -/

/-- A node waits for a ledger. -/
def IsWaiting (s : Inner N L Id) (key : LedgerKey Id) (n : N) : Prop :=
  ∃ waiters : ExtTreeSet N, s.acquiring[key]? = some waiters ∧ n ∈ waiters

/-- Every node that waits has a trusted current validation for what it waits for. -/
def LiveWaiters (cur : ExtTreeMap N (Validation Id)) (s : Inner N L Id) : Prop :=
  ∀ key n, IsWaiting s key n → ∃ v, cur[n]? = some v ∧ v.trusted = true ∧ v.ledgerKey = key

section

omit [TrieLedger L Id]

theorem isWaiting_iff_mem : IsWaiting s key n ↔ n ∈ s.acquiring[key]?.getD ∅ := by
  rw [IsWaiting]
  cases s.acquiring[key]? with
  | none => simp [ExtTreeSet.not_mem_empty]
  | some waiters => simp

theorem isWaiting_wait : IsWaiting (s.wait key n) k' m ↔ (key = k' ∧ n = m) ∨ IsWaiting s k' m := by
  simp only [isWaiting_iff_mem, wait, getElem?_insert]
  by_cases hk : key = k'
  · rw [if_pos hk, getD_some, mem_insert, ← hk]
    simp
  · rw [if_neg hk]
    simp [hk]

theorem isWaiting_eraseKey :
    IsWaiting { s with acquiring := s.acquiring.erase key } k' m ↔ key ≠ k' ∧ IsWaiting s k' m := by
  simp only [IsWaiting, getElem?_erase]
  by_cases hk : key = k'
  · simp [hk]
  · simp [hk]

theorem isWaiting_leave : IsWaiting (s.leave key n) k' m ↔ IsWaiting s k' m ∧ ¬ (key = k' ∧ n = m) := by
  rw [leave]
  cases hw : s.acquiring[key]? with
  | none =>
    refine ⟨fun h => ⟨h, ?_⟩, fun h => h.1⟩
    rintro ⟨rfl, rfl⟩
    rw [isWaiting_iff_mem, hw] at h
    exact ExtTreeSet.not_mem_empty h
  | some waiters =>
    simp only
    split_ifs with he
    · -- the last node that waits leaves
      have ho : IsWaiting s key m → n = m := fun h => by
        rw [isWaiting_iff_mem, hw, getD_some] at h
        by_contra hn
        have hm : m ∈ waiters.erase n := mem_erase.mpr ⟨hn, h⟩
        rw [ExtTreeSet.isEmpty_iff.mp he] at hm
        exact ExtTreeSet.not_mem_empty hm
      rw [isWaiting_eraseKey]
      refine ⟨fun h => ⟨h.2, fun h' => h.1 h'.1⟩, fun h => ⟨?_, h.1⟩⟩
      rintro rfl
      exact h.2 ⟨rfl, ho h.1⟩
    · simp only [isWaiting_iff_mem, getElem?_insert]
      by_cases hk : key = k'
      · rw [if_pos hk, getD_some, mem_erase, ← hk, hw, getD_some]
        simp [and_comm]
      · simp [hk]

/-- A node that waits for nothing but the ledger it leaves may have any validation. -/
theorem LiveWaiters.set (h : LiveWaiters cur s) (hn : ∀ key, ¬ IsWaiting s key n) : LiveWaiters (cur.insert n v) s := by
  intro key m hm
  have he : n ≠ m := by
    rintro rfl
    exact hn key hm
  rw [getElem?_insert, if_neg he]
  exact h key m hm

/-- Only the nodes that wait matter. -/
theorem LiveWaiters.of_same (h : LiveWaiters cur s) (hc : s'.current = cur) (ha : s'.acquiring = s.acquiring) :
    LiveWaiters s'.current s' := by
  intro key n hn
  rw [IsWaiting, ha] at hn
  rw [hc]
  exact h key n hn

end

/-! ### Support for the right reason -/

/-- **Support is given rightly**: what a node supports it has supported before, or it is the ledger
of the node's trusted current validation. -/
def RightlySupported (cur : ExtTreeMap N (Validation Id)) (s0 s : Inner N L Id) : Prop :=
  ∀ (n : N) (l : L), s.lastLedger[n]? = some l →
    s0.lastLedger[n]? = some l ∨ ∃ v, cur[n]? = some v ∧ v.trusted = true ∧ v.ledgerId = ownId l

/-- **The nodes that wait are in order**, and so is what nodes came to support since `s0`; the
current validations are those of `cur`. -/
structure Settled (cur : ExtTreeMap N (Validation Id)) (s0 s : Inner N L Id) : Prop where
  live : LiveWaiters cur s
  support : RightlySupported cur s0 s

theorem Settled.refl (h : LiveWaiters cur s) : Settled cur s s := ⟨h, fun _ _ hl => .inl hl⟩

/-- Only the nodes that wait and what nodes support matter. -/
theorem Settled.congr (h : Settled cur s0 s) (hc : s'.acquiring = s.acquiring)
    (ha : s'.lastLedger = s.lastLedger) : Settled cur s0 s' := by
  refine ⟨fun key n hn => h.live key n ?_, fun n l hl => h.support n l ?_⟩
  · rwa [IsWaiting, hc] at hn
  · rwa [ha] at hl

theorem Settled.of_same (h : Settled cur s0 s) (hc : s'.current = cur) (ha : s'.acquiring = s.acquiring)
    (hl : s'.lastLedger = s.lastLedger) : Settled s'.current s0 s' := by
  rw [hc]
  exact h.congr ha hl

omit [TrieLedger L Id] in
/-- Who waits is all that changes. -/
theorem leave_frame : (s.leave key n).current = s.current ∧ (s.leave key n).lastLedger = s.lastLedger := by
  rw [leave]
  split
  · exact ⟨rfl, rfl⟩
  · split_ifs <;> exact ⟨rfl, rfl⟩

theorem Settled.leave (h : Settled cur s0 s) : Settled cur s0 (s.leave key n) := by
  refine ⟨fun k' m hm => h.live k' m (isWaiting_leave.mp hm).1, fun m l hl => h.support m l ?_⟩
  rwa [leave_frame.2] at hl

theorem Settled.wait (h : Settled cur s0 s) (hv : cur[n]? = some v) (ht : v.trusted) :
    Settled cur s0 (s.wait v.ledgerKey n) := by
  refine ⟨fun key m hm => ?_, h.support⟩
  rcases isWaiting_wait.mp hm with ⟨rfl, rfl⟩ | hm
  · exact ⟨v, hv, ht, rfl⟩
  · exact h.live key m hm

theorem Settled.eraseKey (h : Settled cur s0 s) : Settled cur s0 { s with acquiring := s.acquiring.erase key } :=
  ⟨fun k' m hm => h.live k' m (isWaiting_eraseKey.mp hm).2, h.support⟩

/-- What is left of a node when its validation is dropped. -/
structure Detached (n : N) (s0 s : Inner N L Id) : Prop where
  idle : ∀ key, ¬ IsWaiting s key n
  kept : ∀ l, s.lastLedger[n]? = some l → s0.lastLedger[n]? = some l

/-- Such a node may get another validation. -/
theorem Settled.set (h : Settled cur s0 s) (hn : Detached n s0 s) : Settled (cur.insert n v) s0 s := by
  refine ⟨h.live.set hn.idle, fun m l hl => ?_⟩
  by_cases he : n = m
  · exact .inl (he ▸ hn.kept l (he ▸ hl))
  · rw [getElem?_insert, if_neg he]
    exact h.support m l hl

/-- Such a node needs no validation. -/
theorem Settled.unset (h : Settled cur s0 s) (hn : Detached n s0 s) : Settled (cur.erase n) s0 s := by
  refine ⟨fun key m hm => ?_, fun m l hl => ?_⟩
  · have he : n ≠ m := by
      rintro rfl
      exact hn.idle key hm
    rw [getElem?_erase, if_neg he]
    exact h.live key m hm
  · by_cases he : n = m
    · exact .inl (he ▸ hn.kept l (he ▸ hl))
    · rw [getElem?_erase, if_neg he]
      exact h.support m l hl

/-! ### The trie -/

/-- What the functions that touch the trie leave alone. -/
structure SameWaiters (s s' : Inner N L Id) : Prop where
  current : s'.current = s.current
  acquiring : s'.acquiring = s.acquiring

theorem wp_trieRemove_frame (hQ : ∀ t, Q () { s with trie := t }) : wp (trieRemove l) Q E ⊤ s := by
  rw [trieRemove, wp_bind, wp_read, wp_bind, wp_lift]
  exact ⟨fun r _ => hQ r.2, fun _ _ => trivial⟩

theorem wp_trieInsert_frame (hQ : ∀ t, Q () { s with trie := t }) : wp (trieInsert l) Q E ⊤ s := by
  rw [trieInsert, wp_bind, wp_read, wp_bind, wp_lift]
  exact ⟨fun t _ => hQ t, fun _ _ => trivial⟩

theorem wp_dropSupport_frame (hQ : ∀ t, Q () { s with trie := t, lastLedger := s.lastLedger.erase n }) :
    wp (dropSupport n) Q E ⊤ s := by
  rw [dropSupport, wp_bind, wp_read]
  cases hl : s.lastLedger[n]? with
  | none =>
    have h := hQ s.trie
    rwa [erase_eq_self hl] at h
  | some last => exact wp_trieRemove_frame hQ

theorem wp_updateTrieLedger_frame (hQ : ∀ t, Q () { s with trie := t, lastLedger := s.lastLedger.insert n l }) :
    wp (updateTrieLedger l n) Q E ⊤ s := by
  rw [updateTrieLedger, wp_bind, wp_read, wp_bind, wp_update, wp_bind]
  cases s.lastLedger[n]? with
  | none => exact wp_trieInsert_frame hQ
  | some prior => exact wp_trieRemove_frame fun t => wp_trieInsert_frame hQ

omit [TrieLedger L Id] in
theorem wp_ask_frame {α : Type} {an : ℕ → α} {Q : α → Inner N L Id → Prop}
    (hQ : Q (an s.calls) { s with calls := s.calls + 1 }) : wp (ask an) Q E ⊤ s := hQ

/-- Asking changes nothing that matters. -/
theorem Settled.ask {α : Type} {an : ℕ → α} {Q : α → Inner N L Id → Prop} (h : Settled s.current s0 s)
    (hQ : ∀ s', Settled s'.current s0 s' → Q (an s.calls) s') : wp (ask an) Q E ⊤ s :=
  wp_ask_frame (hQ _ (h.of_same rfl rfl rfl))

/-! ### Acquired ledgers -/

/-- The adaptor answers with the ledger that it is asked for. -/
def AcquiresById (ad : ValidationsAdaptor N L Id) : Prop := ∀ k id l, ad.acquire k id = some l → ownId l = id

/-- A node comes to support the ledger of its trusted validation. -/
theorem Settled.updateTrieLedger (h : Settled cur s0 s) (hv : cur[n]? = some v) (ht : v.trusted)
    (hl : v.ledgerId = ownId l) (hQ : ∀ s', Settled cur s0 s' → SameWaiters s s' → Q () s') :
    wp (updateTrieLedger l n) Q E ⊤ s := by
  refine wp_updateTrieLedger_frame fun t => hQ _ ⟨h.live, fun m k hk => ?_⟩ ⟨rfl, rfl⟩
  rw [getElem?_insert] at hk
  split_ifs at hk with hn
  · subst hn
    exact .inr ⟨v, hv, ht, hl.trans (congrArg ownId (some.inj hk))⟩
  · exact h.support m k hk

variable (had : AcquiresById ad)

include had

theorem Settled.checkLedger (h : Settled cur s0 s) (hQ : ∀ s', Settled cur s0 s' → s'.current = s.current → Q () s') :
    wp (checkLedger ad key) Q E ⊤ s := by
  rw [Inner.checkLedger, wp_bind]
  refine wp_ask_frame ?_
  cases hl : ad.acquire s.calls (ofLex key).2 with
  | none => exact hQ _ (h.congr rfl rfl) rfl
  | some ledger =>
    rw [wp_whenSome_some, wp_bind, wp_read, wp_bind]
    refine wp_ask_frame ?_
    rw [wp_bind]
    refine wp_imp (wp_forEach (fun s' => Settled cur s0 s' ∧ s'.current = s.current) ⟨h.congr rfl rfl, rfl⟩
      fun k hk s' hs => ?_) (fun _ s' hs => hQ _ hs.1.eraseKey hs.2)
    rw [(ad.order_perm _ _).mem_iff, ExtTreeSet.mem_toList] at hk
    obtain ⟨v, hv, ht, he⟩ := h.live key k (isWaiting_iff_mem.mpr hk)
    have hi : v.ledgerId = ownId ledger := by
      rw [had _ _ _ hl, ← he]
      rfl
    exact hs.1.updateTrieLedger hv ht hi fun s'' hs'' hm => ⟨hs'', hm.current.trans hs.2⟩

/-- **Ledgers that were waited for** give their support to the nodes that wait, and these are the right ones. -/
theorem Settled.checkAcquired (h : Settled cur s0 s) (hQ : ∀ s', Settled cur s0 s' → s'.current = s.current → Q () s') :
    wp (checkAcquired ad) Q E ⊤ s := by
  refine wp_imp (wp_forEach (fun s' => Settled cur s0 s' ∧ s'.current = s.current) ⟨h, rfl⟩ fun key _ s' hs => ?_)
    (fun _ s' hs => hQ s' hs.1 hs.2)
  exact hs.1.checkLedger had fun s'' hs'' hc => ⟨hs'', hc.trans hs.2⟩

theorem Settled.supportOrWait (h : Settled cur s0 s) (hv : cur[n]? = some v)
    (ht : v.trusted) (hQ : ∀ s', Settled cur s0 s' → s'.current = s.current → Q () s') :
    wp (supportOrWait ad n v) Q E ⊤ s := by
  rw [Inner.supportOrWait, wp_bind, wp_read, wp_ite]
  refine ⟨fun _ => hQ _ (h.wait hv ht) rfl, fun _ => ?_⟩
  rw [wp_bind]
  refine wp_ask_frame ?_
  have h1 : Settled cur s0 { s with calls := s.calls + 1 } := h.congr rfl rfl
  cases hl : ad.acquire s.calls v.ledgerId with
  | none => exact hQ _ (h1.wait hv ht) rfl
  | some ledger =>
    exact h1.updateTrieLedger hv ht (had _ _ _ hl).symm fun s' hs' hs => hQ s' hs' hs.current

/-- **A trusted validation** that is, or is about to be, the current one of its node. -/
theorem Settled.updateTrieValidation {prior : Option (LedgerKey Id)} (hv : cur[n]? = some v)
    (ht : v.trusted) (h : Settled cur s0 (prior.elim s fun key => s.leave key n))
    (hQ : ∀ s', Settled cur s0 s' → s'.current = s.current → Q () s') :
    wp (updateTrieValidation ad n v prior) Q E ⊤ s := by
  have hk : ∀ s1 : Inner N L Id, Settled cur s0 s1 → s1.current = s.current →
      wp (do Inner.checkAcquired ad; Inner.supportOrWait ad n v) Q E ⊤ s1 := by
    intro s1 h1 hu
    rw [wp_bind]
    refine h1.checkAcquired had fun s2 h2 hcu => h2.supportOrWait had hv ht fun s3 h3 hc => hQ s3 h3 ?_
    exact hc.trans (hcu.trans hu)
  rw [Inner.updateTrieValidation, wp_bind, wp_check]
  refine ⟨fun _ => ?_, fun _ => trivial⟩
  cases prior with
  | none => exact hk s h rfl
  | some priorKey => exact hk _ h leave_frame.1

/-! ### Validations that are dropped -/

omit had in
omit [TrieLedger L Id] in
/-- The recovery slots are all that changes. -/
theorem prune_frame : (s.pruneValidationRecoverySigner key n).current = s.current ∧
    (s.pruneValidationRecoverySigner key n).acquiring = s.acquiring ∧
    (s.pruneValidationRecoverySigner key n).lastLedger = s.lastLedger := by
  rw [pruneValidationRecoverySigner]
  split_ifs <;> exact ⟨rfl, rfl, rfl⟩

omit had in
omit [TrieLedger L Id] in
/-- A node that leaves the ledger of its validation waits for none. -/
theorem LiveWaiters.idle_of_leave (h : LiveWaiters cur s) (hv : cur[n]? = some v) :
    ¬ IsWaiting (s.leave v.ledgerKey n) key n := by
  rw [isWaiting_leave]
  rintro ⟨ha, hn⟩
  obtain ⟨w, hw, -, rfl⟩ := h key n ha
  cases hv.symm.trans hw
  exact hn ⟨rfl, rfl⟩

omit had in
/-- **The validation of a node is taken back**: the node waits for nothing and supports nothing that
it did not support before. -/
theorem Settled.removeTrie (h : Settled cur s0 s) (hv : cur[n]? = some v) (hk : w.ledgerKey = v.ledgerKey)
    (hQ : ∀ s', Settled cur s0 s' → Detached n s0 s' → s'.current = s.current → Q () s') :
    wp (removeTrie n w) Q E ⊤ s := by
  have hd : w.ledgerId = v.ledgerId := congrArg (fun key => (ofLex key).2) hk
  rw [Inner.removeTrie, hk, wp_bind, wp_update, wp_bind, wp_read, wp_when, hd]
  have hp : Settled cur s0 (s.pruneValidationRecoverySigner v.ledgerKey n) := h.congr prune_frame.2.1 prune_frame.2.2
  have hi : ∀ key, ¬ IsWaiting ((s.pruneValidationRecoverySigner v.ledgerKey n).leave v.ledgerKey n) key n :=
    fun _ => hp.live.idle_of_leave hv
  have hc : ((s.pruneValidationRecoverySigner v.ledgerKey n).leave v.ledgerKey n).current = s.current :=
    leave_frame.1.trans prune_frame.1
  generalize hs : (s.pruneValidationRecoverySigner v.ledgerKey n).leave v.ledgerKey n = s1 at hi hc
  have h1 : Settled cur s0 s1 := hs ▸ hp.leave
  constructor
  · intro _
    refine wp_dropSupport_frame fun t => hQ _ ⟨h1.live, fun m l hl => ?_⟩ ⟨hi, fun l hl => ?_⟩ hc
    · rw [getElem?_erase] at hl
      split_ifs at hl
      exact h1.support m l hl
    · rw [getElem?_erase, if_pos rfl] at hl
      cases hl
  · -- the node supports another ledger than that of its validation, so it did before
    intro ho
    refine hQ _ h1 ⟨hi, fun l hl => ?_⟩ hc
    rcases h1.support n l hl with hold | ⟨v', hv', -, hl'⟩
    · exact hold
    · cases hv.symm.trans hv'
      rw [hl, any_some, decide_eq_false_iff_not] at ho
      exact absurd hl'.symm ho

variable (h : Settled s.current s0 s)

include h

variable (hQ : ∀ s', Settled s'.current s0 s' → Q () s') {added removed : List N} {now : ℕ}

include hQ

omit had in
/-- A node's current validation is dropped. -/
theorem Settled.evict : wp (evict n) Q E ⊤ s := by
  rw [Inner.evict, wp_bind, wp_read, wp_bind]
  cases hv : s.current[n]? with
  | none =>
    rw [wp_whenSome_none, wp_update, erase_eq_self hv]
    exact hQ s h
  | some v =>
    refine h.removeTrie hv rfl fun s' hs hn hc => ?_
    exact hQ _ ((hs.unset hn).of_same (congrArg (·.erase n) hc) rfl rfl)

omit had in
/-- **Stale validations** are dropped. -/
theorem Settled.currentLive : wp (currentLive ad pm now) Q E ⊤ s := by
  rw [Inner.currentLive, wp_bind, wp_read, wp_bind]
  refine h.ask fun s1 h1 => ?_
  refine wp_imp (wp_forEach (fun s' => Settled s'.current s0 s') h1
    fun k _ s' hs => hs.evict fun _ h => h) (fun _ s' hs => hQ s' hs)

/-! ### The calls -/

omit hQ in
omit h in
omit had in
omit [TrieLedger L Id] in
/-- The recovery slots are all that changes. -/
theorem observe_frame {pv : Option (Provenance N Id)} :
    (s.observeValidationRecovery pv).current = s.current ∧
    (s.observeValidationRecovery pv).acquiring = s.acquiring ∧
    (s.observeValidationRecovery pv).lastLedger = s.lastLedger := by
  fun_cases observeValidationRecovery s pv <;> exact ⟨rfl, rfl, rfl⟩

omit hQ in
omit h in
omit had in
omit [TrieLedger L Id] in
/-- The recovery slots are all that changes. -/
theorem takeRecovery_frame : (s.takeValidationRecoveryNodes key).2.current = s.current ∧
    (s.takeValidationRecoveryNodes key).2.acquiring = s.acquiring := by
  rw [takeValidationRecoveryNodes]
  split_ifs <;> exact ⟨rfl, rfl⟩

theorem Settled.unacquiredFor : wp (unacquiredFor ad n) Q E ⊤ s := by
  rw [Inner.unacquiredFor, wp_bind]
  refine wp_dropSupport_frame fun t => ?_
  have h1 : Settled s.current s0 { s with trie := t, lastLedger := s.lastLedger.erase n } := by
    refine ⟨h.live, fun m l hl => ?_⟩
    rw [getElem?_erase] at hl
    split_ifs at hl
    exact h.support m l hl
  rw [wp_bind, wp_read]
  cases hv : s.current[n]? with
  | none => exact hQ _ h1
  | some v =>
    rw [wp_whenSome_some, wp_when]
    refine ⟨fun ht => ?_, fun _ => hQ _ h1⟩
    exact h1.supportOrWait had hv ht fun s' hs hc => hQ s' (hc.symm ▸ hs)

omit hQ in
theorem Settled.onLedgerUnacquired {id : Id} {Q : ℕ → Inner N L Id → Prop}
    (hQ : ∀ k s', Settled s'.current s0 s' → Q k s') : wp (onLedgerUnacquired ad pm now id) Q E ⊤ s := by
  rw [Inner.onLedgerUnacquired, wp_bind]
  refine h.currentLive fun s1 h1 => ?_
  rw [wp_bind, wp_read, wp_bind]
  refine h1.ask fun s2 h2 => ?_
  rw [wp_bind]
  exact wp_imp (wp_forEach (fun s' => Settled s'.current s0 s') h2
    fun k _ s' hs => hs.unacquiredFor had fun _ h => h) (fun _ s' hs => hQ _ s' hs)

theorem Settled.trustChangedFor : wp (trustChangedFor ad added removed n) Q E ⊤ s := by
  rw [Inner.trustChangedFor, wp_bind, wp_read]
  cases hv : s.current[n]? with
  | none =>
    rw [wp_ite]
    exact ⟨fun _ => trivial, fun _ => hQ s h⟩
  | some v =>
    rw [wp_ite]
    refine ⟨fun _ => ?_, fun _ => ?_⟩
    · rw [wp_bind, wp_update]
      have hs : Settled (s.current.insert n { v with trusted := true }) s0 s := by
        refine ⟨fun key m hm => ?_, fun m l hl => ?_⟩
        · obtain ⟨w, hw, ht, hk⟩ := h.live key m hm
          rw [getElem?_insert]
          split_ifs with he
          · subst he
            cases hv.symm.trans hw
            exact ⟨_, rfl, rfl, hk⟩
          · exact ⟨w, hw, ht, hk⟩
        · refine (h.support m l hl).imp_right ?_
          rintro ⟨w, hw, ht, hi⟩
          rw [getElem?_insert]
          split_ifs with he
          · subst he
            cases hv.symm.trans hw
            exact ⟨_, rfl, rfl, hi⟩
          · exact ⟨w, hw, ht, hi⟩
      refine Settled.updateTrieValidation had (getElem?_insert.trans (if_pos rfl)) rfl (hs.congr rfl rfl)
        fun s' hs' hc => hQ s' (hs'.of_same hc rfl rfl)
    · rw [wp_ite]
      refine ⟨fun _ => ?_, fun _ => hQ s h⟩
      -- the support of the node is taken back by the validation it had
      refine Settled.removeTrie (h.congr rfl rfl) hv rfl fun s' hs' hn hc => hQ s' ?_
      exact (hs'.set hn).of_same hc rfl rfl

theorem Settled.trustChanged : wp (trustChanged ad added removed) Q E ⊤ s := by
  rw [Inner.trustChanged, wp_bind, wp_read, wp_bind]
  refine h.ask fun s1 h1 => ?_
  rw [wp_bind]
  refine wp_imp (wp_forEach (fun s' => Settled s'.current s0 s') h1
    fun k _ s' hs => hs.trustChangedFor had fun _ h => h) (fun _ s' hs => ?_)
  exact hQ _ (hs.of_same rfl rfl rfl)

omit hQ

/-- The preferred ledger of the trie. -/
theorem Settled.triePreferred {Q : Option (SpanTip L Id) → Inner N L Id → Prop}
    (hQ : ∀ tip s', Settled s'.current s0 s' → Q tip s') : wp (triePreferred ad pm now) Q E ⊤ s := by
  rw [Inner.triePreferred, wp_bind, withTrie, wp_bind]
  refine h.currentLive fun s1 h1 => h1.checkAcquired had fun s2 h2 hc => ?_
  rw [wp_bind, wp_read, wp_lift]
  exact ⟨fun tip _ => hQ tip s2 (hc ▸ h2), fun _ _ => trivial⟩

omit h

omit had

/-- A newer untrusted validation of a node that waits: it becomes the current one, and the node still waits. -/
def ValCall.Strands (parms : ValidationParms) (s : Inner N L Id) : ValCall N L Id → Prop
  | .add now instant n v => isCurrent parms now v.signTime v.seenTime = true ∧
      ((s.seqEnforcers[n]?.getD {}).tryAdvance instant v.seq parms).1 = true ∧ v.trusted = false ∧
      ∃ old, s.current[n]? = some old ∧ old.signTime < v.signTime ∧ IsWaiting s old.ledgerKey n
  | _ => False

variable {Q : ValStatus → Inner N L Id → Prop} {call : ValCall N L Id}

/-- The last part of `add`, unless the node is stranded. -/
theorem Settled.addCurrent (had : AcquiresById ad) (h : LiveWaiters s.current s)
    (ha : v.trusted = false → ∀ old, s.current[n]? = some old → old.signTime < v.signTime →
      ¬ IsWaiting s old.ledgerKey n) (hQ : ∀ status s', Settled s'.current s s' → Q status s') :
    wp (addCurrent ad n v) Q E ⊤ s := by
  have hg : (s.current.insert n v)[n]? = some v := getElem?_insert.trans (if_pos rfl)
  rw [Inner.addCurrent, wp_bind, wp_read]
  cases hold : s.current[n]? with
  | none =>
    have hi : ∀ key, ¬ IsWaiting s key n := fun key hn => by
      obtain ⟨w, hw, -⟩ := h key n hn
      cases hold.symm.trans hw
    have hs : Settled (s.current.insert n v) s s := .refl (h.set hi)
    rw [wp_bind, wp_when]
    refine ⟨fun ht => ?_, fun _ => hQ _ _ (hs.of_same rfl rfl rfl)⟩
    refine Settled.updateTrieValidation had hg ht hs fun s' hs' hc => ?_
    exact hQ _ _ (hs'.of_same (congrArg (·.insert n v) hc) rfl rfl)
  | some old =>
    rw [wp_ite]
    refine ⟨fun hne => ?_, fun _ => hQ _ s (.refl h)⟩
    rw [wp_bind, wp_update, wp_bind, wp_when]
    refine ⟨fun ht => ?_, fun hu => ?_⟩
    · have he : LiveWaiters (s.current.insert n v) (s.leave old.ledgerKey n) :=
        LiveWaiters.set (fun key m hm => h key m (isWaiting_leave.mp hm).1) fun key => h.idle_of_leave hold
      have hs : Settled (s.current.insert n v) s
          (({ s with current := s.current.insert n v } : Inner N L Id).leave old.ledgerKey n) := by
        refine ⟨fun key m hm => ?_, fun m l hl => .inl ?_⟩
        · rw [isWaiting_leave] at hm
          exact he key m (isWaiting_leave.mpr hm)
        · rwa [leave_frame.2] at hl
      refine Settled.updateTrieValidation had hg ht hs fun s' hs' hc => ?_
      exact hQ _ _ (hs'.of_same hc rfl rfl)
    · have hi : ∀ key, ¬ IsWaiting s key n := fun key hn => by
        obtain ⟨w, hw, -, rfl⟩ := h key n hn
        cases hold.symm.trans hw
        exact ha hu old hold hne hn
      exact hQ _ _ ((Settled.refl (h.set hi)).of_same rfl rfl rfl)

theorem Settled.add {now instant : ℕ} (had : AcquiresById ad)
    (h : LiveWaiters s.current s) (hca : ¬ ValCall.Strands pm s (.add (L := L) now instant n v))
    (hQ : ∀ status s', Settled s'.current s s' → Q status s') : wp (add ad pm now instant n v) Q E ⊤ s := by
  rw [Inner.add, wp_ite]
  refine ⟨fun _ => hQ _ s (.refl h), fun hc => ?_⟩
  rw [wp_bind, wp_update, wp_bind, wp_read, wp_bind, wp_update, wp_ite]
  refine ⟨fun _ => hQ _ _ ((Settled.refl h).of_same rfl rfl rfl), fun ha => ?_⟩
  rw [Bool.not_eq_true, Bool.not_eq_false'] at hc ha
  refine Settled.addCurrent had h (fun hu old hold he hn => ?_) fun status s' hs => hQ status s' ?_
  · exact hca ⟨hc, ha, hu, old, hold, he, hn⟩
  · exact ⟨hs.live, hs.support⟩

/-- **A call keeps the nodes that wait in order**, unless it strands one of them; unless it is
`on_ledger_acquired`, which also serves the nodes of the recovery slots, it gives support rightly. -/
theorem LiveWaiters.apply (had : AcquiresById ad) (h : LiveWaiters s.current s) (hc : ¬ call.Strands pm s) :
    wp (call.apply ad pm) (fun _ s' => LiveWaiters s'.current s' ∧
      ((∀ now ledger, call ≠ .onLedgerAcquired now ledger) → RightlySupported s'.current s s')) E ⊤ s := by
  have hd : ∀ s' : Inner N L Id, Settled s'.current s s' → LiveWaiters s'.current s' ∧
      ((∀ now ledger, call ≠ .onLedgerAcquired now ledger) → RightlySupported s'.current s s') :=
    fun s' hs' => ⟨hs'.live, fun _ => hs'.support⟩
  have hs : Settled s.current s s := .refl h
  cases call with
  | add now instant n v =>
    rw [apply, wp_bind]
    exact Settled.add had h hc fun _ => hd
  | trustChanged added removed => exact hs.trustChanged had hd
  | onLedgerAcquired now ledger =>
    rw [ValCall.apply, Inner.onLedgerAcquired, wp_bind]
    refine hs.currentLive fun s1 h1 => ?_
    rw [wp_bind, wp_read, wp_bind, wp_update, wp_bind, wp_read]
    rw [wp_bind, wp_update, wp_bind]
    refine wp_ask_frame (wp_imp (wp_forEach (fun s' => LiveWaiters s'.current s') ?_ fun k _ s' hs' => ?_)
      (fun _ s' hs' => ⟨hs', fun ho => absurd rfl (ho now ledger)⟩))
    · exact h1.eraseKey.live.of_same takeRecovery_frame.1 takeRecovery_frame.2
    · rw [acquiredFor, wp_bind, wp_read, wp_when]
      exact ⟨fun _ => wp_updateTrieLedger_frame fun t => hs', fun _ => hs'⟩
  | onLedgerUnacquired now id =>
    rw [apply, wp_bind]
    exact hs.onLedgerUnacquired had fun _ => hd
  | getPreferred now cu =>
    rw [ValCall.apply, wp_bind, Inner.getPreferred, wp_bind]
    refine hs.triePreferred had fun tip s' hs' => ?_
    cases tip with
    | none => exact hd s' hs'
    | some tip => exact hd s' hs'
  | getPreferredLcl now lcl minSeq peerCounts =>
    rw [ValCall.apply, wp_bind, Inner.getPreferredLcl, wp_bind]
    refine hs.triePreferred had fun tip s' hs' => ?_
    exact hd _ (hs'.of_same observe_frame.1 observe_frame.2.1 observe_frame.2.2)
  | expire instant =>
    rw [ValCall.apply, Inner.expire, wp_update]
    cases s.keep with
    | none => exact hd _ (hs.of_same rfl rfl rfl)
    | some range =>
      simp only [refreshKept]
      split_ifs <;> exact hd _ (hs.of_same rfl rfl rfl)
  | reconcileValidationRecoveryLatch anchor candidate =>
    exact hd _ (hs.of_same rfl rfl rfl)
  | canValidateSeq instant t =>
    exact hd _ (hs.of_same rfl rfl rfl)
  | setSeqToKeep low high lt =>
    rw [ValCall.apply, Inner.setSeqToKeep, wp_bind, wp_check]
    exact ⟨fun _ => hd _ (hs.of_same rfl rfl rfl), fun _ => trivial⟩

/-- **A call that strands a node** returns, and the node then waits with a validation that is not trusted. -/
theorem not_liveWaiters_of_strands (hc : call.Strands pm s) :
    wp (call.apply ad pm) (fun _ s' => ¬ LiveWaiters s'.current s' ∧ s'.lastLedger = s.lastLedger) ⊥ ⊥ s := by
  cases call with
  | add now instant n v =>
    obtain ⟨hcu, ha, hu, old, hold, he, hn⟩ := hc
    rw [ValCall.apply, wp_bind, Inner.add, wp_ite]
    refine ⟨fun hs => by simp [hcu] at hs, fun _ => ?_⟩
    rw [wp_bind, wp_update, wp_bind, wp_read, wp_bind, wp_update, wp_ite]
    refine ⟨fun hb => by simp [ha] at hb, fun _ => ?_⟩
    rw [wp_bind, wp_update, addCurrent, wp_bind, wp_read]
    simp only [hold]
    rw [wp_ite]
    refine ⟨fun _ => ?_, fun ho => absurd he ho⟩
    rw [wp_bind, wp_update, wp_bind, hu, wp_when]
    refine ⟨fun hf => absurd hf Bool.false_ne_true, fun _ => ⟨fun hl => ?_, rfl⟩⟩
    obtain ⟨w, hw, ht, -⟩ := hl old.ledgerKey n hn
    rw [getElem?_insert, if_pos rfl] at hw
    rw [← some.inj hw, hu] at ht
    exact Bool.false_ne_true ht
  | _ => exact hc.elim

/-! ### Runs -/

/-- **Only live trusted nodes wait**: each of them for one ledger, which is that of its validation,
and support is given only for such a reason, by `check_acquired` and by each call that runs it. -/
structure Orderly (ad : ValidationsAdaptor N L Id) (parms : ValidationParms) (s : Inner N L Id) : Prop where
  live : LiveWaiters s.current s
  once : ∀ key key' n, IsWaiting s key n → IsWaiting s key' n → key = key'
  acquired : wp (checkAcquired ad) (fun _ s' => RightlySupported s.current s s') (fun _ _ => True) (fun _ => True) s
  call : ∀ call : ValCall N L Id, (∀ now ledger, call ≠ .onLedgerAcquired now ledger) →
    wp (call.apply ad parms) (fun _ s' => RightlySupported s'.current s s') (fun _ _ => True) (fun _ => True) s

/-- All of it follows from the nodes that wait. -/
theorem LiveWaiters.orderly (had : AcquiresById ad) (h : LiveWaiters s.current s) : Orderly ad pm s where
  live := h
  once key k' n hn hn' := by
    obtain ⟨v, hv, -, rfl⟩ := h key n hn
    obtain ⟨w, hw, -, rfl⟩ := h k' n hn'
    cases hv.symm.trans hw
    rfl
  acquired := (Settled.refl h).checkAcquired had fun s' hs _ => hs.support
  call call ho := by
    by_cases hc : call.Strands pm s
    · refine wp_total (not_liveWaiters_of_strands hc) (fun _ s' hs n l hl => .inl ?_)
      rwa [hs.2] at hl
    · exact wp_imp (h.apply had hc) (fun _ s' hs => hs.2 ho)

/-- At first nobody waits. -/
theorem liveWaiters_new : LiveWaiters (new : Inner N L Id).current (new : Inner N L Id) := by
  rintro key n ⟨waiters, hw, -⟩
  cases hw

/-- **When only live trusted nodes wait**: in every state that a run of calls comes through, exactly
when no call of the run is a newer untrusted validation of a node that waits then. -/
theorem orderly_iff (ad : ValidationsAdaptor N L Id) (had : AcquiresById ad) (parms : ValidationParms)
    (calls : List (ValCall N L Id)) :
    (∀ before, before <+: calls → ∀ s, runCalls ad parms before = .ok (.ok (), s) → Orderly ad parms s) ↔
      ∀ before call, before ++ [call] <+: calls → ∀ s, runCalls ad parms before = .ok (.ok (), s) →
        ¬ call.Strands parms s := by
  constructor
  · intro h before call ha s hs hc
    have hr : wp (forEach (apply ad parms) (before ++ [call]))
        (fun _ s' => ¬ LiveWaiters s'.current s' ∧ s'.lastLedger = s.lastLedger) ⊥ ⊥
        new := Prog.wp_forEach_concat.mpr (wp_of_run hs (not_liveWaiters_of_strands hc))
    obtain ⟨⟨⟩, s', hs', hn, -⟩ := returns_of_wp hr
    exact hn (h _ ha s' hs').live
  · intro h before
    -- the calls one by one, from the first one on
    induction before using List.reverseRecOn with
    | nil =>
      rintro - s hs
      cases hs
      exact liveWaiters_new.orderly had
    | append_singleton before call ih =>
      intro ha s' hs'
      obtain ⟨s, hs, hc⟩ := Prog.forEach_concat_ok hs'
      have hl := (ih ((List.prefix_append _ _).trans ha) s hs).live
      have hn := h before call ha s hs
      exact LiveWaiters.orderly had (post_of_run (hl.apply (E := ⊤) had hn) hc).1

end

/-! ### Samples -/

/-- An adaptor that has its ledger from the second time on. -/
def lateLedger : ValidationsAdaptor ℕ Chain ℕ where
  acquire k id := if k = 0 then none else if id = code [1] then some ⟨[1]⟩ else none
  order _ nodes := nodes
  order_perm _ _ := .refl _

theorem acquiresById_lateLedger : AcquiresById lateLedger := by
  intro k id l hl
  simp only [lateLedger] at hl
  split_ifs at hl with hk hi
  cases hl
  exact hi.symm

/-- While the ledger is late, nodes wait for it. -/
theorem orderly_of_crowd : AcquiresById lateLedger ∧ ∀ before, before <+: crowd 3 → ∀ s,
    runCalls lateLedger {} before = .ok (.ok (), s) → Orderly lateLedger {} s := by
  refine ⟨acquiresById_lateLedger, ?_⟩
  refine (orderly_iff lateLedger acquiresById_lateLedger {} (crowd 3)).mpr fun before call hc s _ => ?_
  have hm : call ∈ crowd 3 := hc.subset (List.mem_append_right _ (List.mem_singleton_self call))
  obtain ⟨n, -, rfl⟩ := List.mem_map.mp hm
  exact fun ha => Bool.false_ne_true ha.2.2.1.symm

/-- A newer validation of another ledger, by a node that is not trusted any more. -/
def untrustedVote : Validation ℕ := ⟨code [2], 2, 1001, 0, false, true, 0⟩

/-- Node 0 waits for a ledger, and validates another one when it is not trusted any more. -/
def strandedRun : List (ValCall ℕ Chain ℕ) := [.add 1000 0 0 oneVote, .add 1001 1 0 untrustedVote]

/-- Node 0 still waits after its second validation. -/
theorem not_orderly_of_strandedRun : ¬ ∀ (calls : List (ValCall ℕ Chain ℕ)) (s : Inner ℕ Chain ℕ),
    runCalls lateLedger {} calls = .ok (.ok (), s) → Orderly lateLedger {} s := by
  intro h
  have hr : (match runCalls lateLedger {} strandedRun with
      | .ok (.ok (), s) => decide (0 ∈ s.acquiring[oneVote.ledgerKey]?.getD ∅) && s.current[0]?.all (!·.trusted)
      | _ => false) = true := by decide +kernel
  split at hr
  · next s hs =>
    rw [Bool.and_eq_true, decide_eq_true_iff] at hr
    obtain ⟨v, hv, ht, -⟩ := (h strandedRun s hs).live oneVote.ledgerKey 0 (isWaiting_iff_mem.mpr hr.1)
    rw [hv, all_some, ht] at hr
    exact Bool.false_ne_true hr.2
  · exact Bool.false_ne_true hr

end Xrpld.Consensus
