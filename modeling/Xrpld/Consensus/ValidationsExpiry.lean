import Xrpld.Consensus.ValidationsSupport

/-!
# Expiry and the range to keep

`set_seq_to_keep` protects a range of sequence numbers. `expire` does so by touching the entries of the range,
but only when the next refresh is due, shortly before what it touched last would expire.

## What is proved

A range that is set before the next refresh is due may have entries that no refresh has touched, and they can
expire (`expire_drops_kept`). `expire_protects`: no entry of the range expires in a history in which the entries
of each range, when it is set, were touched so late that they last until the next refresh.
-/

namespace Xrpld.Consensus

open Std (ExtTreeMap)
open List Option Std.ExtTreeMap Xrpld.Consensus.Inner

/-! ### Aged maps -/

namespace AgedMap

variable {K V : Type} [LinearOrder K] {m : AgedMap K V} {P : K → V → Prop} {since now : ℕ} {key : K}

/-- The entries with a property were touched since some time. -/
def Recent (m : AgedMap K V) (P : K → V → Prop) (since : ℕ) : Prop :=
  ∀ key v, m.entries[key]? = some v → P key v → ∃ t ∈ m.lastTouched[key]?, since ≤ t

theorem Recent.mono {since' : ℕ} (h : m.Recent P since) (hl : since' ≤ since) : m.Recent P since' := by
  intro key v hv hP
  obtain ⟨t, ht, hs⟩ := h key v hv hP
  exact ⟨t, ht, hl.trans hs⟩

theorem Recent.modify (h : m.Recent P since) (hn : since ≤ now) (default : V) (f : V → V) :
    (m.modify key now default f).Recent P since := by
  intro k' v hv hP
  by_cases hk : key = k'
  · subst hk
    exact ⟨now, ExtTreeMap.getElem?_insert_self, hn⟩
  · have he : compare key k' ≠ .eq := fun h => hk (compare_eq_iff_eq.mp h)
    simp only [AgedMap.modify, ExtTreeMap.getElem?_insert, if_neg he] at hv ⊢
    exact h k' v hv hP

theorem foldl_touch (keys : List K) : (keys.foldl (touch · now) m).entries = m.entries ∧
      ∀ key, (keys.foldl (touch · now) m).lastTouched[key]? = if key ∈ keys then some now else m.lastTouched[key]? := by
  induction keys generalizing m with
  | nil => simp
  | cons key keys ih =>
    obtain ⟨he, ht⟩ := ih (m := m.touch now key)
    refine ⟨he, fun k' => ?_⟩
    rw [List.foldl_cons, ht, touch, ExtTreeMap.getElem?_insert]
    by_cases hk : key = k'
    · simp [hk]
    · simp [hk, Ne.symm hk]

/-- What was touched now is recent. -/
theorem recent_touch {keys : List K} (hk : ∀ key v, m.entries[key]? = some v → P key v → key ∈ keys) :
    (keys.foldl (touch · now) m).Recent P now := by
  obtain ⟨he, ht⟩ := @foldl_touch _ _ _ m now keys
  intro key v hv hP
  rw [he] at hv
  rw [ht, if_pos (hk key v hv hP)]
  exact ⟨now, rfl, le_rfl⟩

theorem getElem?_foldl_erase {W : Type} (keys : List K) (m : ExtTreeMap K W) (key : K) :
    (keys.foldl erase m)[key]? = if key ∈ keys then none else m[key]? := by
  induction keys generalizing m with
  | nil => simp
  | cons k' keys ih =>
    rw [foldl_cons, ih, getElem?_erase]
    by_cases hk : k' = key
    · simp [hk]
    · simp [hk, Ne.symm hk]

/-- What is left was there, and was touched when it was. -/
theorem Recent.expire (h : m.Recent P since) (now ea : ℕ) : (m.expire now ea).Recent P since := by
  intro key v hv hP
  simp only [AgedMap.expire, getElem?_foldl_erase] at hv ⊢
  split_ifs at hv ⊢
  exact h key v hv hP

/-- **Recent entries do not expire.** -/
theorem Recent.mem_expire {v : V} {ea : ℕ} (h : m.Recent P since) (hv : m.entries[key]? = some v) (hP : P key v)
    (hp : 0 < ea) (hn : now < since + ea) : key ∈ (m.expire now ea).entries := by
  obtain ⟨t, ht, hs⟩ := h key v hv hP
  rw [mem_iff_isSome_getElem?, AgedMap.expire, getElem?_foldl_erase, if_neg, hv]
  · rfl
  · intro hm
    obtain ⟨⟨k', t'⟩, he, rfl⟩ := mem_map.mp hm
    obtain ⟨hl, hold⟩ := mem_filter.mp he
    rw [mem_toList_iff_getElem?_eq_some] at hl
    obtain rfl : t = t' := some.inj (ht.symm.trans hl)
    have := of_decide_eq_true hold
    omega

end AgedMap

/-! ### What the calls leave alone -/

section

variable {N L Id : Type} [LinearOrder N] [TrieLedger L Id] [LinearOrder Id]

namespace Inner

/-- What `expire` works with. -/
def aging (s : Inner N L Id) :=
  (s.byLedger, s.bySequence, s.keep, s.nextKeepRefresh)

variable {ad : ValidationsAdaptor N L Id} {parms : ValidationParms}

open Prog (Keeps)

omit [TrieLedger L Id] in
theorem keeps_ask {α : Type} (an : ℕ → α) : Keeps aging (ask an : ValM N L Id α) :=
  .bind .read fun _ => .bind (.update fun _ => rfl) fun _ => .pure _

theorem keeps_trieRemove (ledger : L) : Keeps aging (trieRemove ledger : ValM N L Id Unit) :=
  .bind .read fun _ => .bind (.lift _) fun _ => .update fun _ => rfl

theorem keeps_updateTrieLedger (ledger : L) (nid : N) : Keeps aging (updateTrieLedger ledger nid : ValM N L Id Unit) :=
  .bind .read fun _ => .bind (.update fun _ => rfl) fun _ => .bind (.whenSome keeps_trieRemove) fun _ =>
    .bind .read fun _ => .bind (.lift _) fun _ => .update fun _ => rfl

theorem keeps_checkLedger (key : LedgerKey Id) : Keeps aging (checkLedger ad key : ValM N L Id Unit) :=
  .bind (keeps_ask _) fun _ => .whenSome fun ledger => .bind .read fun _ => .bind (keeps_ask _) fun _ =>
    .bind (.forEach (keeps_updateTrieLedger ledger) _) fun _ => .update fun _ => rfl

theorem keeps_checkAcquired : Keeps aging (checkAcquired ad : ValM N L Id Unit) :=
  .bind .read fun _ => .forEach keeps_checkLedger _

theorem keeps_supportOrWait (nid : N) (val : Validation Id) : Keeps aging (supportOrWait ad nid val : ValM N L Id Unit) := by
  refine .bind .read fun s => ?_
  split
  · exact .update fun _ => rfl
  · refine .bind (keeps_ask _) fun acquired => ?_
    cases acquired with
    | none => exact .update fun _ => rfl
    | some ledger => exact keeps_updateTrieLedger ledger nid

omit [TrieLedger L Id] in
theorem aging_leave (s : Inner N L Id) (key : LedgerKey Id) (nid : N) : (s.leave key nid).aging = s.aging := by
  unfold leave
  split
  · rfl
  · split_ifs <;> rfl

theorem keeps_updateTrieValidation (nid : N) (val : Validation Id) (prior : Option (LedgerKey Id)) :
    Keeps aging (updateTrieValidation ad nid val prior : ValM N L Id Unit) := by
  refine .bind (fun s => ?_) fun _ => .bind (.whenSome fun key => .update fun s => aging_leave s key nid) fun _ =>
    .bind keeps_checkAcquired fun _ => keeps_supportOrWait nid val
  rw [wp_check]
  exact ⟨fun _ => rfl, fun _ => trivial⟩

theorem keeps_addCurrent (nid : N) (val : Validation Id) : Keeps aging (addCurrent ad nid val : ValM N L Id ValStatus) := by
  refine .bind .read fun s => ?_
  split
  · exact .bind (.when (keeps_updateTrieValidation nid val none)) fun _ => .bind (.update fun _ => rfl) fun _ => .pure _
  · split
    · exact .bind (.update fun _ => rfl) fun _ => .bind (.when (keeps_updateTrieValidation nid val _)) fun _ => .pure _
    · exact .pure _

end Inner

/-! ### Histories -/

variable (ad : ValidationsAdaptor N L Id) (parms : ValidationParms)

/-- A sequence number of the range. -/
def InRange (range : ℕ × ℕ) (seq : ℕ) : Prop := range.1 ≤ seq ∧ seq < range.2

/-- The validations of a ledger are for sequence numbers of the range. -/
def SeqsIn (range : ℕ × ℕ) (validations : ExtTreeMap N (Validation Id)) : Prop :=
  (∃ n, n ∈ validations) ∧ ∀ (n : N) (v : Validation Id), validations[n]? = some v → InRange range v.seq

/-- The entries of a range were touched since some time. -/
def RangeRecent (s : Inner N L Id) (range : ℕ × ℕ) (since : ℕ) : Prop :=
  s.bySequence.Recent (fun seq _ => InRange range seq) since ∧ s.byLedger.Recent (fun _ vs => SeqsIn range vs) since

/-- **A call that may be made** at a time: the entries of a range that is set before the next refresh is due were touched
so late that they last until then. -/
def Proper (s : Inner N L Id) (instant : ℕ) : ValCall N L Id → Prop
  | .add _ time _ _ | .expire time => time = instant
  | .setSeqToKeep low high _ =>
    ∀ refresh ∈ s.nextKeepRefresh, instant < refresh → RangeRecent s (low, high) (refresh - parms.validationSetExpires)
  | _ => False

/-- The states of histories of such calls, with the times of the last calls. -/
inductive Timed : ℕ → Inner N L Id → Prop where
  | new : Timed 0 .new
  | call {now instant : ℕ} {s s' : Inner N L Id} (call : ValCall N L Id) (hs : Timed now s) (hnow : now ≤ instant)
      (hcall : Proper parms s instant call) (hrun : call.apply ad parms s = .ok (.ok (), s')) : Timed instant s'

/-- **The range is fresh**: its entries last until the next refresh is due. -/
def Fresh (s : Inner N L Id) (now : ℕ) : Prop :=
  ∀ refresh ∈ s.nextKeepRefresh, refresh ≤ now + parms.validationSetExpires ∧
    (now < refresh → ∀ range ∈ s.keep, RangeRecent s range (refresh - parms.validationSetExpires))

variable {ad parms} {s s' : Inner N L Id} {now instant : ℕ} {range : ℕ × ℕ}

omit [TrieLedger L Id] in
theorem Fresh.later (h : Fresh parms s now) (hn : now ≤ instant) : Fresh parms s instant := by
  intro refresh hr
  obtain ⟨hl, hc⟩ := h refresh hr
  exact ⟨by omega, fun ht => hc (by omega)⟩

/-- A validation touches the entries that it is put in. -/
theorem Fresh.add {nid : N} {val : Validation Id} (h : Fresh parms s instant) (netTime : ℕ) :
    wp (add ad parms netTime instant nid val) (fun _ s' => Fresh parms s' instant) ⊤ ⊤ s := by
  rw [Inner.add]
  split
  · exact h
  simp only [wp_bind, wp_update, wp_read]
  split
  · intro refresh hr
    obtain ⟨hle, hc⟩ := h refresh hr
    refine ⟨hle, fun ht range hg => ?_⟩
    obtain ⟨he, hd⟩ := hc ht range hg
    exact ⟨he.modify (by omega) _ _, hd⟩
  · refine wp_imp (keeps_addCurrent nid val _) fun _ s' hq refresh hr => ?_
    simp only [aging, Prod.mk.injEq] at hq
    obtain ⟨hl, hs, hk, hre⟩ := hq
    obtain ⟨hle, hc⟩ := h refresh (hre ▸ hr)
    refine ⟨hle, fun ht range hg => ?_⟩
    obtain ⟨he, hd⟩ := hc ht range (hk ▸ hg)
    rw [RangeRecent, hs, hl]
    exact ⟨he.modify (by omega) _ _, hd.modify (by omega) _ _⟩

omit [LinearOrder Id] [TrieLedger L Id] in
/-- Whichever of its validations is looked at, a ledger of the range is found. -/
theorem SeqsIn.any_order {validations : ExtTreeMap N (Validation Id)} (h : SeqsIn range validations) (k : ℕ) :
    ((ad.order k validations.keys).head?.bind (validations[·]?)).any
      (fun v : Validation Id => decide (range.1 ≤ v.seq) && decide (v.seq < range.2)) := by
  obtain ⟨⟨n, hn⟩, ha⟩ := h
  have hm : ∀ n, n ∈ ad.order k validations.keys ↔ n ∈ validations := fun n =>
    (ad.order_perm k validations.keys).mem_iff.trans mem_keys
  obtain ⟨first, rest, hf⟩ := exists_cons_of_ne_nil (ne_nil_of_mem ((hm n).mpr hn))
  have hi := (hm first).mp (hf ▸ mem_cons_self)
  obtain ⟨v, hv⟩ := isSome_iff_exists.mp (mem_iff_isSome_getElem?.mp hi)
  obtain ⟨hl, hh⟩ := ha first v hv
  simp [hf, hv, hl, hh]

variable (ad) in
omit [TrieLedger L Id] in
/-- **Before anything expires the range is recent**: no refresh is due, or it has just been made. -/
theorem Fresh.refreshKept (h : Fresh parms s instant) (hrg : s.keep = some range)
    (hp : 0 < parms.validationSetExpires) :
    Fresh parms (refreshKept ad parms instant range.1 range.2 s) instant ∧
      (refreshKept ad parms instant range.1 range.2 s).byLedger.entries = s.byLedger.entries ∧
      (refreshKept ad parms instant range.1 range.2 s).bySequence.entries = s.bySequence.entries ∧
      ∃ since, instant < since + parms.validationSetExpires ∧
        RangeRecent (refreshKept ad parms instant range.1 range.2 s) range since := by
  fun_cases Inner.refreshKept ad parms instant range.1 range.2 s with
  | case1 _ kept ledgers sequences =>
    have hs : (sequences.foldl (AgedMap.touch · instant) s.bySequence).Recent (fun seq _ => InRange range seq) instant := by
      refine AgedMap.recent_touch fun seq v hv hi => mem_filter.mpr ⟨?_, ?_⟩
      · rw [ExtTreeMap.mem_keys, mem_iff_isSome_getElem?, hv]
        rfl
      · simp [kept, hi.1, hi.2]
    have hld : (ledgers.foldl (AgedMap.touch · instant) s.byLedger).Recent (fun _ vs => SeqsIn range vs) instant := by
      refine AgedMap.recent_touch fun id vs hv hi => mem_map.mpr ⟨(id, vs), mem_filter.mpr ⟨?_, ?_⟩, rfl⟩
      · exact mem_toList_iff_getElem?_eq_some.mpr hv
      · exact hi.any_order s.calls
    refine ⟨fun refresh hr => ?_, (AgedMap.foldl_touch _).1, (AgedMap.foldl_touch _).1, instant, by omega, hs, hld⟩
    cases hr
    refine ⟨by omega, fun _ range' hg => ?_⟩
    obtain rfl := some.inj (hrg.symm.trans hg)
    exact ⟨hs.mono (by omega), hld.mono (by omega)⟩
  | case2 hd =>
    obtain ⟨refresh, hr, hl⟩ : ∃ refresh ∈ s.nextKeepRefresh, ¬ refresh ≤ instant := by
      simpa [Option.all_eq_true] using hd
    obtain ⟨he, hc⟩ := h refresh hr
    have ht := not_le.mp hl
    exact ⟨h, rfl, rfl, refresh - parms.validationSetExpires, by omega, hc ht range hrg⟩

omit [TrieLedger L Id] in
theorem Fresh.expired (h : Fresh parms s instant) (ea : ℕ) : Fresh parms { s with
      byLedger := s.byLedger.expire instant ea
      bySequence := s.bySequence.expire instant ea } instant := by
  intro refresh hr
  obtain ⟨he, hc⟩ := h refresh hr
  refine ⟨he, fun ht range hg => ?_⟩
  obtain ⟨hs, hl⟩ := hc ht range hg
  exact ⟨hs.expire _ _, hl.expire _ _⟩

/-- **Each call** keeps the range fresh. -/
theorem Fresh.apply {call : ValCall N L Id} (h : Fresh parms s instant) (hc : Proper parms s instant call)
    (hp : 0 < parms.validationSetExpires) (hu : call.apply ad parms s = .ok (.ok (), s')) : Fresh parms s' instant := by
  have hw : wp (call.apply ad parms) (fun _ s' => Fresh parms s' instant) ⊤ ⊤ s := by
    cases call with
    | add netTime time nid val =>
      obtain rfl : time = instant := hc
      rw [ValCall.apply, wp_bind]
      exact h.add netTime
    | expire time =>
      obtain rfl : time = instant := hc
      rw [ValCall.apply, expire, wp_update]
      cases hk : s.keep with
      | none => exact h.expired _
      | some range => exact (h.refreshKept ad hk hp).1.expired _
    | setSeqToKeep low high lt =>
      rw [ValCall.apply, setSeqToKeep, wp_bind, wp_check]
      refine ⟨fun _ refresh hr => ?_, fun _ => trivial⟩
      refine ⟨(h refresh hr).1, fun hl range hg => ?_⟩
      cases hg
      exact hc refresh hr hl
    | _ => exact hc.elim
  exact post_of_run hw hu

/-- **Every history** keeps the range fresh. -/
theorem Timed.fresh (hs : Timed ad parms now s) (hp : 0 < parms.validationSetExpires) : Fresh parms s now := by
  induction hs with
  | new => exact fun refresh hr => by cases hr
  | call _ _ hl hc hu ih => exact (ih.later hl).apply hc hp hu

/-- **Protected validations are not expired.** In every history in which the entries of a range that is set before the next
refresh is due last until then, `expire` removes no entry of the range that was set last. -/
theorem expire_protects (hpos : 0 < parms.validationSetExpires) (hs : Timed ad parms now s) (hnow : now ≤ instant)
    (hkeep : s.keep = some range) : ∃ s', Inner.expire ad parms instant s = .ok (.ok (), s') ∧
      (∀ seq ∈ s.bySequence.entries, InRange range seq → seq ∈ s'.bySequence.entries) ∧
      ∀ id validations, s.byLedger.entries[id]? = some validations → SeqsIn range validations → id ∈ s'.byLedger.entries := by
  obtain ⟨-, hl, hse, since, hsi, he, hd⟩ :=
    ((hs.fresh hpos).later hnow).refreshKept ad hkeep hpos
  refine ⟨_, rfl, fun seq hm hi => ?_, fun id validations hv hi => ?_⟩
  · obtain ⟨v, hv⟩ := isSome_iff_exists.mp (mem_iff_isSome_getElem?.mp hm)
    simp only [hkeep]
    exact he.mem_expire (hse ▸ hv) hi hpos hsi
  · simp only [hkeep]
    exact hd.mem_expire (hl ▸ hv) hi hpos hsi

end

/-! ### Samples -/

/-- The range to keep, and whether it still has its entry. -/
def keptEntry (calls : List (ValCall ℕ Chain ℕ)) : Option (Option (ℕ × ℕ) × Bool) :=
  (runCalls oneLedger {} calls).toOption.map fun r => (r.2.keep, r.2.bySequence.entries.contains 1)

/-- A protected entry that is older than the time after which entries expire. -/
theorem expire_protects_oneVote : ∃ s s', Timed oneLedger {} 0 s ∧
    Inner.expire oneLedger {} 700 s = .ok (.ok (), s') ∧ 1 ∈ s'.bySequence.entries := by
  have ha : (match ValCall.apply oneLedger {} (.add 1000 0 0 oneVote) .new with
      | .ok (.ok (), s) => s.bySequence.entries.contains 1 && s.nextKeepRefresh.isNone
      | _ => false) = true := by decide +kernel
  split at ha
  · next s hr =>
    rw [Bool.and_eq_true, isNone_iff_eq_none] at ha
    have hs : Timed oneLedger {} 0 { s with keep := some (1, 2) } :=
      .call (.setSeqToKeep 1 2 (by decide)) (.call (.add 1000 0 0 oneVote) .new le_rfl rfl hr) le_rfl
        (by simp [Proper, ha.2]) rfl
    obtain ⟨s', he, hk, -⟩ := expire_protects (by decide) hs (Nat.zero_le 700) rfl
    exact ⟨_, s', hs, he, hk 1 (contains_iff_mem.mp ha.1) ⟨le_rfl, by decide⟩⟩
  · cases ha

/-- **A range that is set too early is not protected**: the last refresh was for another range. -/
theorem expire_drops_kept :
    keptEntry [.add 1000 0 0 oneVote, .setSeqToKeep 7 8 (by decide), .expire 100, .setSeqToKeep 1 2 (by decide)] =
      some (some (1, 2), true) ∧
    keptEntry [.add 1000 0 0 oneVote, .setSeqToKeep 7 8 (by decide), .expire 100, .setSeqToKeep 1 2 (by decide), .expire 600] =
      some (some (1, 2), false) := by
  decide +kernel

end Xrpld.Consensus
