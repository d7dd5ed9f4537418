import Xrpld.TxQ.ClearAheadFee

/-!
# What the queue expects of a ledger

`QueueFeeMetricsState` of `xrpld/tx/utility/queue_fee_metrics.rs`: how many transactions a ledger is expected to hold, and
the multiplier of the fee above that number. Each closed ledger updates both.

## What is proved

`metrics_within`: over every run of updates both stay within what is configured, and the fee level they lead to never goes
down while the open ledger grows.
-/

namespace Xrpld.TxQ

open List Option UInt64

structure QueueFeeMetricsConfig where
  ledgersInQueue : UInt64
  minimumEscalationMultiplier : UInt64
  minimumTxnInLedger : UInt64
  targetTxnInLedger : UInt64
  maximumTxnInLedger : Option UInt64
  normalConsensusIncreasePercent : UInt32
  slowConsensusDecreasePercent : UInt32

namespace QueueFeeMetricsConfig

variable (c : QueueFeeMetricsConfig)

def historyCapacity : ℕ := max c.ledgersInQueue.toNat 1

def minimumTxnCount : ℕ := c.minimumTxnInLedger.toNat

def targetTxnCount : ℕ := max c.targetTxnInLedger.toNat c.minimumTxnCount

def maximumTxnCount : Option ℕ := c.maximumTxnInLedger.map fun maximum => max maximum.toNat c.targetTxnCount

end QueueFeeMetricsConfig

structure QueueFeeMetricsState where
  config : QueueFeeMetricsConfig
  txnsExpected : UInt64
  recentTxnCounts : List UInt64
  escalationMultiplier : UInt64

namespace QueueFeeMetricsState

def new (c : QueueFeeMetricsConfig) : QueueFeeMetricsState := ⟨c, c.minimumTxnInLedger, [], c.minimumEscalationMultiplier⟩

/-- `try_from` with `unwrap_or(MAX)`. -/
def saturated (n : ℕ) : UInt64 := .ofNat (min n (2 ^ 64 - 1))

/-- `mul_div` by 100 with `unwrap_or(u64::MAX)`. -/
def percentOf (n percent : ℕ) : ℕ := min (n * percent / 100) (2 ^ 64 - 1)

variable (s : QueueFeeMetricsState) (size : ℕ) (levels : List UInt64) (leap : Bool)

def snapshot : QueueFeeMetricsSnapshot := ⟨s.txnsExpected, s.escalationMultiplier⟩

/-- The first branch of `update`: after a time leap the count is cut. -/
def cut : Run QueueFeeMetricsState :=
  if 100 < s.config.slowConsensusDecreasePercent.toNat then .error .overflow
  else
    let cutPct := 100 - s.config.slowConsensusDecreasePercent.toNat
    let upperLimit := max (percentOf s.txnsExpected.toNat cutPct) s.config.minimumTxnCount
    if upperLimit < s.config.minimumTxnCount then .error (.assertion "assertion failed: min <= max")
    else
      let clamped := min (max (percentOf size cutPct) s.config.minimumTxnCount) upperLimit
      .ok { s with txnsExpected := saturated clamped, recentTxnCounts := [] }

/-- The second branch: after a full ledger the count grows, or decays towards what recent ledgers held. -/
def grow : Run QueueFeeMetricsState :=
  if 2 ^ 32 ≤ 100 + s.config.normalConsensusIncreasePercent.toNat then .error .overflow
  else
    let nextCount := percentOf size (100 + s.config.normalConsensusIncreasePercent.toNat)
    let recent := s.recentTxnCounts ++ [saturated nextCount]
    let recent := recent.drop (recent.length - s.config.historyCapacity)
    match (recent.map UInt64.toNat).max? with
    | none => .error (.expect "xrpl::TxQ::FeeMetrics::update : recent counts not empty")
    | some maxRecent =>
      let next := if s.txnsExpected.toNat ≤ maxRecent then maxRecent else (s.txnsExpected.toNat * 9 + maxRecent) / 10
      .ok { s with
        txnsExpected := saturated (s.config.maximumTxnCount.elim next (min next)), recentTxnCounts := recent }

/-- The branches of `update`; in the third the count stays. -/
def recount : Run QueueFeeMetricsState :=
  if leap then s.cut size
  else if s.txnsExpected.toNat < size ∨ s.config.targetTxnCount < size then s.grow size
  else .ok s

/-- The multiplier: the median of the fee levels, but no less than the configured minimum. -/
def multiplier : Run UInt64 :=
  let sorted := levels.mergeSort (· ≤ ·)
  if levels.length = 0 then .ok s.config.minimumEscalationMultiplier
  else match sorted[levels.length / 2]?, sorted[(levels.length - 1) / 2]? with
    | some midHigh, some midLow =>
      let median := (midHigh.toNat + midLow.toNat + 1) / 2
      .ok (saturated (max median s.config.minimumEscalationMultiplier.toNat))
    | _, _ => .error .indexOutOfBounds

def update : Run (QueueFeeMetricsState × ℕ) := do
  let s ← s.recount levels.length leap
  return ({ s with escalationMultiplier := ← s.multiplier levels }, levels.length)

/-- A run of updates. -/
def updates (calls : List (List UInt64 × Bool)) : Run QueueFeeMetricsState :=
  calls.foldlM (fun s call => Prod.fst <$> s.update call.1 call.2) s

/-! ### One update -/

variable {s} {c : QueueFeeMetricsConfig}

theorem toNat_saturated (n : ℕ) : (saturated n).toNat = min n (2 ^ 64 - 1) := by
  unfold saturated
  rw [toNat_ofNat']
  omega

/-- The percentages at which no sum and no difference of `update` leaves its type. -/
structure Sound (c : QueueFeeMetricsConfig) : Prop where
  decrease : c.slowConsensusDecreasePercent.toNat ≤ 100
  increase : c.normalConsensusIncreasePercent.toNat ≤ 1000

/-- What every state of a run has. -/
structure Within (c : QueueFeeMetricsConfig) (s : QueueFeeMetricsState) : Prop where
  config : s.config = c
  low : c.minimumTxnCount ≤ s.txnsExpected.toNat
  high : ∀ m ∈ c.maximumTxnCount, s.txnsExpected.toNat ≤ m

theorem cut_ok (hc : Sound c) (hs : Within c s) : ∃ t, s.cut size = .ok t ∧ Within c t ∧
    t.txnsExpected.toNat ≤ s.txnsExpected.toNat := by
  obtain ⟨rfl, hl, hh⟩ := hs
  have hd := hc.decrease
  have hm : s.txnsExpected.toNat * (100 - s.config.slowConsensusDecreasePercent.toNat) / 100 ≤
      s.txnsExpected.toNat := Nat.div_le_of_le_mul ((Nat.mul_le_mul_left _ (by omega)).trans_eq (Nat.mul_comm ..))
  have ht := s.txnsExpected.toNat_lt
  unfold cut percentOf
  rw [if_neg (by omega), if_neg (by omega)]
  refine ⟨_, rfl, ⟨rfl, ?_, fun m hm => le_trans ?_ (hh m hm)⟩, ?_⟩
  all_goals
    rw [toNat_saturated]
    omega

theorem grow_ok (hc : Sound c) (hs : Within c s)
    (hn : s.txnsExpected.toNat < size ∨ c.targetTxnCount < size) : ∃ t, s.grow size = .ok t ∧ Within c t := by
  obtain ⟨rfl, hl, -⟩ := hs
  have hi := hc.increase
  have hlt := s.txnsExpected.toNat_lt
  have ht : s.config.minimumTxnCount ≤ s.config.targetTxnCount := le_max_right _ _
  unfold grow percentOf
  rw [if_neg (by omega)]
  dsimp only
  -- the newest count is at least the size of the ledger, and it stays in the history
  have hw : s.config.minimumTxnCount ≤ (saturated (min (size * (100 +
      s.config.normalConsensusIncreasePercent.toNat) / 100) (2 ^ 64 - 1))).toNat := by
    have hle : size ≤ size * (100 + s.config.normalConsensusIncreasePercent.toNat) / 100 := by
      rw [Nat.le_div_iff_mul_le (by decide)]
      exact Nat.mul_le_mul_left _ (Nat.le_add_right _ _)
    rw [toNat_saturated]
    omega
  revert hw
  generalize saturated _ = newest
  intro hw
  have he : newest ∈ (s.recentTxnCounts ++ [newest]).drop ((s.recentTxnCounts ++ [newest]).length -
      s.config.historyCapacity) := by
    have hp : 1 ≤ s.config.historyCapacity := le_max_right _ _
    rw [drop_append_of_le_length (by rw [length_append, length_singleton]; omega)]
    exact mem_append_right _ (mem_singleton_self _)
  split
  · rename_i ha
    rw [max?_eq_none_iff, map_eq_nil_iff] at ha
    rw [ha] at he
    nomatch he
  · rename_i m ha
    have hm : newest.toNat ≤ m := (max?_eq_some_iff.mp ha).2 _ (mem_map_of_mem he)
    refine ⟨_, rfl, rfl, ?_, ?_⟩
    · have ha : ∀ top ∈ s.config.maximumTxnCount, s.config.minimumTxnCount ≤ top := fun top h => by
        obtain ⟨_, -, rfl⟩ := map_eq_some_iff.mp h
        exact ht.trans (le_max_right _ _)
      rw [toNat_saturated]
      cases h : s.config.maximumTxnCount with
      | none =>
        rw [elim_none]
        split <;> omega
      | some top =>
        have := ha top h
        rw [elim_some]
        split <;> omega
    · intro top h
      rw [toNat_saturated, h]
      exact (min_le_left _ _).trans (min_le_right _ _)

theorem multiplier_ok (s : QueueFeeMetricsState) : ∃ m, s.multiplier levels = .ok m ∧
    s.config.minimumEscalationMultiplier.toNat ≤ m.toNat := by
  unfold multiplier
  dsimp only
  split_ifs with h0
  · exact ⟨_, rfl, le_rfl⟩
  · have hl := s.config.minimumEscalationMultiplier.toNat_lt
    rw [getElem?_eq_getElem (by rw [length_mergeSort]; omega), getElem?_eq_getElem (by rw [length_mergeSort]; omega)]
    refine ⟨_, rfl, ?_⟩
    rw [toNat_saturated]
    omega

theorem within_new (c : QueueFeeMetricsConfig) : Within c (new c) := by
  refine ⟨rfl, le_rfl, ?_⟩
  intro m hm
  obtain ⟨maximum, -, rfl⟩ := map_eq_some_iff.mp hm
  exact (le_max_right _ _).trans (le_max_right _ _)

/-- **One update** succeeds and keeps the bounds; after a time leap the count is no greater than before. -/
theorem Within.update (hc : Sound c) (hs : Within c s) : ∃ t, s.update levels leap = .ok (t, levels.length) ∧
    Within c t ∧ c.minimumEscalationMultiplier.toNat ≤ t.escalationMultiplier.toNat ∧
    (leap → t.txnsExpected.toNat ≤ s.txnsExpected.toNat) := by
  have hr : ∃ t, s.recount levels.length leap = .ok t ∧ Within c t ∧
      (leap → t.txnsExpected.toNat ≤ s.txnsExpected.toNat) := by
    unfold recount
    split_ifs with hl hg
    · obtain ⟨t, ht, hw, he⟩ := cut_ok levels.length hc hs
      exact ⟨t, ht, hw, fun _ => he⟩
    · obtain ⟨t, ht, hw⟩ := grow_ok levels.length hc hs (hs.config ▸ hg)
      exact ⟨t, ht, hw, fun h => absurd h hl⟩
    · exact ⟨s, rfl, hs, fun _ => le_rfl⟩
  obtain ⟨t, ht, hw, hl⟩ := hr
  obtain ⟨m, hm, he⟩ := multiplier_ok levels t
  refine ⟨{ t with escalationMultiplier := m }, ?_, ⟨hw.config, hw.low, hw.high⟩, hw.config ▸ he, hl⟩
  simp only [QueueFeeMetricsState.update, ht, hm, bind, Except.bind, pure, Except.pure]

theorem Within.updates (hc : Sound c) (hs : Within c s)
    (hm : c.minimumEscalationMultiplier.toNat ≤ s.escalationMultiplier.toNat) (calls : List (List UInt64 × Bool)) :
    ∃ t, s.updates calls = .ok t ∧ Within c t ∧ c.minimumEscalationMultiplier.toNat ≤ t.escalationMultiplier.toNat := by
  induction calls generalizing s with
  | nil => exact ⟨s, rfl, hs, hm⟩
  | cons call calls ih =>
    obtain ⟨t, ht, hw, hm, -⟩ := hs.update call.1 call.2 hc
    obtain ⟨u, hu, h⟩ := ih hw hm
    refine ⟨u, ?_, h⟩
    rw [QueueFeeMetricsState.updates, foldlM_cons, ht]
    exact hu

/-! ### The level for an open ledger -/

variable {m : QueueFeeMetricsSnapshot}

/-- What `scale_fee_level` asks for, whether that fits or not. -/
theorem scaleFeeLevel_toNat (hp : 0 < m.expected) (count : UInt64) : ∃ level,
    scaleFeeLevel m count = .ok level ∧ level.toNat = if count.toNat ≤ m.expected then 256
      else min (m.multiplier * min (count.toNat ^ 2) (2 ^ 64 - 1) / min (m.expected ^ 2) (2 ^ 64 - 1))
        (2 ^ 64 - 1) := by
  unfold scaleFeeLevel mulDiv fits
  simp only [le_iff_toNat_le, saturatingMul_ne_zero hp, if_false, toNat_saturatingMul]
  split
  · exact ⟨256, rfl, rfl⟩
  · generalize m.escalationMultiplier.toNat * _ / _ = q
    split
    · exact ⟨_, rfl, by rw [map_some, getD_some, toNat_ofNat']; omega⟩
    · exact ⟨_, rfl, by rw [map_none, getD_none, toNat_ofNat']; omega⟩

theorem scaleFeeLevel_mono {i j : UInt64} (hm : 256 ≤ m.multiplier) (hp : 0 < m.expected) (hi : i ≤ j) :
    ∃ a b, scaleFeeLevel m i = .ok a ∧ scaleFeeLevel m j = .ok b ∧ a ≤ b := by
  obtain ⟨a, ha, hla⟩ := scaleFeeLevel_toNat hp i
  obtain ⟨b, hb, hl⟩ := scaleFeeLevel_toNat hp j
  refine ⟨a, b, ha, hb, ?_⟩
  rw [le_iff_toNat_le] at hi ⊢
  rw [hla, hl]
  split_ifs with h h'
  · exact le_rfl
  · -- past the expected count the level is at least the multiplier
    refine le_min (hm.trans ?_) (by decide)
    rw [Nat.le_div_iff_mul_le (lt_min (Nat.pow_pos hp) (by decide))]
    exact Nat.mul_le_mul_left _ (min_le_min_right _ (Nat.pow_le_pow_left (by omega) 2))
  · omega
  · refine min_le_min_right _ (Nat.div_le_div_right (Nat.mul_le_mul_left _ (min_le_min_right _ ?_)))
    exact Nat.pow_le_pow_left hi 2

/-- **The metrics stay within their bounds.** Every run of updates from the first state succeeds; the count it comes to is
at least the configured minimum and at most the greater of the maximum, where there is one, and the target; an update
after a time leap does not raise it; the multiplier is at least the configured minimum; and with a multiplier of at least
256 and a count above zero the required level does not go down while the open ledger grows. -/
theorem metrics_within (c : QueueFeeMetricsConfig) (hd : c.slowConsensusDecreasePercent.toNat ≤ 100)
    (hi : c.normalConsensusIncreasePercent.toNat ≤ 1000) (calls : List (List UInt64 × Bool)) :
    ∃ s, (new c).updates calls = .ok s ∧ c.minimumTxnInLedger.toNat ≤ s.txnsExpected.toNat ∧
      (∀ m ∈ c.maximumTxnInLedger, s.txnsExpected.toNat ≤ max m.toNat c.targetTxnCount) ∧
      (∀ levels, ∃ t n, s.update levels true = .ok (t, n) ∧ t.txnsExpected.toNat ≤ s.txnsExpected.toNat) ∧
      c.minimumEscalationMultiplier.toNat ≤ s.escalationMultiplier.toNat ∧
      (256 ≤ s.escalationMultiplier.toNat → 0 < s.txnsExpected.toNat → ∀ i j : UInt64, i ≤ j → j.toNat < 2 ^ 32 →
        ∃ a b, scaleFeeLevel s.snapshot i = .ok a ∧ scaleFeeLevel s.snapshot j = .ok b ∧ a ≤ b) := by
  have hc : Sound c := ⟨hd, hi⟩
  obtain ⟨s, hs, hw, hm⟩ := (within_new c).updates hc le_rfl calls
  refine ⟨s, hs, hw.low, ?_, ?_, hm, ?_⟩
  · intro m h
    exact hw.high _ (map_eq_some_iff.mpr ⟨m, h, rfl⟩)
  · intro levels
    obtain ⟨t, ht, -, -, hl⟩ := hw.update levels true hc
    exact ⟨t, _, ht, hl rfl⟩
  · intro hm hp i j hj _
    exact scaleFeeLevel_mono hm hp hj

/-- A full ledger, then a time leap. -/
theorem metrics_within_leap : ∃ s, (new ⟨4, 256, 10, 10, some 20, 20, 50⟩).updates
    [(.replicate 11 300, false), ([], true)] = .ok s ∧ 10 ≤ s.txnsExpected.toNat := by
  obtain ⟨s, hs, hl, -⟩ := metrics_within ⟨4, 256, 10, 10, some 20, 20, 50⟩ (by decide) (by decide)
    [(.replicate 11 300, false), ([], true)]
  exact ⟨s, hs, hl⟩

end QueueFeeMetricsState

end Xrpld.TxQ
