import Xrpld.Basics.Uint256

/-!
# The fee for clearing an account's queue

`clear_ahead_required_fee_level` of `xrpld/app/state/application_root.rs` says which fee level pays at once for all queued
transactions of an account up to a new one: the sum of what `scale_fee_level` of
`xrpld/tx/utility/queue_fee_metrics.rs` would ask for one after the other.

## The model

A checked operation of `u128` is one on numbers whose result has to fit (`fits`).

## What is proved

The code takes `n² (2n + 1) / 6` for the sum of the squares up to `n`, which is `n (n + 1) (2n + 1) / 6`.
`clearAhead_exact_iff`: the level is the exact one just when what is missing from the sum is lost in the division
by the square of the expected count anyway.
-/

namespace Xrpld.TxQ

open Nat Option UInt64

variable {a b k n : ℕ} {level tc ss : UInt64}

structure QueueFeeMetricsSnapshot where
  txnsExpected : UInt64
  escalationMultiplier : UInt64

/-- A result that has to fit into so many bits. -/
def fits (bits n : ℕ) : Option ℕ := if n < 2 ^ bits then some n else none

def sumSquares (n : ℕ) : Option ℕ := do
  let square ← fits 128 (n * n)
  let twice ← fits 128 (n * 2)
  let odd ← fits 128 (twice + 1)
  let product ← fits 128 (square * odd)
  return product / 6

/-- `checked_sub` of `u128`. -/
def checkedSub (a b : ℕ) : Option ℕ := if b ≤ a then some (a - b) else none

/-- `clear_ahead_required_fee_level`, where the open ledger has `txCount` transactions. -/
def clearAheadRequiredFeeLevel (metrics : QueueFeeMetricsSnapshot) (txCount seriesSize : UInt64) : Option UInt64 := do
  let current := txCount.toNat
  let target := metrics.txnsExpected.toNat
  if current ≤ target ∨ target = 0 ∨ seriesSize = 0 then none
  else
    let last ← fits 128 (current + (seriesSize.toNat - 1))
    let series ← checkedSub (← sumSquares last) (← sumSquares (current - 1))
    let product ← fits 128 (metrics.escalationMultiplier.toNat * series)
    let total := product / (← fits 128 (target * target))
    return .ofNat (← fits 64 total)

def mulDiv (value mul div : UInt64) : Run (Option UInt64) :=
  if div = 0 then .error (.expect "attempt to divide by zero")
  else .ok ((fits 64 (value.toNat * mul.toNat / div.toNat)).map UInt64.ofNat)

def saturatingMul (a b : UInt64) : UInt64 := .ofNat (min (a.toNat * b.toNat) (2 ^ 64 - 1))

def scaleFeeLevel (snapshot : QueueFeeMetricsSnapshot) (openLedgerTxCount : UInt64) : Run UInt64 := do
  if openLedgerTxCount ≤ snapshot.txnsExpected then return 256
  else
    let level ← mulDiv snapshot.escalationMultiplier (saturatingMul openLedgerTxCount openLedgerTxCount)
      (saturatingMul snapshot.txnsExpected snapshot.txnsExpected)
    return level.getD (.ofNat (2 ^ 64 - 1))

/-! ### The sum of squares -/

/-- What `sum_squares` leaves out of the sum of the squares up to `n`. -/
def leftOut (n : ℕ) : ℕ := (n * (2 * n + 1) + 5) / 6

theorem sum_sq (n : ℕ) : 6 * ∑ k ∈ Finset.range (n + 1), k ^ 2 = n * n * (2 * n + 1) + n * (2 * n + 1) := by
  induction n with
  | zero => rfl
  | succ n ih =>
    rw [Finset.sum_range_succ, mul_add, ih]
    ring

theorem sumSquares_add_leftOut (n : ℕ) : n * n * (2 * n + 1) / 6 + leftOut n = ∑ k ∈ Finset.range (n + 1), k ^ 2 := by
  have h := sum_sq n
  unfold leftOut
  omega

theorem leftOut_mono (h : a ≤ b) : leftOut a ≤ leftOut b := by
  have hm : a * (2 * a + 1) ≤ b * (2 * b + 1) := Nat.mul_le_mul h (by omega)
  unfold leftOut
  omega

/-- What is left out of the squares of `c` up to `c + n - 1`. -/
def shortfall (c n : ℕ) : ℕ := leftOut (c + n - 1) - leftOut (c - 1)

/-- The squares of `c` up to `c + n - 1`. -/
def series (c n : ℕ) : ℕ := ∑ i ∈ Finset.range n, (c + i) ^ 2

/-- The series of the code and what it leaves out. -/
theorem series_eq {c : ℕ} (hc : 0 < c) (hn : 0 < n) :
    (c + n - 1) * (c + n - 1) * (2 * (c + n - 1) + 1) / 6 - (c - 1) * (c - 1) * (2 * (c - 1) + 1) / 6 + shortfall c n =
      series c n := by
  have hl := sumSquares_add_leftOut (c + n - 1)
  have hf := sumSquares_add_leftOut (c - 1)
  have hm : leftOut (c - 1) ≤ leftOut (c + n - 1) := leftOut_mono (by omega)
  have hs : (c - 1) * (c - 1) * (2 * (c - 1) + 1) ≤ (c + n - 1) * (c + n - 1) * (2 * (c + n - 1) + 1) :=
    Nat.mul_le_mul (Nat.mul_le_mul (by omega) (by omega)) (by omega)
  rw [Nat.sub_add_cancel hc] at hf
  rw [Nat.sub_add_cancel (show 1 ≤ c + n by omega), Finset.sum_range_add] at hl
  unfold shortfall series
  omega

/-! ### The levels -/

/-- The count of transactions that are expected, as a number. -/
abbrev QueueFeeMetricsSnapshot.expected (metrics : QueueFeeMetricsSnapshot) : ℕ := metrics.txnsExpected.toNat

/-- The multiplier as a number. -/
abbrev QueueFeeMetricsSnapshot.multiplier (metrics : QueueFeeMetricsSnapshot) : ℕ := metrics.escalationMultiplier.toNat

theorem fits_eq_some {bits : ℕ} : fits bits n = some k ↔ n < 2 ^ bits ∧ n = k := by
  simp [fits]

theorem checkedSub_eq_some : checkedSub a b = some k ↔ b ≤ a ∧ a - b = k := by
  simp [checkedSub]

theorem eq_of_sumSquares (h : sumSquares n = some k) : k = n * n * (2 * n + 1) / 6 := by
  simp only [sumSquares, bind_eq_bind, bind_eq_some_iff, fits_eq_some] at h
  obtain ⟨_, ⟨-, rfl⟩, _, ⟨-, rfl⟩, _, ⟨-, rfl⟩, _, ⟨-, rfl⟩, h⟩ := h
  rw [← some.inj h, mul_comm n 2]

section

variable {m : QueueFeeMetricsSnapshot}

/-- What the code returns. -/
theorem eq_of_clearAhead (h : clearAheadRequiredFeeLevel m tc ss = some level) :
    m.expected < tc.toNat ∧ 0 < m.expected ∧
      shortfall tc.toNat ss.toNat ≤ series tc.toNat ss.toNat ∧ level.toNat =
      m.multiplier * (series tc.toNat ss.toNat - shortfall tc.toNat ss.toNat) / m.expected ^ 2 := by
  unfold clearAheadRequiredFeeLevel at h
  dsimp only at h
  split_ifs at h with ho
  simp only [not_or, not_le] at ho
  obtain ⟨ht, hp, hz⟩ := ho
  have hn : 0 < ss.toNat := Nat.pos_of_ne_zero fun h0 => hz (UInt64.toNat_inj.mp h0)
  simp only [bind_eq_bind, bind_eq_some_iff, fits_eq_some, checkedSub_eq_some] at h
  obtain ⟨_, ⟨-, rfl⟩, _, hl, _, hi, _, ⟨-, rfl⟩, _, ⟨-, rfl⟩, _, ⟨-, rfl⟩, _, ⟨hf, rfl⟩, h⟩ := h
  have hs := series_eq (c := tc.toNat) (by omega) hn
  rw [eq_of_sumSquares hl, eq_of_sumSquares hi, ← Nat.add_sub_assoc hn] at hf h
  refine ⟨ht, pos_of_ne_zero hp, hs ▸ le_add_left _ _, ?_⟩
  rw [← Option.some.inj h, UInt64.toNat_ofNat', Nat.mod_eq_of_lt hf, ← hs, Nat.add_sub_cancel, Nat.pow_two]

/-- A quotient is not changed by taking off no more than its remainder. -/
theorem div_eq_div_iff_sub_le {d : ℕ} (h : a ≤ b) (hd : 0 < d) : a / d = b / d ↔ b - a ≤ b % d := by
  have hb := Nat.div_add_mod b d
  have hl := Nat.mod_lt b hd
  rw [Nat.div_eq_iff hd, Nat.mul_comm (b / d) d]
  omega

theorem toNat_saturatingMul (a : UInt64) : (saturatingMul a a).toNat = min (a.toNat ^ 2) (2 ^ 64 - 1) := by
  unfold saturatingMul
  rw [toNat_ofNat', pow_two]
  exact mod_eq_of_lt (by omega)

theorem saturatingMul_ne_zero {a : UInt64} (ha : 0 < a.toNat) : saturatingMul a a ≠ 0 := fun h0 => by
  have h := congrArg toNat h0
  rw [toNat_saturatingMul] at h
  have := pow_pos (n := 2) ha
  simp at h
  omega

/-- What `scale_fee_level` asks for, if that fits. -/
theorem scaleFeeLevel_eq_ok_iff {q : ℕ} (ht : m.expected < tc.toNat) (hp : 0 < m.expected)
    (hq : m.multiplier * min (tc.toNat ^ 2) (2 ^ 64 - 1) / min (m.expected ^ 2) (2 ^ 64 - 1) = q)
    (hf : q < 2 ^ 64) : scaleFeeLevel m tc = .ok level ↔ q = level.toNat := by
  unfold QueueFeeMetricsSnapshot.expected at ht hp hq
  have hd := saturatingMul_ne_zero hp
  have hg : ¬ tc ≤ m.txnsExpected := fun hl => absurd (le_iff_toNat_le.mp hl) (by omega)
  unfold scaleFeeLevel mulDiv
  rw [if_neg hg, if_neg hd, toNat_saturatingMul, toNat_saturatingMul, hq, fits, if_pos hf]
  simp only [bind, Except.bind, pure, Except.pure, Option.map_some, Option.getD_some, Except.ok.injEq, ← UInt64.toNat_inj]
  rw [UInt64.toNat_ofNat', Nat.mod_eq_of_lt hf]

end

/-- `scale_fee_level` asks for the exact level: its squares do not saturate, or that makes no difference. -/
def ScalesAlike (multiplier count expected : ℕ) : Prop :=
  count < 2 ^ 32 ∨
    if expected < 2 ^ 32 then multiplier * (count ^ 2 - (2 ^ 64 - 1)) ≤ multiplier * count ^ 2 % expected ^ 2
    else multiplier * (count ^ 2 - expected ^ 2) < expected ^ 2

theorem scaleFeeLevel_exact_iff {m : QueueFeeMetricsSnapshot} (ht : m.expected < tc.toNat)
    (ho : 0 < m.expected) (hl : level.toNat = m.multiplier * tc.toNat ^ 2 / m.expected ^ 2) :
    scaleFeeLevel m tc = .ok level ↔ ScalesAlike m.multiplier tc.toNat m.expected := by
  have hf : level.toNat < 2 ^ 64 := level.toNat_lt
  have hm : m.multiplier < 2 ^ 64 := m.escalationMultiplier.toNat_lt
  have hs : 0 < m.expected ^ 2 := Nat.pow_pos ho
  have hpo {n : ℕ} (h : n < 2 ^ 32) : n ^ 2 ≤ 2 ^ 64 - 1 :=
    (Nat.pow_le_pow_left (Nat.le_sub_one_of_lt h) 2).trans (by decide)
  have hp {n : ℕ} (h : ¬ n < 2 ^ 32) : 2 ^ 64 ≤ n ^ 2 :=
    le_trans (by decide) (Nat.pow_le_pow_left (not_lt.mp h) 2)
  unfold ScalesAlike
  by_cases hc : tc.toNat < 2 ^ 32
  · rw [scaleFeeLevel_eq_ok_iff ht ho rfl] <;> rw [min_eq_left (hpo hc), min_eq_left (hpo (ht.trans hc)), ← hl]
    · exact ⟨fun _ => .inl hc, fun _ => rfl⟩
    · exact hf
  · have hi := hp hc
    simp only [hc, false_or]
    split_ifs with he
    · have hle : m.multiplier * (2 ^ 64 - 1) ≤ m.multiplier * tc.toNat ^ 2 :=
        Nat.mul_le_mul_left _ (by omega)
      rw [Nat.mul_sub, ← div_eq_div_iff_sub_le hle hs, ← hl]
      rw [scaleFeeLevel_eq_ok_iff ht ho rfl] <;> rw [min_eq_right (by omega), min_eq_left (hpo he)]
      exact lt_of_le_of_lt (Nat.div_le_div_right hle) (hl ▸ hf)
    · have hw := hp he
      have hle : m.multiplier * m.expected ^ 2 ≤ m.multiplier * tc.toNat ^ 2 :=
        Nat.mul_le_mul_left _ (Nat.pow_le_pow_left ht.le 2)
      rw [scaleFeeLevel_eq_ok_iff (q := m.multiplier) ht ho ?_ hm, hl, eq_comm, Nat.div_eq_iff hs, Nat.mul_sub]
      · omega
      · rw [min_eq_right (by omega), min_eq_right (by omega), Nat.mul_div_cancel _ (by decide)]

/-- **The level for clearing a queue.** Whenever a level is returned, it is that of the exact series, and for one transaction that
of `scale_fee_level`, just when the multiple of what is left out of the sum is within the remainder of the division, and
for one transaction the squares of `scale_fee_level` do not saturate or do no harm. -/
theorem clearAhead_exact_iff (metrics : QueueFeeMetricsSnapshot) (txCount seriesSize level : UInt64)
    (h : clearAheadRequiredFeeLevel metrics txCount seriesSize = some level) :
    (level.toNat = metrics.multiplier * (∑ i ∈ Finset.range seriesSize.toNat, (txCount.toNat + i) ^ 2) /
        metrics.expected ^ 2 ∧ (seriesSize = 1 → scaleFeeLevel metrics txCount = .ok level)) ↔
      metrics.multiplier * shortfall txCount.toNat seriesSize.toNat ≤
          metrics.multiplier * series txCount.toNat seriesSize.toNat % metrics.expected ^ 2 ∧
        (seriesSize = 1 → ScalesAlike metrics.multiplier txCount.toNat metrics.expected) := by
  obtain ⟨ht, hp, hs, hl⟩ := eq_of_clearAhead h
  have hx : level.toNat = metrics.multiplier * series txCount.toNat seriesSize.toNat /
      metrics.expected ^ 2 ↔ metrics.multiplier * shortfall txCount.toNat seriesSize.toNat ≤
        metrics.multiplier * series txCount.toNat seriesSize.toNat % metrics.expected ^ 2 := by
    rw [hl, div_eq_div_iff_sub_le (Nat.mul_le_mul_left _ (Nat.sub_le _ _)) (Nat.pow_pos hp), ← Nat.mul_sub,
      Nat.sub_sub_self hs]
  rw [← hx]
  refine and_congr_right fun he => forall_congr' fun ho => ?_
  subst ho
  refine scaleFeeLevel_exact_iff ht hp ?_
  rw [he]
  simp

theorem clearAhead_exact_one_more :
    clearAheadRequiredFeeLevel ⟨32, 1⟩ 33 1 = some 1 ∧ scaleFeeLevel ⟨32, 1⟩ 33 = .ok 1 := by
  have hl : clearAheadRequiredFeeLevel ⟨32, 1⟩ 33 1 = some 1 := by decide
  exact ⟨hl, ((clearAhead_exact_iff ⟨32, 1⟩ 33 1 1 hl).mpr ⟨by decide, fun _ => .inl (by decide)⟩).2 rfl⟩

/-- What goes otherwise: with two transactions where one is expected, the level is three quarters of what the series and
`scale_fee_level` ask for. -/
theorem clearAhead_asks_less :
    clearAheadRequiredFeeLevel ⟨1, 256⟩ 2 1 = some 768 ∧ 256 * (∑ i ∈ Finset.range 1, (2 + i) ^ 2) / 1 ^ 2 = 1024 ∧
      scaleFeeLevel ⟨1, 256⟩ 2 = .ok 1024 := by
  decide

end Xrpld.TxQ
