import Xrpld.Basics.Uint256
import Xrpld.Lib.TreeMap

/-!
# Disputed transactions

`DisputedTx` of `xrpld/consensus/model/disputed_tx.rs` counts the votes of the peers on a transaction. `update_vote`
changes our vote when the votes for yes do not reach, or do reach, a percentage that grows in stages
(`get_needed_weight` of `algorithm/params.rs`); `stalled` says when no change is expected any more.

## The model

The counts are integers, and an operation of `i32` has to fit. The transaction and its id are not modelled.

## What is proved

`stalled_stays`: if every stage but the last one is followed by a later one, a dispute that is stalled after an update
keeps our vote as long as no peer changes theirs. Two stages at the same time are taken for the last one
(`stalled_not_stays`).
-/

namespace Xrpld.Consensus

open Std (ExtTreeMap)
open TreeMap

/-! ### The stages -/

inductive AvalancheState where
  | init | mid | late | stuck
  deriving DecidableEq

structure AvalancheCutoff where
  consensusTime : ℤ
  consensusPct : ℕ
  next : AvalancheState

/-- `ConsensusParms`, as far as disputes go. -/
structure ConsensusParms where
  minConsensusPct : ℕ := 80
  avalancheCutoffs : AvalancheState → Option AvalancheCutoff := fun
    | .init => some ⟨0, 50, .mid⟩
    | .mid => some ⟨50, 65, .late⟩
    | .late => some ⟨85, 70, .stuck⟩
    | .stuck => some ⟨200, 95, .stuck⟩
  avMinRounds : ℕ := 2
  avStalledRounds : ℕ := 4

/-- The entry of a state in the table. -/
def ConsensusParms.cutoff (parms : ConsensusParms) (state : AvalancheState) (which : String) : Run AvalancheCutoff :=
  match parms.avalancheCutoffs state with
  | some cutoff => .ok cutoff
  | none => .error (.expect (which ++ " avalanche state must exist in the cutoff table"))

def getNeededWeight (parms : ConsensusParms) (currentState : AvalancheState) (percentTime : ℤ)
    (currentRounds minimumRounds : ℕ) : Run (ℕ × Option AvalancheState) := do
  let currentCutoff ← parms.cutoff currentState "current"
  if currentCutoff.next ≠ currentState ∧ minimumRounds ≤ currentRounds then
    let nextCutoff ← parms.cutoff currentCutoff.next "next"
    if nextCutoff.consensusTime < currentCutoff.consensusTime then
      .error (.assertion "next avalanche state's cutoff time must not precede the current one")
    else if nextCutoff.consensusTime ≤ percentTime then .ok (nextCutoff.consensusPct, some currentCutoff.next)
    else .ok (currentCutoff.consensusPct, none)
  else .ok (currentCutoff.consensusPct, none)

/-! ### A dispute -/

/-- The result of an operation of `i32`. -/
def i32 (n : ℤ) : Run ℤ := if -2 ^ 31 ≤ n ∧ n < 2 ^ 31 then .ok n else .error .overflow

/-- A division of `i32`. -/
def divI32 (a b : ℤ) : Run ℤ := if b = 0 then .error (.expect "attempt to divide by zero") else i32 (a.tdiv b)

/-- `i32::try_from`. -/
def pctI32 (pct : ℕ) (msg : String) : Run ℤ := if pct < 2 ^ 31 then .ok pct else .error (.expect msg)

structure DisputedTx (NodeId : Type) [Ord NodeId] where
  yays : ℤ
  nays : ℤ
  ourVote : Bool
  votes : ExtTreeMap NodeId Bool
  currentVoteCounter : ℕ
  avalancheState : AvalancheState
  avalancheCounter : ℕ

namespace DisputedTx

variable {NodeId : Type} [LinearOrder NodeId]

def new (ourVote : Bool) : DisputedTx NodeId := ⟨0, 0, ourVote, ∅, 0, .init, 0⟩

def setVote (d : DisputedTx NodeId) (peer : NodeId) (votesYes : Bool) : Run (Bool × DisputedTx NodeId) :=
  match d.votes[peer]? with
  | none =>
    let d := { d with votes := d.votes.insert peer votesYes }
    if votesYes then do return (true, { d with yays := ← i32 (d.yays + 1) })
    else do return (true, { d with nays := ← i32 (d.nays + 1) })
  | some existing =>
    if existing ≠ votesYes then
      let d := { d with votes := d.votes.insert peer votesYes }
      if votesYes then do return (true, { d with nays := ← i32 (d.nays - 1), yays := ← i32 (d.yays + 1) })
      else do return (true, { d with yays := ← i32 (d.yays - 1), nays := ← i32 (d.nays + 1) })
    else .ok (false, d)

def unVote (d : DisputedTx NodeId) (peer : NodeId) : Run (DisputedTx NodeId) :=
  match d.votes[peer]? with
  | none => .ok d
  | some vote =>
    let d := { d with votes := d.votes.erase peer }
    if vote then do return { d with yays := ← i32 (d.yays - 1) }
    else do return { d with nays := ← i32 (d.nays - 1) }

def stalled (d : DisputedTx NodeId) (parms : ConsensusParms) (proposing : Bool) (peersUnchanged : ℕ) : Run Bool := do
  let currentCutoff ← parms.cutoff d.avalancheState "current"
  let nextCutoff ← parms.cutoff currentCutoff.next "next"
  if currentCutoff.consensusTime < nextCutoff.consensusTime ∨ d.avalancheCounter < parms.avMinRounds then .ok false
  else if proposing ∧ d.currentVoteCounter < parms.avMinRounds then .ok false
  else if peersUnchanged < parms.avStalledRounds ∧ proposing ∧ d.currentVoteCounter < parms.avStalledRounds then
    .ok false
  else
    let support ← i32 ((← i32 (d.yays + (proposing && d.ourVote).toInt)) * 100)
    let total ← i32 ((← i32 (d.nays + d.yays)) + proposing.toInt)
    if total = 0 then .ok false
    else
      let weight ← divI32 support total
      let minPct ← pctI32 parms.minConsensusPct "min_consensus_pct must fit in i32"
      return decide (minPct < weight) || decide (weight < 100 - minPct)

/-- The position that `update_vote` takes. -/
def newPosition (d : DisputedTx NodeId) (proposing : Bool) (requiredPct : ℕ) : Run Bool :=
  if proposing then do
    let support ← i32 ((← i32 (d.yays * 100)) + d.ourVote.toInt * 100)
    let weight ← divI32 support (← i32 ((← i32 (d.nays + d.yays)) + 1))
    return decide ((← pctI32 requiredPct "required percent must fit in i32") < weight)
  else .ok (decide (d.nays < d.yays))

def updateVote (d : DisputedTx NodeId) (percentTime : ℤ) (proposing : Bool) (parms : ConsensusParms) :
    Run (Bool × DisputedTx NodeId) :=
  if d.ourVote = true ∧ d.nays = 0 then .ok (false, d)
  else if d.ourVote = false ∧ d.yays = 0 then .ok (false, d)
  else do
    let (requiredPct, newState) ←
      getNeededWeight parms d.avalancheState percentTime (d.avalancheCounter + 1) parms.avMinRounds
    let d := match newState with
      | some newState => { d with avalancheState := newState, avalancheCounter := 0 }
      | none => { d with avalancheCounter := d.avalancheCounter + 1 }
    let newPosition ← d.newPosition proposing requiredPct
    if newPosition = d.ourVote then return (false, { d with currentVoteCounter := d.currentVoteCounter + 1 })
    else return (true, { d with currentVoteCounter := 0, ourVote := newPosition })

/-! ### Runs -/

/-- One call on a dispute. -/
inductive Step (parms : ConsensusParms) (proposing : Bool) (d d' : DisputedTx NodeId) : Prop where
  | setVote {peer : NodeId} {votesYes changed : Bool} (h : d.setVote peer votesYes = .ok (changed, d'))
  | unVote {peer : NodeId} (h : d.unVote peer = .ok d')
  | updateVote (percentTime : ℤ) {changed : Bool} (h : d.updateVote percentTime proposing parms = .ok (changed, d'))

/-- The disputes after any calls on a new one. -/
inductive Reached (parms : ConsensusParms) (proposing : Bool) : DisputedTx NodeId → Prop where
  | new (ourVote : Bool) : Reached parms proposing (new ourVote)
  | step {d d' : DisputedTx NodeId} (hd : Reached parms proposing d) (h : Step parms proposing d d') :
      Reached parms proposing d'

/-- The disputes after any calls that leave the votes of the peers as they are. -/
inductive Quiet (parms : ConsensusParms) (proposing : Bool) (d : DisputedTx NodeId) : DisputedTx NodeId → Prop where
  | refl : Quiet parms proposing d d
  | step {d1 d2 : DisputedTx NodeId} (hd : Quiet parms proposing d d1) (h : Step parms proposing d1 d2)
      (hvo : d2.votes = d1.votes) : Quiet parms proposing d d2

/-- Every stage but the last one is followed by a later one. -/
def InOrder (parms : ConsensusParms) : Prop :=
  ∀ state cutoff next, parms.avalancheCutoffs state = some cutoff → cutoff.next ≠ state →
    parms.avalancheCutoffs cutoff.next = some next → cutoff.consensusTime < next.consensusTime

variable {parms : ConsensusParms} {proposing changed votesYes : Bool} {d d' d1 d2 : DisputedTx NodeId} {pe : NodeId}
  {t n m : ℤ} {pct k : ℕ}

/-! ### Counting -/

/-- How many peers vote so. -/
def tally (votes : ExtTreeMap NodeId Bool) (vote : Bool) : ℕ := votes.toList.countP fun e => e.2 == vote

/-- The counts are those of the votes. -/
structure Counted (d : DisputedTx NodeId) : Prop where
  yays : d.yays = tally d.votes true
  nays : d.nays = tally d.votes false

theorem tally_insert (votes : ExtTreeMap NodeId Bool) (pe : NodeId) (v vote : Bool) :
    tally (votes.insert pe v) vote = tally (votes.erase pe) vote + if v == vote then 1 else 0 := by
  rw [tally, toList_insert_perm.countP_eq, List.countP_cons, tally]

theorem tally_erase {votes : ExtTreeMap NodeId Bool} {v : Bool} (h : votes[pe]? = some v) (vote : Bool) :
    tally votes vote = tally (votes.erase pe) vote + if v == vote then 1 else 0 := by
  rw [tally, (toList_perm_cons_erase h).countP_eq, List.countP_cons, tally]

theorem ok_of_bind {α β : Type} {x : Run α} {f : α → Run β} {b : β} (h : x >>= f = .ok b) :
    ∃ a, x = .ok a ∧ f a = .ok b := by
  cases x with
  | error e => cases h
  | ok a => exact ⟨a, rfl, h⟩

theorem of_i32 (h : i32 n = .ok m) : m = n ∧ -2 ^ 31 ≤ n ∧ n < 2 ^ 31 := by
  unfold i32 at h
  split_ifs at h with hn
  cases h
  exact ⟨rfl, hn⟩

/-- **A vote of a peer** counts if it is not what the peer has voted before. -/
theorem setVote_ok (h : d.setVote pe votesYes = .ok (changed, d')) :
    d' = d ∨ d.votes[pe]? ≠ some votesYes ∧
      d' = { d with
        votes := d.votes.insert pe votesYes
        yays := d.yays + votesYes.toInt - (d.votes[pe]?.getD false).toInt
        nays := d.nays + (!votesYes).toInt - (!d.votes[pe]?.getD true).toInt } := by
  unfold setVote at h
  cases hp : d.votes[pe]? with
  | none =>
    rw [hp] at h
    right
    cases votesYes <;> obtain ⟨n, hn, h⟩ := ok_of_bind h <;> obtain ⟨rfl, -⟩ := of_i32 hn <;> cases h <;> simp
  | some ex =>
    rw [hp] at h
    dsimp only at h
    by_cases he : ex = votesYes
    · rw [if_neg (not_not.mpr he)] at h
      cases h
      exact .inl rfl
    · rw [if_pos he] at h
      right
      cases votesYes <;> obtain ⟨n, hn, h⟩ := ok_of_bind h <;> obtain ⟨m, hm, h⟩ := ok_of_bind h <;>
        obtain ⟨rfl, -⟩ := of_i32 hn <;> obtain ⟨rfl, -⟩ := of_i32 hm <;> cases h <;> simp_all

theorem unVote_ok (h : d.unVote pe = .ok d') :
    d' = d ∨ ∃ vote : Bool, d.votes[pe]? = some vote ∧
      d' = { d with votes := d.votes.erase pe, yays := d.yays - vote.toInt, nays := d.nays - (!vote).toInt } := by
  unfold unVote at h
  cases hp : d.votes[pe]? with
  | none =>
    rw [hp] at h
    cases h
    exact .inl rfl
  | some vote =>
    rw [hp] at h
    refine .inr ⟨vote, rfl, ?_⟩
    cases vote <;> obtain ⟨n, hn, h⟩ := ok_of_bind h <;> obtain ⟨rfl, -⟩ := of_i32 hn <;> cases h <;> simp

theorem Counted.setVote (hd : d.Counted) (h : d.setVote pe votesYes = .ok (changed, d')) : d'.Counted := by
  rcases setVote_ok h with rfl | ⟨-, rfl⟩
  · exact hd
  · have hi := tally_insert d.votes pe votesYes
    cases hp : d.votes[pe]? with
    | none =>
      rw [erase_eq_self hp] at hi
      cases votesYes <;> exact ⟨by simp [hi, hd.yays], by simp [hi, hd.nays]⟩
    | some ex =>
      have he := tally_erase hp
      cases votesYes <;> cases ex <;> exact ⟨by simp [hi, hd.yays, he], by simp [hi, hd.nays, he]⟩

theorem Counted.unVote (hd : d.Counted) (h : d.unVote pe = .ok d') : d'.Counted := by
  rcases unVote_ok h with rfl | ⟨vote, hp, rfl⟩
  · exact hd
  · have he := tally_erase hp
    cases vote <;> exact ⟨by simp [hd.yays, he], by simp [hd.nays, he]⟩

/-! ### Updates -/

theorem of_cutoff {se : AvalancheState} {which : String} {co : AvalancheCutoff}
    (h : parms.cutoff se which = .ok co) : parms.avalancheCutoffs se = some co := by
  unfold ConsensusParms.cutoff at h
  split at h
  · cases h
    assumption
  · cases h

/-- The needed percentage is that of the stage that is entered. -/
theorem getNeededWeight_ok {se : AvalancheState} {rounds minimum : ℕ} {new : Option AvalancheState}
    (h : getNeededWeight parms se t rounds minimum = .ok (pct, new)) :
    ∃ co, parms.avalancheCutoffs (new.getD se) = some co ∧ co.consensusPct = pct := by
  obtain ⟨current, hc, h⟩ := ok_of_bind h
  split_ifs at h
  · obtain ⟨next, hn, h⟩ := ok_of_bind h
    split_ifs at h
    · cases h
      exact ⟨next, of_cutoff hn, rfl⟩
    · cases h
      exact ⟨current, of_cutoff hc, rfl⟩
  · cases h
    exact ⟨current, of_cutoff hc, rfl⟩

/-- What an update leaves as it is. -/
structure SameVotes (d d' : DisputedTx NodeId) : Prop where
  votes : d'.votes = d.votes
  yays : d'.yays = d.yays
  nays : d'.nays = d.nays

/-- Nobody disagrees with us. -/
def Unopposed (d : DisputedTx NodeId) : Prop := d.ourVote = true ∧ d.nays = 0 ∨ d.ourVote = false ∧ d.yays = 0

/-- **An update**: nothing happens if nobody disagrees; or else our vote becomes what the percentage of the stage says. -/
theorem updateVote_ok (h : d.updateVote t proposing parms = .ok (changed, d')) :
    SameVotes d d' ∧ (d.Unopposed ∧ d' = d ∨ ∃ co, parms.avalancheCutoffs d'.avalancheState = some co ∧
      d.newPosition proposing co.consensusPct = .ok d'.ourVote) := by
  unfold updateVote at h
  split_ifs at h with hy hn
  · cases h
    exact ⟨⟨rfl, rfl, rfl⟩, .inl ⟨.inl hy, rfl⟩⟩
  · cases h
    exact ⟨⟨rfl, rfl, rfl⟩, .inl ⟨.inr hn, rfl⟩⟩
  · obtain ⟨⟨pct, new⟩, hw, h⟩ := ok_of_bind h
    obtain ⟨co, hc, rfl⟩ := getNeededWeight_ok hw
    obtain ⟨position, hp, h⟩ := ok_of_bind h
    have hd : SameVotes d d' ∧ d'.avalancheState = new.getD d.avalancheState ∧ d'.ourVote = position := by
      split_ifs at h with hm
      · cases h
        cases new <;> exact ⟨⟨rfl, rfl, rfl⟩, rfl, hm.symm⟩
      · cases h
        cases new <;> exact ⟨⟨rfl, rfl, rfl⟩, rfl, rfl⟩
    obtain ⟨hm, hs, rfl⟩ := hd
    refine ⟨hm, .inr ⟨co, by rw [hs]; exact hc, ?_⟩⟩
    cases new <;> exact hp

theorem Counted.of_sameVotes (hd : d.Counted) (h : SameVotes d d') : d'.Counted :=
  ⟨by rw [h.yays, h.votes, hd.yays], by rw [h.nays, h.votes, hd.nays]⟩

theorem Reached.counted (hd : Reached parms proposing d) : d.Counted := by
  induction hd with
  | new ourVote => exact ⟨rfl, rfl⟩
  | step _ h ih =>
    cases h with
    | setVote h => exact ih.setVote h
    | unVote h => exact ih.unVote h
    | updateVote _ h => exact ih.of_sameVotes (updateVote_ok h).1

/-! ### Stalled disputes -/

/-- The votes for yes in percent, ours among them. -/
def weight (d : DisputedTx NodeId) : ℤ := (d.yays + d.ourVote.toInt) * 100 / (d.nays + d.yays + 1)

theorem Counted.nonneg (hd : d.Counted) : 0 ≤ d.yays ∧ 0 ≤ d.nays := by
  rw [hd.yays, hd.nays]
  exact ⟨Int.natCast_nonneg _, Int.natCast_nonneg _⟩

theorem toInt_nonneg (b : Bool) : 0 ≤ b.toInt := by
  cases b <;> decide

/-- Our vote for yes adds to the weight. -/
theorem Counted.weight_le (hd : d.Counted) (hy : d'.yays = d.yays) (hn : d'.nays = d.nays)
    (hv : d.ourVote.toInt ≤ d'.ourVote.toInt) : d.weight ≤ d'.weight := by
  obtain ⟨hy', hn'⟩ := hd.nonneg
  rw [weight, weight, hy, hn]
  exact Int.ediv_le_ediv (by omega) (by omega)

theorem divI32_eq {a b : ℤ} (ha : 0 ≤ a) (ha' : a < 2 ^ 31) (hb : 0 < b) : divI32 a b = .ok (a / b) := by
  have hl : a / b ≤ a := Int.ediv_le_self b ha
  have hn : 0 ≤ a / b := Int.ediv_nonneg ha hb.le
  rw [divI32, if_neg hb.ne', Int.tdiv_eq_ediv_of_nonneg ha, i32, if_pos (by omega)]

theorem of_newPosition (hd : d.Counted) {position : Bool} (h : d.newPosition true pct = .ok position) :
    d.nays + d.yays + 1 < 2 ^ 31 ∧ pct < 2 ^ 31 ∧ position = decide (pct < d.weight) := by
  obtain ⟨hy, hn⟩ := hd.nonneg
  have ho := toInt_nonneg d.ourVote
  obtain ⟨x, hx, h⟩ := ok_of_bind h
  obtain ⟨support, hs, h⟩ := ok_of_bind h
  obtain ⟨y, hy, h⟩ := ok_of_bind h
  obtain ⟨tot, hto, h⟩ := ok_of_bind h
  obtain ⟨w, hw, h⟩ := ok_of_bind h
  obtain ⟨p, hp, h⟩ := ok_of_bind h
  obtain ⟨rfl, -⟩ := of_i32 hx
  obtain ⟨rfl, hf⟩ := of_i32 hs
  obtain ⟨rfl, -⟩ := of_i32 hy
  obtain ⟨rfl, ht⟩ := of_i32 hto
  rw [divI32_eq (by omega) hf.2 (by omega)] at hw
  cases hw
  unfold pctI32 at hp
  split_ifs at hp with hc
  cases hp
  cases h
  rw [weight, add_mul]
  exact ⟨ht.2, hc, rfl⟩

theorem newPosition_eq (hd : d.Counted) (hf : (d.yays + d.ourVote.toInt) * 100 < 2 ^ 31)
    (ht : d.nays + d.yays + 1 < 2 ^ 31) (hp : pct < 2 ^ 31) :
    d.newPosition true pct = .ok (decide (pct < d.weight)) := by
  obtain ⟨hy, hn⟩ := hd.nonneg
  have ho := toInt_nonneg d.ourVote
  have hi : ∀ {n : ℤ}, 0 ≤ n → n < 2 ^ 31 → i32 n = .ok n := fun h h' => if_pos ⟨by omega, h'⟩
  simp only [newPosition, if_true, bind, Except.bind, pure, Except.pure]
  rw [hi (n := d.yays * 100) (by omega) (by omega)]
  dsimp only
  rw [← add_mul, hi (by omega) hf]
  dsimp only
  rw [hi (by omega) (by omega)]
  dsimp only
  rw [hi (by omega) ht]
  dsimp only
  rw [divI32_eq (by omega) hf (by omega), pctI32, if_pos hp]
  rfl

/-- A stalled dispute is at a stage that no later one follows, and our weight fits. -/
theorem stalled_ok (h : d.stalled parms proposing k = .ok true) :
    ∃ co next, parms.avalancheCutoffs d.avalancheState = some co ∧
      parms.avalancheCutoffs co.next = some next ∧ next.consensusTime ≤ co.consensusTime ∧
      (d.yays + (proposing && d.ourVote).toInt) * 100 < 2 ^ 31 := by
  obtain ⟨co, hc, h⟩ := ok_of_bind h
  obtain ⟨next, hn, h⟩ := ok_of_bind h
  split_ifs at h with hl
  · cases h
  · cases h
  · cases h
  · obtain ⟨x, hx, h⟩ := ok_of_bind h
    obtain ⟨support, hs, -⟩ := ok_of_bind h
    obtain ⟨rfl, -⟩ := of_i32 hx
    obtain ⟨rfl, hf⟩ := of_i32 hs
    exact ⟨co, next, of_cutoff hc, of_cutoff hn, not_lt.mp fun ht => hl (.inl ht), hf.2⟩

/-- The stage is the last one, and nobody disagrees or our vote is what the percentage of the stage says. -/
def Steady (parms : ConsensusParms) (proposing : Bool) (d : DisputedTx NodeId) : Prop :=
  ∃ cutoff, parms.avalancheCutoffs d.avalancheState = some cutoff ∧ cutoff.next = d.avalancheState ∧
    (d.Unopposed ∨ d.newPosition proposing cutoff.consensusPct = .ok d.ourVote)

/-- A position that is taken by our vote before is taken by itself: it moves the weight further the same way. -/
theorem newPosition_again (hd : d.Counted) (hd' : d'.Counted) (hs : SameVotes d d')
    (hf : (d'.yays + (proposing && d'.ourVote).toInt) * 100 < 2 ^ 31)
    (h : d.newPosition proposing pct = .ok d'.ourVote) : d'.newPosition proposing pct = .ok d'.ourVote := by
  obtain ⟨-, hy, hn⟩ := hs
  cases proposing with
  | false =>
    rw [← h]
    simp only [newPosition, hy, hn, Bool.false_eq_true, if_false]
  | true =>
    obtain ⟨ht, hc, hp⟩ := of_newPosition hd h
    rw [newPosition_eq hd' hf (by rw [hy, hn]; exact ht) hc]
    congr 1
    cases hv : d'.ourVote with
    | false =>
      have hl := hd'.weight_le hy.symm hn.symm (by rw [hv]; exact toInt_nonneg _)
      rw [hv, eq_comm, decide_eq_false_iff_not] at hp
      exact decide_eq_false fun hlt => hp (hlt.trans_le hl)
    | true =>
      have hl := hd.weight_le hy hn (by rw [hv]; cases d.ourVote <;> decide)
      rw [hv, eq_comm, decide_eq_true_iff] at hp
      exact decide_eq_true (hp.trans_le hl)

/-- **After an update a stalled dispute is steady.** -/
theorem steady_of_stalled (ht : InOrder parms) (hd : d.Counted)
    (hup : d.updateVote t proposing parms = .ok (changed, d')) (hst : d'.stalled parms proposing k = .ok true) :
    Steady parms proposing d' := by
  obtain ⟨co, next, hu, hn, ha, hf⟩ := stalled_ok hst
  have hl : co.next = d'.avalancheState := by
    by_contra he
    exact absurd (ht _ _ _ hu he hn) (not_lt.mpr ha)
  refine ⟨co, hu, hl, ?_⟩
  obtain ⟨hs, ⟨hun, rfl⟩ | ⟨cutoff', hc, hp⟩⟩ := updateVote_ok hup
  · exact .inl hun
  · rw [hu] at hc
    cases hc
    exact .inr (newPosition_again hd (hd.of_sameVotes hs) hs hf hp)

/-- **An update of a steady dispute** changes the counters of rounds only. -/
theorem Steady.updateVote (hd : Steady parms proposing d) (t : ℤ) :
    ∃ a c, d.updateVote t proposing parms = .ok (false, { d with avalancheCounter := a, currentVoteCounter := c }) := by
  obtain ⟨co, hc, hl, ho⟩ := hd
  unfold DisputedTx.updateVote
  split_ifs with hy hn
  · exact ⟨_, _, rfl⟩
  · exact ⟨_, _, rfl⟩
  · have ho := ho.resolve_left fun h => h.elim hy hn
    have hw : getNeededWeight parms d.avalancheState t (d.avalancheCounter + 1) parms.avMinRounds =
        .ok (co.consensusPct, none) := by
      simp [getNeededWeight, ConsensusParms.cutoff, hc, hl, bind, Except.bind]
    refine ⟨d.avalancheCounter + 1, d.currentVoteCounter + 1, ?_⟩
    have hp : ({ d with avalancheCounter := d.avalancheCounter + 1 } : DisputedTx NodeId).newPosition proposing
        co.consensusPct = .ok d.ourVote := ho
    simp only [hw, bind, Except.bind, hp, if_true, pure, Except.pure]

theorem Steady.quiet (hd : Steady parms proposing d) (hq : Quiet parms proposing d d2) :
    Steady parms proposing d2 ∧ d2.ourVote = d.ourVote := by
  induction hq with
  | refl => exact ⟨hd, rfl⟩
  | step _ h ho ih =>
    obtain ⟨hs, hv⟩ := ih
    cases h with
    | @setVote pe votesYes _ h =>
      rcases setVote_ok h with rfl | ⟨hn, rfl⟩
      · exact ⟨hs, hv⟩
      · refine absurd ?_ hn
        rw [← ho]
        exact getElem?_insert.trans (if_pos rfl)
    | @unVote pe h =>
      rcases unVote_ok h with rfl | ⟨vote, hp, rfl⟩
      · exact ⟨hs, hv⟩
      · rw [← ho, getElem?_erase, if_pos rfl] at hp
        cases hp
    | updateVote _ h =>
      obtain ⟨a, c, h'⟩ := hs.updateVote _
      rw [h'] at h
      cases h
      exact ⟨hs, hv⟩

/-- **Stalled disputes stay.** -/
theorem stalled_stays (htab : InOrder parms) (hd : Reached parms proposing d)
    (hup : d.updateVote t proposing parms = .ok (changed, d1)) (hst : d1.stalled parms proposing k = .ok true)
    (hqu : Quiet parms proposing d1 d2) (t' : ℤ) :
    ∃ d3, d2.updateVote t' proposing parms = .ok (false, d3) ∧ d3.ourVote = d1.ourVote := by
  obtain ⟨hs, hv⟩ := (steady_of_stalled htab hd.counted hup hst).quiet hqu
  obtain ⟨a, c, hu⟩ := hs.updateVote t'
  exact ⟨_, hu, hv⟩

/-- Four peers vote as we do, one does not. -/
def lopsided : DisputedTx ℕ :=
  ⟨4, 1, true, ((((∅ : ExtTreeMap ℕ Bool).insert 0 true).insert 1 true).insert 2 true).insert 3 true |>.insert 4 false,
    0, .init, 0⟩

theorem lopsided_reached (parms : ConsensusParms) : Reached parms true lopsided := by
  have hs : ∀ {d d' : DisputedTx ℕ} (pe : ℕ) (votesYes : Bool), Reached parms true d →
      d.setVote pe votesYes = .ok (true, d') → Reached parms true d' := fun _ _ hd h => hd.step (.setVote h)
  exact hs 4 false (hs 3 true (hs 2 true (hs 1 true (hs 0 true (.new true) rfl) rfl) rfl) rfl) rfl

/-- With one stage that needs half of the votes, ours stays. -/
theorem stalled_stays_lopsided :
    ∃ d3, { lopsided with avalancheCounter := 1, currentVoteCounter := 1 }.updateVote 70 true
      { avalancheCutoffs := fun | .init => some ⟨0, 50, .init⟩ | _ => none, avMinRounds := 1 } = .ok (false, d3) ∧
      d3.ourVote = true :=
  stalled_stays (d := lopsided) (t := 0) (k := 4) (by rintro (_ | _ | _ | _) _ _ ⟨⟩ hne; exact absurd rfl hne)
    (lopsided_reached _) rfl rfl .refl 70

/-- Two stages at the same time: the dispute is stalled at the first one, and the second one changes our vote. -/
theorem stalled_not_stays :
    ∃ (parms : ConsensusParms) (d d1 d2 : DisputedTx ℕ), parms.avalancheCutoffs .init = some ⟨50, 50, .mid⟩ ∧
      parms.avalancheCutoffs .mid = some ⟨50, 95, .mid⟩ ∧ Reached parms true d ∧
      d.updateVote 0 true parms = .ok (false, d1) ∧ d1.stalled parms true 4 = .ok true ∧
      d1.updateVote 50 true parms = .ok (true, d2) ∧ d2.ourVote ≠ d1.ourVote :=
  ⟨{ avalancheCutoffs := fun | .init => some ⟨50, 50, .mid⟩ | .mid => some ⟨50, 95, .mid⟩ | _ => none },
    { lopsided with avalancheCounter := 1, currentVoteCounter := 1 }, _, _, rfl, rfl,
    .step (lopsided_reached _) (.updateVote 0 rfl), rfl, rfl, rfl, nofun⟩

end DisputedTx

end Xrpld.Consensus
