import Mathlib

/-!
# Admission of packets

`AdmissionGate` of `xrpld/acquisition/ingress.rs` reserves packets and bytes for packets that come in, on two atomic
counters one after the other, and hands out leases. A lease gives its reservation back when it is dropped, or, once it
has become an `AdmittedLedgerPacket`, when that is settled or dropped.

## The model

One step is one atomic operation of one call. `fetch_update` is a load and a weak compare-exchange, repeated while the
exchange fails, which it may do for no reason. A lease is a value that one `Part` of the system has: who holds it, the
packet made of it, or the call it was moved or lent to. A thread has one call in progress at most, so any number of
threads is any number of calls. The peer and the content of a packet, and what a call answers beside a lease or a packet,
are left out.

## What is proved

`Accounted` holds along every run: each counter is the sum of what the parts of the system still owe it, which is how
no subtraction can take more than was added. `admission_kept` reads the bounds off it.
-/

namespace Xrpld.Acquisition

open List

/-- The two counters of a gate. -/
inductive Counter where
  | packets
  | bytes

structure AdmissionBudget where
  maxPackets : UInt64
  maxBytes : UInt64

structure AdmissionGate (Session : Type) where
  budget : AdmissionBudget
  session : Session
  reservedPackets : UInt64
  reservedBytes : UInt64
  nextLeaseId : UInt64

/-- `LEASE_OPEN`, `LEASE_CONSUMED` and `LEASE_RELEASED`. -/
inductive LeaseState where
  | leaseOpen
  | leaseConsumed
  | leaseReleased
  deriving DecidableEq

/-- `AdmissionLease`, and how often its packets and its bytes have been given back. -/
structure AdmissionLease (Session : Type) where
  leaseId : UInt64
  session : Session
  packetCount : UInt64
  byteCount : UInt64
  settled : LeaseState := .leaseOpen
  packetsBack : ℕ := 0
  bytesBack : ℕ := 0

/-- What comes after `release_inner`: `settle` returns, the packet that was settled is dropped further, or the lease
is gone. -/
inductive After where
  | settled
  | dropLease
  | gone

/-- A call in progress, by the atomic operation it does next; `prev` is what `fetch_update` has read. -/
inductive Call (Session : Type) where
  | reserveBytes (packetCount byteCount : UInt64) (prev : Option UInt64)
  | reservePackets (packetCount byteCount : UInt64) (prev : Option UInt64)
  | rollBack (byteCount : UInt64)
  | mint (packetCount byteCount : UInt64)
  | consume (lease : AdmissionLease Session) (session : Session)
  | settle (lease : AdmissionLease Session) (dropping : Bool)
  | dropLease (lease : AdmissionLease Session)
  | releasePackets (lease : AdmissionLease Session) (after : After)
  | releaseBytes (lease : AdmissionLease Session) (after : After)

/-- What there is beside the gate. -/
inductive Part (Session : Type) where
  | call (call : Call Session)
  | deferred
  | lease (lease : AdmissionLease Session)
  | packet (lease : AdmissionLease Session)
  | dropped (lease : AdmissionLease Session)

variable {Session : Type}

def AdmissionBudget.max (budget : AdmissionBudget) : Counter → UInt64
  | .packets => budget.maxPackets
  | .bytes => budget.maxBytes

def AdmissionGate.reserved (gate : AdmissionGate Session) : Counter → UInt64
  | .packets => gate.reservedPackets
  | .bytes => gate.reservedBytes

def AdmissionLease.count (lease : AdmissionLease Session) : Counter → UInt64
  | .packets => lease.packetCount
  | .bytes => lease.byteCount

def AdmissionLease.back (lease : AdmissionLease Session) : Counter → ℕ
  | .packets => lease.packetsBack
  | .bytes => lease.bytesBack

/-- `compare_exchange` on the state of a lease. -/
def AdmissionLease.compareExchange (lease : AdmissionLease Session) (current new : LeaseState) :
    Option (AdmissionLease Session) :=
  if lease.settled = current then some { lease with settled := new } else none

/-- What one operation of `reserve_counter` comes to. -/
inductive Reservation where
  | again (prev : UInt64)
  | reserved (counter : UInt64)
  | refused

/-- The next operation of `reserve_counter`. -/
def reserveCounter (counter max amount : UInt64) (prev : Option UInt64) (spurious : Bool) : Reservation :=
  if amount = 0 then .reserved counter
  else match prev with
    | none => .again counter
    | some prev =>
      -- checked_add, and the test against the budget
      if prev.toNat + amount.toNat < 2 ^ 64 ∧ prev + amount ≤ max then
        if counter = prev ∧ spurious = false then .reserved (prev + amount) else .again counter
      else .refused

/-- The next operation of a call. -/
def Call.step [DecidableEq Session] (gate : AdmissionGate Session) (spurious : Bool) :
    Call Session → AdmissionGate Session × Part Session
  -- try_reserve
  | .reserveBytes p b prev =>
    match reserveCounter gate.reservedBytes gate.budget.maxBytes b prev spurious with
    | .again prev => (gate, .call (.reserveBytes p b (some prev)))
    | .reserved n => ({ gate with reservedBytes := n }, .call (.reservePackets p b none))
    | .refused => (gate, .deferred)
  | .reservePackets p b prev =>
    match reserveCounter gate.reservedPackets gate.budget.maxPackets p prev spurious with
    | .again prev => (gate, .call (.reservePackets p b (some prev)))
    | .reserved n => ({ gate with reservedPackets := n }, .call (.mint p b))
    | .refused => (gate, .call (.rollBack b))
  | .rollBack b => ({ gate with reservedBytes := gate.reservedBytes - b }, .deferred)
  | .mint p b => ({ gate with nextLeaseId := gate.nextLeaseId + 1 }, .lease
      { leaseId := gate.nextLeaseId, session := gate.session, packetCount := p, byteCount := b })
  -- AdmittedLedgerPacket::new; a lease that is not taken is dropped
  | .consume lease session =>
    if lease.session ≠ session ∨ gate.session ≠ session then (gate, .call (.dropLease lease))
    else match lease.compareExchange .leaseOpen .leaseConsumed with
      | some lease => (gate, .packet lease)
      | none => (gate, .call (.dropLease lease))
  -- settle_consumed, for settle and for the drop of a packet, which drops its lease next
  | .settle lease dropping =>
    match lease.compareExchange .leaseConsumed .leaseReleased with
    | some lease => (gate, .call (.releasePackets lease (if dropping then .dropLease else .settled)))
    | none => (gate, if dropping then .call (.dropLease lease) else .packet lease)
  -- release_if_open
  | .dropLease lease =>
    match lease.compareExchange .leaseOpen .leaseReleased with
    | some lease => (gate, .call (.releasePackets lease .gone))
    | none => (gate, .dropped lease)
  -- release_inner
  | .releasePackets lease after => ({ gate with reservedPackets := gate.reservedPackets - lease.packetCount },
      .call (.releaseBytes { lease with packetsBack := lease.packetsBack + 1 } after))
  | .releaseBytes lease after =>
    let lease' := { lease with bytesBack := lease.bytesBack + 1 }
    ({ gate with reservedBytes := gate.reservedBytes - lease.byteCount },
      match after with
      | .settled => .packet lease'
      | .dropLease => .call (.dropLease lease')
      | .gone => .dropped lease')

/-- What the next operation of a call subtracts from a counter. -/
def Call.subtracts : Call Session → Counter → UInt64
  | .rollBack b, .bytes => b
  | .releasePackets lease _, .packets => lease.packetCount
  | .releaseBytes lease _, .bytes => lease.byteCount
  | _, _ => 0

/-- What may be done with a part: a call on what it holds is started, or its call goes on. -/
inductive Move (Session : Type) where
  | newPacket (session : Session)
  | settle
  | drop
  | advance (spurious : Bool)

def Part.move [DecidableEq Session] (gate : AdmissionGate Session) :
    Part Session → Move Session → Option (AdmissionGate Session × Part Session)
  | .lease l, .newPacket session => some (gate, .call (.consume l session))
  | .lease l, .drop => some (gate, .call (.dropLease l))
  | .packet l, .settle => some (gate, .call (.settle l false))
  | .packet l, .drop => some (gate, .call (.settle l true))
  | .call c, .advance spurious => some (c.step gate spurious)
  | _, _ => none

/-- The gate and everything around it. -/
structure System (Session : Type) where
  gate : AdmissionGate Session
  parts : List (Part Session)

/-- One step of some thread. -/
inductive Action (Session : Type) where
  | tryReserve (packetCount byteCount : UInt64)
  | move (i : ℕ) (move : Move Session)

def System.step [DecidableEq Session] (s : System Session) : Action Session → Option (System Session)
  | .tryReserve p b => some { s with parts := s.parts ++ [.call (.reserveBytes (if p = 0 then 1 else p) b none)] }
  | .move i move => do
    let part ← s.parts[i]?
    let (gate, part) ← part.move s.gate move
    return ⟨gate, s.parts.set i part⟩

def System.run [DecidableEq Session] (s : System Session) : List (Action Session) → Option (System Session)
  | [] => some s
  | a :: as => do (← s.step a).run as

/-- `AdmissionGate::new`, with nothing around it. -/
def System.new (budget : AdmissionBudget) (session : Session) : System Session := ⟨⟨budget, session, 0, 0, 1⟩, []⟩

/-- The lease that a part has. -/
def Part.lease? : Part Session → Option (AdmissionLease Session)
  | .lease l | .packet l | .dropped l | .call (.consume l _) | .call (.settle l _)
  | .call (.dropLease l) | .call (.releasePackets l _) | .call (.releaseBytes l _) => some l
  | _ => none

/-- The leases not yet released. -/
def System.unreleased (s : System Session) : List (AdmissionLease Session) :=
  (s.parts.filterMap Part.lease?).filter (·.settled ≠ .leaseReleased)

/-- No call is in progress. -/
def System.Idle (s : System Session) : Prop := ∀ c, .call c ∉ s.parts

/-! ### What the parts owe -/

/-- A lease in some state, of which so much has been given back. -/
def AdmissionLease.At (lease : AdmissionLease Session) (state : LeaseState) (packets bytes : ℕ) : Prop :=
  lease.settled = state ∧ lease.packetsBack = packets ∧ lease.bytesBack = bytes

/-- A lease is where its state belongs. -/
def Part.Ok : Part Session → Prop
  | .lease l | .call (.consume l _) => l.At .leaseOpen 0 0
  | .packet l | .call (.settle l _) => l.At .leaseConsumed 0 0 ∨ l.At .leaseReleased 1 1
  | .call (.dropLease l) => l.At .leaseOpen 0 0 ∨ l.At .leaseReleased 1 1
  | .call (.releasePackets l _) => l.At .leaseReleased 0 0
  | .call (.releaseBytes l _) => l.At .leaseReleased 1 0
  | .dropped l => l.At .leaseReleased 1 1
  | _ => True

/-- What a lease has not given back to a counter yet. -/
def AdmissionLease.due (lease : AdmissionLease Session) (k : Counter) : ℕ :=
  if lease.back k = 0 then (lease.count k).toNat else 0

/-- What a part still has from a counter. -/
def Part.due (k : Counter) : Part Session → ℕ
  | .call (.reservePackets _ b _) | .call (.rollBack b) => match k with
    | .packets => 0
    | .bytes => b.toNat
  | .call (.mint p b) => match k with
    | .packets => p.toNat
    | .bytes => b.toNat
  | part => (part.lease?.map (·.due k)).getD 0

/-- Every counter is within its budget and is what the parts have from it. -/
structure Accounted (budget : AdmissionBudget) (s : System Session) : Prop where
  same : s.gate.budget = budget
  within : ∀ k, s.gate.reserved k ≤ budget.max k
  sum : ∀ k, (s.gate.reserved k).toNat = (s.parts.map (Part.due k)).sum
  ok : ∀ p ∈ s.parts, p.Ok

/-- A step of one part: the counters move with what the part has from them. -/
structure Balanced (gate gate' : AdmissionGate Session) (part part' : Part Session) : Prop where
  same : gate'.budget = gate.budget
  within : ∀ k, gate'.reserved k ≤ gate.budget.max k
  sum : ∀ k, (gate'.reserved k).toNat + part.due k = (gate.reserved k).toNat + part'.due k
  ok : part'.Ok

theorem reserveCounter_cases (ct max amount : UInt64) (prev : Option UInt64) (su : Bool) :
    (∃ p, reserveCounter ct max amount prev su = .again p) ∨
      reserveCounter ct max amount prev su = .refused ∨
      ∃ n, reserveCounter ct max amount prev su = .reserved n ∧
        n.toNat = ct.toNat + amount.toNat ∧ (ct ≤ max → n ≤ max) := by
  unfold reserveCounter
  split
  · next h0 => exact .inr (.inr ⟨ct, rfl, by simp [h0], id⟩)
  · split
    · exact .inl ⟨_, rfl⟩
    · next prev =>
      split
      · next hf =>
        split
        · next hs =>
          refine .inr (.inr ⟨_, rfl, ?_, fun _ => hf.2⟩)
          rw [UInt64.toNat_add, Nat.mod_eq_of_lt hf.1, hs.1]
        · exact .inl ⟨_, rfl⟩
      · exact .inr (.inl rfl)

section

variable {gate : AdmissionGate Session} {part part' : Part Session} {n : UInt64}
  (hwi : ∀ k, gate.reserved k ≤ gate.budget.max k) (hok : part'.Ok)

include hwi hok

/-- Only the part changes. -/
theorem Balanced.of_part (hd : ∀ k, part'.due k = part.due k) : Balanced gate gate part part' :=
  ⟨rfl, hwi, fun k => by rw [hd k], hok⟩

theorem Balanced.of_packets (hl : n ≤ gate.budget.maxPackets)
    (hs : n.toNat + part.due .packets = gate.reservedPackets.toNat + part'.due .packets)
    (hd : part'.due .bytes = part.due .bytes) : Balanced gate { gate with reservedPackets := n } part part' := by
  refine ⟨rfl, ?_, ?_, hok⟩
  · rintro (_ | _)
    exacts [hl, hwi .bytes]
  · rintro (_ | _)
    exacts [hs, by rw [hd]; rfl]

theorem Balanced.of_bytes (hl : n ≤ gate.budget.maxBytes)
    (hs : n.toNat + part.due .bytes = gate.reservedBytes.toNat + part'.due .bytes)
    (hd : part'.due .packets = part.due .packets) : Balanced gate { gate with reservedBytes := n } part part' := by
  refine ⟨rfl, ?_, ?_, hok⟩
  · rintro (_ | _)
    exacts [hwi .packets, hl]
  · rintro (_ | _)
    exacts [by rw [hd]; rfl, hs]

end

/-- A subtraction of no more than there is. -/
theorem sub_le_and_toNat {a b max : UInt64} (hb : b.toNat ≤ a.toNat) (ha : a ≤ max) :
    a - b ≤ max ∧ (a - b).toNat + b.toNat = a.toNat := by
  have hs := UInt64.toNat_sub_of_le a b (UInt64.le_iff_toNat_le.mpr hb)
  rw [UInt64.le_iff_toNat_le] at ha ⊢
  omega

variable [DecidableEq Session] {gate : AdmissionGate Session}

/-- **One operation of a call**, case by case. -/
theorem Call.balanced (hwi : ∀ k, gate.reserved k ≤ gate.budget.max k) (c : Call Session) (hok : (Part.call c).Ok)
    (hd : ∀ k, (Part.call c).due k ≤ (gate.reserved k).toNat) (su : Bool) :
    Balanced gate (c.step gate su).1 (.call c) (c.step gate su).2 := by
  cases c with
  | reserveBytes p b prev =>
    rcases reserveCounter_cases gate.reservedBytes gate.budget.maxBytes b prev su with
      ⟨_, h⟩ | h | ⟨n, h, hn, hl⟩ <;> simp only [Call.step, h]
    · exact .of_part hwi trivial fun _ => rfl
    · exact .of_part hwi trivial fun _ => rfl
    · exact .of_bytes hwi trivial (hl (hwi .bytes)) hn rfl
  | reservePackets p b prev =>
    rcases reserveCounter_cases gate.reservedPackets gate.budget.maxPackets p prev su with
      ⟨_, h⟩ | h | ⟨n, h, hn, hl⟩ <;> simp only [Call.step, h]
    · exact .of_part hwi trivial fun _ => rfl
    · exact .of_part hwi trivial fun _ => rfl
    · exact .of_packets hwi trivial (hl (hwi .packets)) hn rfl
  | rollBack b =>
    obtain ⟨hl, hs⟩ := sub_le_and_toNat (hd .bytes) (hwi .bytes)
    exact .of_bytes hwi trivial hl hs rfl
  | mint p b => exact ⟨rfl, hwi, fun k => by cases k <;> rfl, rfl, rfl, rfl⟩
  | consume l session =>
    simp only [Call.step, AdmissionLease.compareExchange, if_pos hok.1]
    split
    · exact .of_part hwi (.inl hok) fun _ => rfl
    · exact .of_part hwi (.inl ⟨rfl, hok.2⟩) fun k => by cases k <;> rfl
  | settle l dropping =>
    rcases hok with hok | hok <;> simp only [Call.step, AdmissionLease.compareExchange, hok.1, reduceCtorEq, if_true, if_false]
    · exact .of_part hwi ⟨rfl, hok.2⟩ fun k => by cases k <;> rfl
    · cases dropping with
      | true => exact .of_part hwi (.inr hok) fun _ => rfl
      | false => exact .of_part hwi (.inr hok) fun _ => rfl
  | dropLease l =>
    rcases hok with hok | hok <;> simp only [Call.step, AdmissionLease.compareExchange, hok.1, reduceCtorEq, if_true, if_false]
    · exact .of_part hwi ⟨rfl, hok.2⟩ fun k => by cases k <;> rfl
    · exact .of_part hwi hok fun _ => rfl
  | releasePackets l after =>
    have hp : (Part.call (.releasePackets l after)).due .packets = l.packetCount.toNat := if_pos hok.2.1
    obtain ⟨hl, hs⟩ := sub_le_and_toNat (hp ▸ hd .packets) (hwi .packets)
    refine .of_packets hwi ⟨hok.1, congrArg (· + 1) hok.2.1, hok.2.2⟩ hl ?_ rfl
    rw [hp]
    exact hs
  | releaseBytes l after =>
    have hp : (Part.call (.releaseBytes l after)).due .bytes = l.byteCount.toNat := if_pos hok.2.2
    obtain ⟨hl, hs⟩ := sub_le_and_toNat (hp ▸ hd .bytes) (hwi .bytes)
    have hb : AdmissionLease.At { l with bytesBack := l.bytesBack + 1 } .leaseReleased 1 1 :=
      ⟨hok.1, hok.2.1, congrArg (· + 1) hok.2.2⟩
    cases after with
    | settled => exact .of_bytes hwi (.inr hb) hl (hp ▸ hs) rfl
    | dropLease => exact .of_bytes hwi (.inr hb) hl (hp ▸ hs) rfl
    | gone => exact .of_bytes hwi hb hl (hp ▸ hs) rfl

theorem Part.balanced (hwi : ∀ k, gate.reserved k ≤ gate.budget.max k) {part : Part Session} (hok : part.Ok)
    (hd : ∀ k, part.due k ≤ (gate.reserved k).toNat) {move : Move Session} {r : AdmissionGate Session × Part Session}
    (hm : part.move gate move = some r) : Balanced gate r.1 part r.2 := by
  unfold Part.move at hm
  split at hm <;> cases hm
  · exact .of_part hwi hok fun _ => rfl
  · exact .of_part hwi (.inl hok) fun _ => rfl
  · exact .of_part hwi hok fun _ => rfl
  · exact .of_part hwi hok fun _ => rfl
  · exact Call.balanced hwi _ hok hd _

/-! ### Runs -/

variable {budget : AdmissionBudget} {s s' : System Session}

omit [DecidableEq Session] in
theorem Accounted.due_le {p : Part Session} (hs : Accounted budget s) (hp : p ∈ s.parts) (k : Counter) :
    p.due k ≤ (s.gate.reserved k).toNat := by
  rw [hs.sum k]
  exact single_le_sum (fun _ _ => Nat.zero_le _) _ (mem_map_of_mem hp)

/-- **One step** keeps the accounts. -/
theorem Accounted.step (hs : Accounted budget s) {a : Action Session} (ha : s.step a = some s') :
    Accounted budget s' := by
  cases a with
  | tryReserve p b =>
    cases ha
    refine ⟨hs.same, hs.within, fun k => ?_, fun q hq => ?_⟩
    · rw [hs.sum k, map_append, sum_append]
      rfl
    · rcases mem_append.mp hq with hq | hq
      · exact hs.ok q hq
      · rw [mem_singleton.mp hq]
        trivial
  | move i move =>
    simp only [System.step, bind, Option.bind_eq_some_iff, pure, Option.some.injEq] at ha
    obtain ⟨part, hp, ⟨gate, part'⟩, hm, rfl⟩ := ha
    obtain ⟨hi, rfl⟩ := List.getElem?_eq_some_iff.mp hp
    have he := getElem_mem hi
    have hwi : ∀ k, s.gate.reserved k ≤ s.gate.budget.max k := fun k => hs.same ▸ hs.within k
    have hb := Part.balanced hwi (hs.ok _ he) (hs.due_le he) hm
    refine ⟨hb.same.trans hs.same, fun k => hs.same ▸ hb.within k, fun k => ?_, fun q hq => ?_⟩
    · -- both sums are over the other parts and this one
      have hold := ((getElem_cons_eraseIdx_perm hi).map (Part.due k)).sum_eq
      have hn := ((set_perm_cons_eraseIdx hi part').map (Part.due k)).sum_eq
      have hu := hb.sum k
      have hf := hs.sum k
      simp only [map_cons, sum_cons] at hold hn hu ⊢
      omega
    · rcases mem_or_eq_of_mem_set hq with hq | rfl
      exacts [hs.ok q hq, hb.ok]

/-- **Every run** keeps the accounts. -/
theorem Accounted.run (hs : Accounted budget s) {as : List (Action Session)} (hr : s.run as = some s') :
    Accounted budget s' := by
  induction as generalizing s with
  | nil =>
    cases hr
    exact hs
  | cons a as ih =>
    simp only [System.run, bind, Option.bind_eq_some_iff] at hr
    obtain ⟨t, ht, hr⟩ := hr
    exact ih (hs.step ht) hr

section

omit [DecidableEq Session]

theorem Call.subtracts_le {c : Call Session} (hok : (Part.call c).Ok) (k : Counter) :
    (c.subtracts k).toNat ≤ (Part.call c).due k := by
  unfold Call.subtracts
  split
  · exact Nat.le_refl _
  · exact Nat.le_of_eq (if_pos hok.2.1).symm
  · exact Nat.le_of_eq (if_pos hok.2.2).symm
  · exact Nat.zero_le _

theorem Part.Ok.back_le {p : Part Session} (hp : p.Ok) {l : AdmissionLease Session} (hl : p.lease? = some l)
    (k : Counter) : l.back k ≤ 1 := by
  unfold Part.lease? at hl
  split at hl <;> cases hl <;> cases k <;> simp only [Part.Ok, AdmissionLease.At, AdmissionLease.back] at hp ⊢ <;> omega

/-- Between calls a lease has given back all it had or nothing, by its state. -/
theorem Part.Ok.back_eq {p : Part Session} (hp : p.Ok) (hi : ∀ c, p ≠ .call c) {l : AdmissionLease Session}
    (hl : p.lease? = some l) (k : Counter) : l.back k = if l.settled = .leaseReleased then 1 else 0 := by
  cases p with
  | call c => exact absurd rfl (hi c)
  | deferred => cases hl
  | lease l' => cases hl; cases k <;> simp [AdmissionLease.back, hp.1, hp.2]
  | packet l' => cases hl; rcases hp with hp | hp <;> cases k <;> simp [AdmissionLease.back, hp.1, hp.2]
  | dropped l' => cases hl; cases k <;> simp [AdmissionLease.back, hp.1, hp.2]

/-- Between calls what the parts have is what the unreleased leases count. -/
theorem sum_due_eq {parts : List (Part Session)} (hok : ∀ p ∈ parts, p.Ok) (hi : ∀ c, .call c ∉ parts)
    (k : Counter) : (parts.map (Part.due k)).sum =
      (((parts.filterMap Part.lease?).filter (·.settled ≠ .leaseReleased)).map fun l => (l.count k).toNat).sum := by
  induction parts with
  | nil => rfl
  | cons p parts ih =>
    have hp : ∀ c, p ≠ .call c := fun c hc => hi c (hc ▸ mem_cons_self)
    have ht := ih (fun q hq => hok q (mem_cons_of_mem _ hq)) fun c hc => hi c (mem_cons_of_mem _ hc)
    have hd : p.due k = (p.lease?.map (·.due k)).getD 0 := by
      cases p with
      | call c => exact absurd rfl (hp c)
      | _ => rfl
    rw [map_cons, sum_cons, ht, hd, filterMap_cons]
    cases hl : p.lease? with
    | none => simp
    | some l =>
      have hb := (hok p mem_cons_self).back_eq hp hl k
      by_cases hr : l.settled = .leaseReleased <;> simp [AdmissionLease.due, hb, hr]

end

/-- **The budgets hold along every run**: no counter exceeds its budget, no operation subtracts more than there is, no
lease gives anything back twice, a lease that is gone has given back everything, and between calls the counters are the
sums over the leases not yet released, all others having given back everything. -/
theorem admission_kept (budget : AdmissionBudget) (session : Session) (as : List (Action Session)) {s : System Session}
    (hrun : (System.new budget session).run as = some s) : (∀ k, s.gate.reserved k ≤ budget.max k) ∧
    (∀ c, .call c ∈ s.parts → ∀ k, c.subtracts k ≤ s.gate.reserved k) ∧
    (∀ p ∈ s.parts, ∀ l, p.lease? = some l → ∀ k, l.back k ≤ 1) ∧ (∀ l, .dropped l ∈ s.parts → ∀ k, l.back k = 1) ∧
    (s.Idle → ∀ k, (s.gate.reserved k).toNat = (s.unreleased.map fun l => (l.count k).toNat).sum ∧
      ∀ p ∈ s.parts, ∀ l, p.lease? = some l → l.settled = .leaseReleased → l.back k = 1) := by
  have hn : Accounted budget (System.new budget session) :=
    ⟨rfl, fun k => by cases k <;> exact UInt64.zero_le, fun k => by cases k <;> rfl, fun p hp => absurd hp List.not_mem_nil⟩
  have hs := hn.run hrun
  refine ⟨hs.within, fun c hc k => ?_, fun p hp l hl => (hs.ok p hp).back_le hl, fun l hl k => ?_, fun hi k => ⟨?_, ?_⟩⟩
  · exact UInt64.le_iff_toNat_le.mpr (Nat.le_trans (Call.subtracts_le (hs.ok _ hc) k) (hs.due_le hc k))
  · have hok := hs.ok _ hl
    cases k with
    | packets => exact hok.2.1
    | bytes => exact hok.2.2
  · rw [hs.sum k, sum_due_eq hs.ok hi k]
    rfl
  · intro p hp l hl hr
    rw [(hs.ok p hp).back_eq (fun c hc => hi c (hc ▸ hp)) hl k, if_pos hr]

/-- A reservation that is admitted, made a packet and settled, beside one that finds no packet left. -/
def twoCalls : List (Action Unit) :=
  [.tryReserve 0 5, .tryReserve 1 4] ++ .replicate 5 (.move 0 (.advance false)) ++
    .replicate 3 (.move 1 (.advance false)) ++
    [.move 0 (.newPacket ()), .move 0 (.advance false), .move 0 .settle, .move 0 (.advance false)]

theorem admission_kept_twoCalls : ∃ s : System Unit, (System.new ⟨1, 9⟩ ()).run twoCalls = some s ∧
    s.gate.reserved .bytes = 9 ∧ ∀ k, s.gate.reserved k ≤ (⟨1, 9⟩ : AdmissionBudget).max k := by
  obtain ⟨s, hr, hb⟩ : ∃ s, (System.new ⟨1, 9⟩ ()).run twoCalls = some s ∧ s.gate.reserved .bytes = 9 :=
    ⟨_, rfl, rfl⟩
  exact ⟨s, hr, hb, (admission_kept _ _ _ hr).1⟩

end Xrpld.Acquisition
