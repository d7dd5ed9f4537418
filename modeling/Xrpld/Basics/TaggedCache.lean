import Mathlib

/-!
# The tagged cache

`TaggedCache` over `Arc` pointers (`basics/src/sync/tagged_cache.rs`) keeps for a key a strong reference to
its value, or after a sweep or a deletion only a weak one. `fetch_with` looks a key up under the lock, lets
go of it while the handler loads a missing value, and looks again under the lock before it stores the value.

## The model

The model follows one key. An element of `α` names an allocation; a state has the entry of the key and says
how many `Arc`s of each allocation there are elsewhere, in the hands of threads and in entries of other keys.
Every lock section is one `Step`. What the handler and the other threads do while a call loads is any list of
steps, the sections of other `fetch_with` calls among them. Times are whole nanoseconds.

## What is proved

`fetchWith_returns_iff`: a loaded value is lost exactly when, while it loads, a sweep or a `del` leaves a
weak entry of the key that is still there, and still weak, when the second section begins. `shares_of_run`: as
long as somebody holds the object of a key, nobody is given another one.
-/

namespace Xrpld.TaggedCache

variable {α : Type}

/-! ### Pointers and entries -/

inductive SharedWeak (α : Type) where
  | strong (value : α)
  | weak (value : α)
  | emptyStrong
  deriving DecidableEq

def SharedWeak.strongClone : SharedWeak α → Option α
  | .strong value => some value
  | .weak _ | .emptyStrong => none

def SharedWeak.convertToWeak : SharedWeak α → SharedWeak α
  | .strong value => .weak value
  | p => p

structure ValueEntry (α : Type) where
  ptr : SharedWeak α
  lastAccess : ℤ

/-- The entry of the key in `TaggedCacheState`, and the `Arc`s `held` elsewhere. -/
structure State (α : Type) where
  entry : Option (ValueEntry α)
  held : α → ℕ

/-- There is an entry, and it is not strong. -/
def State.Weak (s : State α) : Prop := ∃ e, s.entry = some e ∧ e.ptr.strongClone = none

/-- A strong entry leaves no room for a weak one. -/
theorem not_weak_of_entry {s : State α} {a : α} {now : ℤ} (h : s.entry = some ⟨.strong a, now⟩) : ¬ s.Weak := by
  rintro ⟨e, he, hw⟩
  rw [h] at he
  cases he
  cases hw

variable [DecidableEq α]

namespace State

variable (s : State α)

def strongCount (a : α) : ℕ := s.held a + if s.entry.map (·.ptr) = some (.strong a) then 1 else 0

def expired : SharedWeak α → Bool
  | .weak value => s.strongCount value = 0
  | .strong _ | .emptyStrong => false

def lock : SharedWeak α → Option α
  | .strong value => some value
  | .weak value => if s.strongCount value = 0 then none else some value
  | .emptyStrong => none

/-- One `Arc` of `a` more outside the entry. -/
def own (a : α) : State α := { s with held := Function.update s.held a (s.held a + 1) }

/-- One `Arc` of `a` is dropped. -/
def release (a : α) : State α := { s with held := Function.update s.held a (s.held a - 1) }

def set (ptr : SharedWeak α) (lastAccess : ℤ) : State α := { s with entry := some ⟨ptr, lastAccess⟩ }

/-! ### The lock sections -/

/-- `initial_fetch`; a `fetch` is nothing more, but for its counters. -/
def initialFetch (now : ℤ) : Option α × State α :=
  match s.entry with
  | none => (none, s)
  | some entry =>
    match entry.ptr.strongClone with
    | some found => (some found, (s.set entry.ptr now).own found)
    | none =>
      match s.lock entry.ptr with
      | some cached => (some cached, (s.set (.strong cached) now).own cached)
      | none => (none, { s with entry := none })

/-- The second lock section of `fetch_with`, which drops `created` or hands it out. -/
def fetchWithSecond (created : α) (now : ℤ) : Option α × State α :=
  match s.entry with
  | some entry =>
    let s' := (s.set entry.ptr now).release created
    (entry.ptr.strongClone, entry.ptr.strongClone.elim s' s'.own)
  | none => (some created, s.set (.strong created) now)

/-- `canonicalize_with`: the result, the caller's pointer and the state after. A strong entry and one that
can be locked differ only in the counters. -/
def canonicalizeWith (data : α) (replaceCallback : Option α → Bool) (now : ℤ) : Bool × α × State α :=
  match s.entry.bind fun entry => s.lock entry.ptr with
  | some cached =>
    if replaceCallback (some cached) then (true, data, s.set (.strong data) now)
    else (true, cached, ((s.set (.strong cached) now).own cached).release data)
  | none => (false, data, s.set (.strong data) now)

def canonicalizeReplaceCache (data : α) (now : ℤ) : Bool × α × State α :=
  s.canonicalizeWith data (fun _ => true) now

def canonicalizeReplaceClient (data : α) (now : ℤ) : Bool × α × State α :=
  s.canonicalizeWith data (fun _ => false) now

def insert (value : α) (now : ℤ) : Bool × State α :=
  let r := (s.own value).canonicalizeReplaceClient value now
  (r.1, r.2.2.release r.2.1)

def del (valid : Bool) : Bool × State α :=
  match s.entry with
  | none => (false, s)
  | some entry =>
    let s' := s.set entry.ptr.convertToWeak entry.lastAccess
    (entry.ptr.strongClone.isSome,
      if !valid || s'.expired entry.ptr.convertToWeak then { s' with entry := none } else s')

/-- What `sweep_value_partition` does with the entry. A removed pointer stays with the sweeping thread until
it has let go of the lock. -/
def sweepValue (whenExpire : ℤ) : State α :=
  match s.entry with
  | none => s
  | some entry =>
    match entry.ptr.strongClone with
    | none => if s.expired entry.ptr then { s with entry := none } else s
    | some a =>
      if entry.lastAccess ≤ whenExpire then
        if s.strongCount a = 1 then { s with entry := none }.own a
        else s.set entry.ptr.convertToWeak entry.lastAccess
      else s

end State

def scaleDuration (duration : ℤ) (numerator denominator : ℕ) : ℤ := (duration * numerator).tdiv denominator

def expirationCutoff (now targetAge : ℤ) (targetSize size : ℕ) : ℤ :=
  if targetSize = 0 ∨ size ≤ targetSize then now - targetAge
  else now - max (scaleDuration targetAge targetSize size) 1000000000

/-- A lock section of any thread, or an `Arc` got or dropped elsewhere. A `fetch` is also the first section
of another `fetch_with`, and a `sweep` finds a cache of the size given. -/
inductive Step (α : Type) where
  | fetch (now : ℤ)
  | fetchWithSecond (created : α) (now : ℤ)
  | insert (value : α) (now : ℤ)
  | canonicalizeReplaceClient (data : α) (now : ℤ)
  | canonicalizeReplaceCache (data : α) (now : ℤ)
  | sweep (now targetAge : ℤ) (targetSize size : ℕ)
  | del (valid : Bool)
  | own (a : α)
  | release (a : α)

def step (s : State α) : Step α → State α
  | .fetch now => (s.initialFetch now).2
  | .fetchWithSecond created now => (s.fetchWithSecond created now).2
  | .insert value now => (s.insert value now).2
  | .canonicalizeReplaceClient data now => (s.canonicalizeReplaceClient data now).2.2
  | .canonicalizeReplaceCache data now => (s.canonicalizeReplaceCache data now).2.2
  | .sweep now targetAge targetSize size => s.sweepValue (expirationCutoff now targetAge targetSize size)
  | .del valid => (s.del valid).2
  | .own a => s.own a
  | .release a => s.release a

/-- `fetch_with`, with what the handler returns and the steps `mid` between the lock sections. -/
def State.fetchWith (s : State α) (handler : Option α) (mid : List (Step α)) (now later : ℤ) : Option α × State α :=
  match s.initialFetch now with
  | (some found, s1) => (some found, s1)
  | (none, s1) => handler.elim (none, mid.foldl step s1) fun created => (mid.foldl step s1).fetchWithSecond created later

/-! ### Which steps leave a weak entry -/

/-- The calls that can make an entry weak and leave it there. -/
def Step.Demotes : Step α → Prop
  | .sweep .. | .del true => True
  | _ => False

open State

variable {s : State α} {now : ℤ}

theorem not_weak_initialFetch : ¬ (s.initialFetch now).2.Weak := by
  unfold initialFetch
  split
  · next hn =>
    rintro ⟨e, he, -⟩
    simp [hn] at he
  · next e _ =>
    split
    · next hc =>
      rintro ⟨e', he, hw⟩
      cases he
      simp [hc] at hw
    · split
      · exact not_weak_of_entry rfl
      · nofun

theorem not_weak_canonicalizeWith {data : α} {replaceCallback : Option α → Bool} :
    ¬ (s.canonicalizeWith data replaceCallback now).2.2.Weak := by
  unfold canonicalizeWith
  split
  · split_ifs
    · exact not_weak_of_entry rfl
    · exact not_weak_of_entry rfl
  · exact not_weak_of_entry rfl

/-- The second section leaves the entry as strong or weak as it was. -/
theorem weak_of_fetchWithSecond {created : α} (hw : (s.fetchWithSecond created now).2.Weak) : s.Weak := by
  unfold fetchWithSecond at hw
  split at hw
  · next e he =>
    refine ⟨e, he, ?_⟩
    cases hc : e.ptr.strongClone with
    | none => rfl
    | some a =>
      obtain ⟨e', he', hn⟩ := hw
      simp only [hc, Option.elim] at he'
      cases he'
      rwa [hc] at hn
  · exact absurd hw (not_weak_of_entry rfl)

/-- **Only a sweep or a `del`** leaves an entry weak that was not. -/
theorem demotes_of_weak_step {d : Step α} (h : ¬ s.Weak) (hw : (step s d).Weak) : d.Demotes := by
  cases d with
  | fetch now => exact absurd hw not_weak_initialFetch
  | fetchWithSecond created now => exact absurd (weak_of_fetchWithSecond hw) h
  | insert value now => exact absurd hw (not_weak_canonicalizeWith (s := s.own value))
  | canonicalizeReplaceClient data now => exact absurd hw not_weak_canonicalizeWith
  | canonicalizeReplaceCache data now => exact absurd hw not_weak_canonicalizeWith
  | sweep now targetAge targetSize size => trivial
  | del valid =>
    cases valid with
    | true => trivial
    | false =>
      obtain ⟨e, he, -⟩ := hw
      simp only [step, del] at he
      split at he <;> simp_all
  | own a => exact absurd hw h
  | release a => exact absurd hw h

/-! ### The call over a whole run -/

/-- A property that a run reaches has a last step that brought it about. -/
theorem exists_lastStep {σ ι : Type} {f : σ → ι → σ} {W : σ → Prop} {s : σ} (l : List ι) (h : ¬ W s)
    (hw : W (l.foldl f s)) : ∃ pre d post, l = pre ++ d :: post ∧ ¬ W (pre.foldl f s) ∧
      ∀ q, q <+: post → W ((pre ++ d :: q).foldl f s) := by
  induction l using List.reverseRecOn with
  | nil => exact absurd hw h
  | append_singleton l d ih =>
    by_cases hl : W (l.foldl f s)
    · obtain ⟨pre, d', post, rfl, hn, hp⟩ := ih hl
      refine ⟨pre, d', post ++ [d], by simp, hn, fun q hq => ?_⟩
      obtain rfl | hq := List.prefix_concat_iff.mp hq
      · simpa using hw
      · exact hp q hq
    · refine ⟨l, d, [], rfl, hl, fun q hq => ?_⟩
      rw [List.prefix_nil.mp hq]
      exact hw

theorem fetchWithSecond_eq_none {created : α} : (s.fetchWithSecond created now).1 = none ↔ s.Weak := by
  unfold fetchWithSecond State.Weak
  split
  · next he => simp [he]
  · next he => simp [he]

/-- **A loaded value is returned**, whatever runs between the two lock sections, exactly when no sweep or
`del` among it leaves the entry weak for the rest of the time. -/
theorem fetchWith_returns_iff (s : State α) (created : α) (mid : List (Step α)) (now later : ℤ)
    (h : (s.initialFetch now).1 = none) :
    (s.fetchWith (some created) mid now later).1 ≠ none ↔
      ∀ pre d post, mid = pre ++ d :: post → d.Demotes →
        ∃ q, q <+: post ∧ ¬ ((pre ++ d :: q).foldl step (s.initialFetch now).2).Weak := by
  have hf : (s.fetchWith (some created) mid now later).1 =
      ((mid.foldl step (s.initialFetch now).2).fetchWithSecond created later).1 := by
    unfold State.fetchWith
    split
    · next hi => simp [hi] at h
    · next hi => simp [hi]
  rw [hf, Ne, fetchWithSecond_eq_none]
  constructor
  · rintro hw pre d post rfl -
    exact ⟨post, List.prefix_rfl, hw⟩
  · intro hc hw
    obtain ⟨pre, d, post, rfl, hn, hp⟩ := exists_lastStep mid not_weak_initialFetch hw
    have hd : (step (pre.foldl step (s.initialFetch now).2) d).Weak := by
      simpa using hp [] List.nil_prefix
    obtain ⟨q, hq, hnw⟩ := hc pre d post rfl (demotes_of_weak_step hn hd)
    exact hnw (hp q hq)

/-- No entry, and an `Arc` of the allocation `8` that a handler has made. -/
def fresh : State ℕ := ⟨none, fun a => if a = 8 then 1 else 0⟩

/-- Another thread stores a value of its own and keeps it. -/
def stores : List (Step ℕ) := [.own 7, .canonicalizeReplaceClient 7 0]

/-- After a `del` the value is returned if a `fetch` comes in between. -/
theorem fetchWith_returns_fetched : (fresh.initialFetch 0).1 = none ∧
    ∃ q : List (Step ℕ), q <+: [.fetch 0] ∧ ¬ ((stores ++ .del true :: q).foldl step (fresh.initialFetch 0).2).Weak :=
  ⟨rfl, (fetchWith_returns_iff fresh 8 _ 0 0 rfl).mp (by decide +kernel) stores (.del true) [.fetch 0] rfl trivial⟩

/-- **The value is lost** after a `del(key, true)`. -/
theorem fetchWith_loses : (fresh.initialFetch 0).1 = none ∧
    (fresh.fetchWith (some 8) (stores ++ [.del true]) 0 0).1 = none := by
  decide +kernel

/-! ### One object per key -/

variable {a : α} {d : Step α}

/-- The entry of the key is for an object, strong or weak, that is held elsewhere too. -/
def State.Shares (s : State α) (a : α) : Prop :=
  0 < s.held a ∧ s.entry.map (·.ptr.convertToWeak) = some (.weak a)

/-- The calls that may put another object in its place. -/
def Step.Replaces : Step α → Prop
  | .canonicalizeReplaceCache .. | .del false => True
  | _ => False

namespace State.Shares

variable (h : s.Shares a)

include h

theorem strongCount_ne : s.strongCount a ≠ 0 := by
  have := h.1
  unfold strongCount
  omega

theorem initialFetch_eq : s.initialFetch now = (some a, (s.set (.strong a) now).own a) := by
  obtain ⟨⟨ptr, last⟩, he, hw⟩ := Option.map_eq_some_iff.mp h.2
  cases ptr <;> cases hw <;> simp [initialFetch, he, SharedWeak.strongClone, lock, h.strongCount_ne]

theorem canonicalize_eq (data : α) :
    s.canonicalizeReplaceClient data now = (true, a, ((s.set (.strong a) now).own a).release data) := by
  obtain ⟨⟨ptr, last⟩, he, hw⟩ := Option.map_eq_some_iff.mp h.2
  cases ptr <;> cases hw <;> simp [canonicalizeReplaceClient, canonicalizeWith, he, lock, h.strongCount_ne]

/-- **A step** keeps the entry for the object, unless it may put another one there. -/
theorem step (hd : ¬ d.Replaces) (hh : 0 < (step s d).held a) : (step s d).Shares a := by
  refine ⟨hh, ?_⟩
  obtain ⟨⟨ptr, last⟩, he, hw⟩ := Option.map_eq_some_iff.mp h.2
  cases d with
  | fetch t =>
    rw [TaggedCache.step, h.initialFetch_eq]
    rfl
  | fetchWithSecond v t =>
    rw [← h.2, TaggedCache.step, fetchWithSecond, he]
    cases ptr <;> rfl
  | insert v t =>
    have ho : (s.own v).Shares a := by
      refine ⟨?_, h.2⟩
      have := h.1
      simp only [own, Function.update_apply]
      split <;> omega
    rw [TaggedCache.step, State.insert, ho.canonicalize_eq]
    rfl
  | canonicalizeReplaceClient v t =>
    rw [TaggedCache.step, h.canonicalize_eq]
    rfl
  | sweep t g n m =>
    rw [TaggedCache.step, sweepValue, he]
    cases ptr <;> cases hw
    · -- the entry is not the only owner, so it becomes weak at most
      have h1 : s.strongCount a ≠ 1 := by simp [strongCount, he, h.1.ne']
      simp only [SharedWeak.strongClone, h1, if_false]
      split
      · rfl
      · exact h.2
    · simpa [SharedWeak.strongClone, expired, h.strongCount_ne] using h.2
  | del v =>
    cases v with
    | false => exact absurd trivial hd
    | true =>
      have hn : (s.set (.weak a) last).strongCount a ≠ 0 := strongCount_ne ⟨h.1, rfl⟩
      simp only [TaggedCache.step, del, he, hw, expired, hn]
      rfl
  | canonicalizeReplaceCache v t => exact absurd trivial hd
  | own v => exact h.2
  | release v => exact h.2

end State.Shares

/-- **One object per key.** Whatever the threads do: as long as the object of the key is held somewhere, and nobody
replaces it or deletes the key for good, a call that gets an object gets this one. -/
theorem shares_of_run (h : s.Shares a) (run : List (Step α)) (hheld : ∀ q, q <+: run → 0 < (q.foldl step s).held a)
    (hrun : ∀ d ∈ run, ¬ d.Replaces) (now : ℤ) (b : α) : ((run.foldl step s).initialFetch now).1 = some a ∧
      ((run.foldl step s).canonicalizeReplaceClient b now).2.1 = a ∧
      ∀ c, ((run.foldl step s).fetchWithSecond b now).1 = some c → c = a := by
  have hr : (run.foldl step s).Shares a := by
    induction run using List.reverseRecOn with
    | nil => exact h
    | append_singleton run d ih =>
      rw [List.foldl_append]
      refine (ih (fun q hq => hheld q (hq.trans (List.prefix_append _ _))) fun d hd => hrun d ?_).step (hrun d ?_) ?_
      · exact List.mem_append_left _ hd
      · exact List.mem_append_right _ List.mem_cons_self
      · simpa using hheld _ List.prefix_rfl
  refine ⟨by rw [hr.initialFetch_eq], by rw [hr.canonicalize_eq], fun c hc => ?_⟩
  obtain ⟨⟨ptr, last⟩, he, hw⟩ := Option.map_eq_some_iff.mp hr.2
  rw [fetchWithSecond, he] at hc
  cases ptr <;> cases hw <;> cases hc
  rfl

/-- The value of the other thread is found after a `del` and a sweep. -/
theorem shares_of_run_stores : (stores.foldl step fresh).Shares 7 ∧
    (([.del true, .sweep 0 0 0 0].foldl step (stores.foldl step fresh)).initialFetch 0).1 = some 7 := by
  have h : (stores.foldl step fresh).Shares 7 := ⟨by decide, rfl⟩
  have hh : ∀ q ∈ [.del true, .sweep 0 0 0 0].inits, 0 < (q.foldl step (stores.foldl step fresh)).held 7 := by decide
  exact ⟨h, (shares_of_run h _ (fun q hq => hh q ((List.mem_inits _ _).mpr hq)) (by simp [Step.Replaces]) 0 8).1⟩

end Xrpld.TaggedCache
