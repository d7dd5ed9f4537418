import Mathlib

/-!
# Programs with a state, errors and panics

A small language of programs for code that changes a state in place. A program run
from a state panics, or it ends in a new state with a value or with an error; the
changes made before an error stay, as they do in code that returns early.

`wp p Q E F s` says what must hold of `s` for `p` to end well: in `Q` when it returns a
value, in `E` when it returns an error, in `F` when it panics; `⊥` rules an outcome out,
and `⊤` asks nothing of it. The rules below take a program apart one statement at a
time, so that a proof about a function uses what is known of the functions it calls
(`wp_mono`) and never their bodies.
-/

namespace Xrpld

/-- A program over the state `σ`: it panics with a `φ`, or it ends in a state with a
value of `α` or an error of `ε`. -/
def Prog (φ σ ε α : Type) : Type := σ → Except φ (Except ε α × σ)

namespace Prog

variable {φ σ ε ε' α β : Type}

/-- Run a program. -/
def run (p : Prog φ σ ε α) (s : σ) : Except φ (Except ε α × σ) := p s

instance : Monad (Prog φ σ ε) where
  pure a := fun s => .ok (.ok a, s)
  bind p f := fun s =>
    match p s with
    | .error e => .error e
    | .ok (.ok a, s') => f a s'
    | .ok (.error e, s') => .ok (.error e, s')

theorem pure_bind_eq (a : α) (f : α → Prog φ σ ε β) : Pure.pure a >>= f = f a := rfl

theorem bind_assoc_eq {γ : Type} (p : Prog φ σ ε α) (f : α → Prog φ σ ε β) (g : β → Prog φ σ ε γ) :
    p >>= f >>= g = p >>= fun a => f a >>= g := by
  funext s
  simp only [bind]
  rcases p s with f | ⟨e | a, s'⟩ <;> rfl

/-- Return an error. -/
def fail (e : ε) : Prog φ σ ε α := fun s => .ok (.error e, s)

/-- Panic. -/
def abort (f : φ) : Prog φ σ ε α := fun _ => .error f

/-- The state. -/
def read : Prog φ σ ε σ := fun s => .ok (.ok s, s)

/-- Change the state. -/
def update (f : σ → σ) : Prog φ σ ε Unit := fun s => .ok (.ok (), f s)

/-- A computation that may panic and changes nothing. -/
def lift (x : Except φ α) : Prog φ σ ε α := fun s => x.map fun a => (.ok a, s)

/-- Give the errors of a program another type: `map_err`. -/
def mapErr (g : ε → ε') (p : Prog φ σ ε α) : Prog φ σ ε' α := fun s =>
  match p s with
  | .error f => .error f
  | .ok (.ok a, s') => .ok (.ok a, s')
  | .ok (.error e, s') => .ok (.error (g e), s')

/-- The outcome of a program as a value. -/
def attempt (p : Prog φ σ ε α) : Prog φ σ ε' (Except ε α) := fun s =>
  match p s with
  | .error f => .error f
  | .ok (r, s') => .ok (.ok r, s')

/-- Run a program on a part of the state. -/
def zoom {τ : Type} (part : σ → τ) (put : τ → σ → σ) (p : Prog φ τ ε α) : Prog φ σ ε α := fun s =>
  match p (part s) with
  | .error f => .error f
  | .ok (r, t) => .ok (r, put t s)

/-- Stop with a panic unless a condition holds: `assert!`. -/
def check (c : Bool) (f : φ) : Prog φ σ ε Unit := if c then pure () else abort f

/-- Run a program if a condition holds. -/
def when (c : Bool) (p : Prog φ σ ε Unit) : Prog φ σ ε Unit := if c then p else pure ()

/-- Run a program on a value if there is one: `if let Some(..)`. -/
def whenSome (x : Option α) (f : α → Prog φ σ ε Unit) : Prog φ σ ε Unit :=
  match x with
  | none => pure ()
  | some a => f a

/-- What must hold of a state for the program to end well from it. -/
def wp (p : Prog φ σ ε α) (Q : α → σ → Prop) (E : ε → σ → Prop) (F : φ → Prop) (s : σ) : Prop :=
  match p s with
  | .error f => F f
  | .ok (.ok a, s') => Q a s'
  | .ok (.error e, s') => E e s'

variable {Q Q' : α → σ → Prop} {E E' : ε → σ → Prop} {F F' : φ → Prop} {s s' : σ}

@[simp] theorem wp_pure (a : α) : wp (pure a : Prog φ σ ε α) Q E F s ↔ Q a s := Iff.rfl

@[simp] theorem wp_fail (e : ε) : wp (fail e : Prog φ σ ε α) Q E F s ↔ E e s := Iff.rfl

@[simp] theorem wp_abort (f : φ) : wp (abort f : Prog φ σ ε α) Q E F s ↔ F f := Iff.rfl

@[simp] theorem wp_read {Q : σ → σ → Prop} : wp (read : Prog φ σ ε σ) Q E F s ↔ Q s s := Iff.rfl

@[simp] theorem wp_update {Q : Unit → σ → Prop} (f : σ → σ) :
    wp (update f : Prog φ σ ε Unit) Q E F s ↔ Q () (f s) := Iff.rfl

@[simp] theorem wp_bind {Q : β → σ → Prop} (p : Prog φ σ ε α) (f : α → Prog φ σ ε β) :
    wp (p >>= f) Q E F s ↔ wp p (fun a s' => wp (f a) Q E F s') E F s := by
  simp only [wp, bind]
  rcases p s with f | ⟨e | a, s'⟩ <;> rfl

@[simp] theorem wp_mapErr {E : ε' → σ → Prop} (g : ε → ε') (p : Prog φ σ ε α) :
    wp (mapErr g p) Q E F s ↔ wp p Q (fun e => E (g e)) F s := by
  simp only [wp, mapErr]
  rcases p s with f | ⟨e | a, s'⟩ <;> rfl

@[simp] theorem wp_attempt {Q : Except ε α → σ → Prop} {E : ε' → σ → Prop} (p : Prog φ σ ε α) :
    wp (attempt p) Q E F s ↔ wp p (fun a => Q (.ok a)) (fun e => Q (.error e)) F s := by
  simp only [wp, attempt]
  rcases p s with f | ⟨e | a, s'⟩ <;> rfl

@[simp] theorem wp_zoom {τ : Type} (part : σ → τ) (put : τ → σ → σ) (p : Prog φ τ ε α) :
    wp (zoom part put p) Q E F s ↔ wp p (fun a t => Q a (put t s)) (fun e t => E e (put t s)) F (part s) := by
  simp only [wp, zoom]
  rcases p (part s) with f | ⟨e | a, t⟩ <;> rfl

@[simp] theorem wp_lift_ok (a : α) : wp (lift (.ok a) : Prog φ σ ε α) Q E F s ↔ Q a s := Iff.rfl

@[simp] theorem wp_lift_error (f : φ) : wp (lift (.error f) : Prog φ σ ε α) Q E F s ↔ F f := Iff.rfl

theorem wp_lift (x : Except φ α) :
    wp (lift x : Prog φ σ ε α) Q E F s ↔ (∀ a, x = .ok a → Q a s) ∧ ∀ f, x = .error f → F f := by
  cases x <;> simp

@[simp] theorem wp_check {Q : Unit → σ → Prop} (c : Bool) (f : φ) :
    wp (check c f : Prog φ σ ε Unit) Q E F s ↔ (c → Q () s) ∧ (c = false → F f) := by
  cases c <;> simp [check]

theorem wp_ite (c : Prop) [Decidable c] (p q : Prog φ σ ε α) :
    wp (if c then p else q) Q E F s ↔ (c → wp p Q E F s) ∧ (¬ c → wp q Q E F s) := by
  by_cases h : c <;> simp [h]

theorem wp_when {Q : Unit → σ → Prop} (c : Bool) (p : Prog φ σ ε Unit) :
    wp (when c p) Q E F s ↔ (c → wp p Q E F s) ∧ (c = false → Q () s) := by
  cases c <;> simp [when]

@[simp] theorem wp_whenSome_none {Q : Unit → σ → Prop} (f : α → Prog φ σ ε Unit) :
    wp (whenSome none f) Q E F s ↔ Q () s := Iff.rfl

@[simp] theorem wp_whenSome_some {Q : Unit → σ → Prop} (a : α) (f : α → Prog φ σ ε Unit) :
    wp (whenSome (some a) f) Q E F s ↔ wp (f a) Q E F s := Iff.rfl

variable {p : Prog φ σ ε α}

/-- Consequence: what is known of a program gives what is wanted of it. -/
theorem wp_mono (h : wp p Q E F s) (hQ : ∀ a s', Q a s' → Q' a s')
    (hE : ∀ e s', E e s' → E' e s') (hF : ∀ f, F f → F' f) : wp p Q' E' F' s := by
  simp only [wp] at h ⊢
  generalize p s = r at h ⊢
  obtain f | ⟨e | a, s'⟩ := r
  · exact hF f h
  · exact hE e s' h
  · exact hQ a s' h

theorem wp_imp (h : wp p Q E F s) (hQ : ∀ a s', Q a s' → Q' a s') : wp p Q' E F s :=
  wp_mono h hQ (fun _ _ h => h) fun _ h => h

theorem wp_noError (h : wp p Q ⊥ F s) (hQ : ∀ a s', Q a s' → Q' a s') : wp p Q' E F s :=
  wp_mono h hQ (fun _ _ h => h.elim) fun _ h => h

theorem wp_total (h : wp p Q ⊥ ⊥ s) (hQ : ∀ a s', Q a s' → Q' a s') : wp p Q' E F s :=
  wp_mono h hQ (fun _ _ h => h.elim) fun _ h => h.elim

/-- Two facts about one run. -/
theorem wp_and (h : wp p Q E F s) (h' : wp p Q' E' F' s) :
    wp p (fun a s' => Q a s' ∧ Q' a s') (fun e s' => E e s' ∧ E' e s') (fun f => F f ∧ F' f) s := by
  simp only [wp] at h h' ⊢
  generalize p s = r at h h' ⊢
  obtain f | ⟨e | a, s'⟩ := r <;> exact ⟨h, h'⟩

/-- A program with neither errors nor panics returns. -/
theorem returns_of_wp (h : wp p Q ⊥ ⊥ s) : ∃ a s', p s = .ok (.ok a, s') ∧ Q a s' := by
  simp only [wp] at h
  generalize p s = r at h ⊢
  obtain f | ⟨e | a, s'⟩ := r
  · exact h.elim
  · exact h.elim
  · exact ⟨a, s', rfl, h⟩

variable {a : α}

/-- A program that always returns one value and changes nothing. -/
theorem eq_pure_of_wp (h : ∀ s, wp p (fun b s' => b = a ∧ s' = s) ⊥ ⊥ s) : p = pure a := by
  funext s
  obtain ⟨b, s', hp, rfl, rfl⟩ := returns_of_wp (h s)
  exact hp

/-- A program that does not panic returns or fails. -/
theorem ends_of_wp (h : wp p Q E ⊥ s) :
    ∃ r s', p s = .ok (r, s') ∧ (∀ e, r = .error e → E e s') ∧ ∀ a, r = .ok a → Q a s' := by
  simp only [wp] at h
  generalize p s = r at h ⊢
  obtain f | ⟨e | a, s'⟩ := r
  · exact h.elim
  · exact ⟨.error e, s', rfl, fun _ he => Except.error.inj he ▸ h, fun _ ha => nomatch ha⟩
  · exact ⟨.ok a, s', rfl, fun _ he => (nomatch he), fun _ ha => Except.ok.inj ha ▸ h⟩

/-- A program that neither returns nor panics fails. -/
theorem fails_of_wp (h : wp p ⊥ E ⊥ s) : ∃ e s', p s = .ok (.error e, s') ∧ E e s' := by
  simp only [wp] at h
  generalize p s = r at h ⊢
  obtain f | ⟨e | a, s'⟩ := r
  · exact h.elim
  · exact ⟨e, s', rfl, h⟩
  · exact h.elim

/-- What is known of a run is that it was made. -/
theorem wp_run (p : Prog φ σ ε α) :
    wp p (fun a s' => p s = .ok (.ok a, s')) (fun e s' => p s = .ok (.error e, s')) (fun f => p s = .error f) s := by
  simp only [wp]
  rcases p s with f | ⟨e | a, s'⟩ <;> rfl

/-- A program returns `a` in the state `s'`. -/
theorem wp_of_run (h : p s = .ok (.ok a, s')) (hQ : Q a s') : wp p Q E F s := by
  simp only [wp, h]
  exact hQ

theorem wp_true (p : Prog φ σ ε α) : wp p ⊤ ⊤ ⊤ s :=
  wp_mono (wp_run p) (fun _ _ _ => trivial) (fun _ _ _ => trivial) fun _ _ => trivial

/-- What a run that returned says of its precondition. -/
theorem post_of_run {r : Except ε α} (hp : wp p Q E F s) (h : p s = .ok (r, s')) :
    match r with
    | .ok a => Q a s'
    | .error e => E e s' := by
  simp only [wp, h] at hp
  cases r <;> exact hp

/-! ### Loops over a list -/

/-- Run a program for each element of a list. -/
def forEach (f : α → Prog φ σ ε Unit) : List α → Prog φ σ ε Unit
  | [] => pure ()
  | a :: as => do
    f a
    forEach f as

variable {f : α → Prog φ σ ε Unit} {as : List α}

/-- **The rule of a loop**: what holds before and is kept for each element holds after. -/
theorem wp_forEach (I : σ → Prop) (hI : I s) (hf : ∀ a ∈ as, ∀ s, I s → wp (f a) (fun _ s' => I s') E F s) : wp
    (forEach f as) (fun _ s' => I s') E F s := by
  induction as generalizing s with
  | nil => exact hI
  | cons a as ih =>
    rw [forEach, wp_bind]
    refine wp_mono (hf a List.mem_cons_self s hI) (fun _ s' h => ?_) (fun _ _ h => h) fun _ h => h
    exact ih h fun b hb => hf b (List.mem_cons_of_mem _ hb)

/-- The last turn of a loop. -/
theorem wp_forEach_concat {Q : Unit → σ → Prop} :
    wp (forEach f (as ++ [a])) Q E F s ↔ wp (forEach f as) (fun _ s' => wp (f a) Q E F s') E F s := by
  induction as generalizing s with
  | nil => exact wp_bind (f a) fun _ => pure ()
  | cons b as ih => simp only [List.cons_append, forEach, wp_bind, ih]

/-- A loop that returned made its last turn. -/
theorem forEach_concat_ok (h : forEach f (as ++ [a]) s = .ok (.ok (), s')) :
    ∃ s1, forEach f as s = .ok (.ok (), s1) ∧ f a s1 = .ok (.ok (), s') := by
  have hw : wp (forEach f (as ++ [a])) (fun _ t => t = s') ⊥ ⊥ s := wp_of_run h rfl
  rw [wp_forEach_concat] at hw
  obtain ⟨⟨⟩, s1, h1, hl⟩ := returns_of_wp hw
  obtain ⟨⟨⟩, _, h2, rfl⟩ := returns_of_wp hl
  exact ⟨s1, h1, h2⟩

/-! ### Loops with a condition -/

/-- Run a program as long as a condition holds: `while`. It stops when it has not ended after so many turns. -/
def whileLoop (stuck : φ) (c : α → Bool) (f : α → Prog φ σ ε α) : ℕ → α → Prog φ σ ε α
  | 0, a => if c a then abort stuck else pure a
  | fuel + 1, a =>
    if c a then do
      let a ← f a
      whileLoop stuck c f fuel a
    else pure a

/-- **The rule of a loop with a condition.** The invariant may speak of the number of turns; whoever shows that it leaves
no turn to make shows that the loop ends. -/
theorem wp_whileLoop {stuck : φ} {c : α → Bool} {f : α → Prog φ σ ε α} {fuel : ℕ} (I : ℕ → α → σ → Prop)
    (h : I 0 a s) (hp : ∀ j a s, I j a s → c a → wp (f a) (fun a' s' => I (j + 1) a' s') E F s)
    (hs : ∀ a s, I fuel a s → c a → F stuck) :
    wp (whileLoop stuck c f fuel a) (fun a' s' => c a' = false ∧ ∃ j, I j a' s') E F s := by
  induction fuel generalizing I a s with
  | zero =>
    rw [whileLoop, wp_ite]
    exact ⟨hs a s h, fun hc => ⟨Bool.not_eq_true _ ▸ hc, 0, h⟩⟩
  | succ fuel ih =>
    rw [whileLoop, wp_ite]
    refine ⟨fun hc => ?_, fun hc => ⟨Bool.not_eq_true _ ▸ hc, 0, h⟩⟩
    rw [wp_bind]
    refine wp_mono (hp 0 a s h hc) (fun a' s' h' => ?_) (fun _ _ h => h) fun _ h => h
    refine wp_mono (ih (fun j => I (j + 1)) h' (fun j => hp (j + 1)) hs) (fun a'' s'' he => ?_)
      (fun _ _ h => h) fun _ h => h
    obtain ⟨hc', j, hj⟩ := he
    exact ⟨hc', j + 1, hj⟩

/-! ### Programs without errors -/

/-- The program returns no error from any state (it may stop with a panic). -/
def NeverFails (p : Prog φ σ ε α) : Prop := ∀ s, wp p (fun _ _ => True) (fun _ _ => False) (fun _ => True) s

variable {f : α → Prog φ σ ε β}

namespace NeverFails

theorem wp (hp : NeverFails p) : Prog.wp p ⊤ E ⊤ s :=
  wp_mono (hp s) (fun _ _ h => h) (fun _ _ h => h.elim) fun _ h => h

theorem pure (a : α) : NeverFails (Pure.pure a : Prog φ σ ε α) := fun _ => trivial

theorem abort (f : φ) : NeverFails (Prog.abort f : Prog φ σ ε α) := fun _ => trivial

theorem read : NeverFails (Prog.read : Prog φ σ ε σ) := fun _ => trivial

theorem update (f : σ → σ) : NeverFails (Prog.update f : Prog φ σ ε Unit) := fun _ => trivial

theorem lift (x : Except φ α) : NeverFails (Prog.lift x : Prog φ σ ε α) := fun _ => by
  cases x <;> trivial

theorem zoom {τ : Type} {part : σ → τ} {put : τ → σ → σ} {p : Prog φ τ ε α} (hp : NeverFails p) :
    NeverFails (Prog.zoom part put p) := fun s => (wp_zoom part put p).mpr (hp (part s))

theorem bind (hp : NeverFails p) (hf : ∀ a, NeverFails (f a)) : NeverFails (p >>= f) := by
  intro s
  rw [wp_bind]
  exact wp_mono (hp s) (fun a s' _ => hf a s') (fun _ _ h => h) fun _ h => h

theorem ite {c : Prop} [Decidable c] {p q : Prog φ σ ε α} (hp : NeverFails p) (hq : NeverFails q) :
    NeverFails (if c then p else q) := by
  split
  · exact hp
  · exact hq

end NeverFails

/-! ### Programs that keep a part of the state -/

/-- If the program returns, a part of the state is as it was. -/
def Keeps {τ : Type} (part : σ → τ) (p : Prog φ σ ε α) : Prop := ∀ s, wp p (fun _ s' => part s' = part s) ⊤ ⊤ s

namespace Keeps

variable {τ : Type} {part : σ → τ}

theorem pure (a : α) : Keeps part (Pure.pure a : Prog φ σ ε α) := fun _ => rfl

theorem read : Keeps part (Prog.read : Prog φ σ ε σ) := fun _ => rfl

theorem update {f : σ → σ} (h : ∀ s, part (f s) = part s) : Keeps part (Prog.update f : Prog φ σ ε Unit) := h

theorem lift (x : Except φ α) : Keeps part (Prog.lift x : Prog φ σ ε α) := fun _ => by
  cases x <;> trivial

theorem bind (hp : Keeps part p) (hf : ∀ a, Keeps part (f a)) : Keeps part (p >>= f) := by
  intro s
  rw [wp_bind]
  exact wp_imp (hp s) fun a s' h => wp_imp (hf a s') fun _ _ h' => h'.trans h

theorem when {c : Bool} {p : Prog φ σ ε Unit} (hp : Keeps part p) : Keeps part (Prog.when c p) := by
  cases c
  · exact pure ()
  · exact hp

theorem whenSome {x : Option α} {f : α → Prog φ σ ε Unit} (hf : ∀ a, Keeps part (f a)) : Keeps part (Prog.whenSome x f) := by
  cases x with
  | none => exact pure ()
  | some a => exact hf a

theorem forEach {f : α → Prog φ σ ε Unit} (hf : ∀ a, Keeps part (f a)) (as : List α) : Keeps part (Prog.forEach f as) := by
  induction as with
  | nil => exact pure ()
  | cons a as ih => exact (hf a).bind fun _ => ih

end Keeps

/-! ### Programs that move along a relation -/

/-- If the program ends, with a value or an error, it has moved along `R`; and a value it returns has the property. -/
def Along (R : σ → σ → Prop) (p : Prog φ σ ε α) (Q : α → σ → Prop) (s : σ) : Prop :=
  wp p (fun a s' => R s s' ∧ Q a s') (fun _ s' => R s s') (fun _ => True) s

namespace Along

variable {R : σ → σ → Prop}

theorem pure (hs : R s s) (hQ : Q a s) : Along R (Pure.pure a : Prog φ σ ε α) Q s := ⟨hs, hQ⟩

theorem fail (hs : R s s) (e : ε) : Along R (Prog.fail e : Prog φ σ ε α) Q s := hs

/-- One program after another. -/
theorem bind {Q' : β → σ → Prop} (ht : ∀ s1 s2 s3, R s1 s2 → R s2 s3 → R s1 s3) (hp : Along R p Q s)
    (hf : ∀ a s', R s s' → Q a s' → Along R (f a) Q' s') : Along R (p >>= f) Q' s := by
  rw [Along, wp_bind]
  refine wp_mono hp (fun a s' h => ?_) (fun _ _ h => h) fun _ h => h
  exact wp_mono (hf a s' h.1 h.2) (fun b s'' h' => ⟨ht _ _ _ h.1 h'.1, h'.2⟩)
    (fun _ s'' h' => ht _ _ _ h.1 h') fun _ h' => h'

theorem mono (hp : Along R p Q s) (hQ : ∀ a s', R s s' → Q a s' → Q' a s') : Along R p Q' s :=
  wp_mono hp (fun a s' h => ⟨h.1, hQ a s' h.1 h.2⟩) (fun _ _ h => h) fun _ h => h

theorem mapErr {g : ε → ε'} (hp : Along R p Q s) : Along R (Prog.mapErr g p) Q s := by
  rw [Along, wp_mapErr]
  exact hp

end Along

/-! ### Programs that only read -/

/-- The program changes neither state and ends in both in the same way; a value it returns has the property. -/
def Alike (p : Prog φ σ ε α) (Q : α → Prop) (s s' : σ) : Prop :=
  ∃ x : Except φ (Except ε α), p s = x.map (·, s) ∧ p s' = x.map (·, s') ∧ ∀ a, x = .ok (.ok a) → Q a

namespace Alike

variable {Q : α → Prop}

theorem pure (hQ : Q a) : Alike (Pure.pure a : Prog φ σ ε α) Q s s' :=
  ⟨.ok (.ok a), rfl, rfl, fun b hb => by cases hb; exact hQ⟩

theorem fail (e : ε) : Alike (Prog.fail e : Prog φ σ ε α) Q s s' := ⟨.ok (.error e), rfl, rfl, fun b hb => by cases hb⟩

theorem abort (f : φ) : Alike (Prog.abort f : Prog φ σ ε α) Q s s' := ⟨.error f, rfl, rfl, fun b hb => by cases hb⟩

theorem lift {x : Except φ α} (hQ : ∀ a, x = .ok a → Q a) : Alike (Prog.lift x : Prog φ σ ε α) Q s s' := by
  cases x with
  | error f => exact abort f
  | ok a => exact pure (hQ a rfl)

theorem bind {Q' : β → Prop} (hp : Alike p Q s s') (hf : ∀ a, Q a → Alike (f a) Q' s s') : Alike (p >>= f) Q' s s' := by
  obtain ⟨x, hx, hx', hQ⟩ := hp
  rcases x with e | (e | a)
  · refine ⟨.error e, ?_, ?_, fun b hb => by cases hb⟩
    · simp only [Bind.bind, hx, Except.map]
    · simp only [Bind.bind, hx', Except.map]
  · refine ⟨.ok (.error e), ?_, ?_, fun b hb => by cases hb⟩
    · simp only [Bind.bind, hx, Except.map]
    · simp only [Bind.bind, hx', Except.map]
  · obtain ⟨y, hy, hy', hQ'⟩ := hf a (hQ a rfl)
    refine ⟨y, ?_, ?_, hQ'⟩
    · rw [← hy]
      simp only [Bind.bind, hx, Except.map]
    · rw [← hy']
      simp only [Bind.bind, hx', Except.map]

/-- What the program returns is the same. -/
theorem map_fst_eq (hp : Alike p Q s s') : (p s').map Prod.fst = (p s).map Prod.fst := by
  obtain ⟨x, hx, hx', -⟩ := hp
  rw [hx, hx']
  rcases x with e | x <;> rfl

/-- What is known of the program in one state. -/
theorem wp (hp : Alike p Q s s') : Prog.wp p (fun a t => t = s ∧ Q a) (fun _ t => t = s) ⊤ s := by
  obtain ⟨x, hx, -, hQ⟩ := hp
  rcases x with e | (e | a) <;> simp only [Prog.wp, hx, Except.map]
  · trivial
  · exact ⟨trivial, hQ a rfl⟩

end Alike

end Prog

export Prog (wp wp_pure wp_fail wp_abort wp_read wp_update wp_bind wp_mapErr wp_attempt wp_zoom wp_lift_ok
  wp_lift_error wp_lift wp_check wp_ite wp_when wp_mono wp_imp wp_noError wp_total wp_and wp_of_run wp_true wp_forEach wp_whileLoop
  returns_of_wp post_of_run abort whileLoop forEach whenSome pure_bind_eq wp_whenSome_some wp_whenSome_none)

end Xrpld
