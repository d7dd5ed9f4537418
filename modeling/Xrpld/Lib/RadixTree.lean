import Mathlib

/-!
# Radix trees

Trees that keep values under keys read digit by digit: at depth `d` a value sits below
the branch of digit `d` of its key. A tree is *canonical* when every inner node but the
root has at least two values below it, so that no branch is longer than it must be.

`canon_ext` is why this matters: a canonical tree is determined by the values it holds,
so whatever is computed from the tree is a function of its contents, however it was
built. `put` and `erase` keep a tree canonical (`canon_put`, `canon_erase`) and change its
contents as a map's are changed (`mem_put`, `mem_erase`).
-/

namespace Xrpld

open Function (update update_self update_of_ne update_idem)

/-- How keys are read: digit by digit, `depth` digits determining a key. -/
structure Radix (ι κ α : Type) where
  digit : κ → ℕ → ι
  key : α → κ
  depth : ℕ
  ext : ∀ x y, (∀ i < depth, digit x i = digit y i) → x = y

/-- A tree with a branch for every digit. -/
inductive Tree (ι α : Type) where
  | empty
  | leaf (a : α)
  | inner (child : ι → Tree ι α)

namespace Tree

variable {ι κ α : Type}

/-- A value held by a tree. -/
def Mem (a : α) : Tree ι α → Prop
  | empty => False
  | leaf b => b = a
  | inner child => ∃ i, Mem a (child i)

/-- Whether a tree is empty. -/
def isEmpty : Tree ι α → Bool
  | empty => true
  | leaf _ => false
  | inner _ => false

variable {t : Tree ι α}

@[simp] theorem isEmpty_iff : t.isEmpty ↔ t = empty := by
  cases t <;> simp [isEmpty]

instance : Membership α (Tree ι α) := ⟨fun t a => Mem a t⟩

@[simp] theorem not_mem_empty (a : α) : ¬ a ∈ (empty : Tree ι α) := fun h => h

@[simp] theorem mem_leaf {a b : α} : a ∈ (leaf b : Tree ι α) ↔ b = a := Iff.rfl

variable {a : α}

@[simp] theorem mem_inner {ch : ι → Tree ι α} : a ∈ inner ch ↔ ∃ i, a ∈ ch i := Iff.rfl

variable (R : Radix ι κ α)

/-- At depth `d` values sit below their own digits. -/
def Placed : ℕ → Tree ι α → Prop
  | _, empty => True
  | _, leaf _ => True
  | d, inner child => ∀ i, Placed (d + 1) (child i) ∧ ∀ a ∈ child i, R.digit (R.key a) d = i

/-- **Canonical** at depth `d`: values sit below their own digits, and an inner node has two. -/
def Canon : ℕ → Tree ι α → Prop
  | _, empty => True
  | _, leaf _ => True
  | d, inner child =>
    (∀ i, Canon (d + 1) (child i) ∧ ∀ a ∈ child i, R.digit (R.key a) d = i) ∧
      ∃ a ∈ inner child, ∃ b ∈ inner child, a ≠ b

/-- The children of a canonical inner node at depth `d`, and of the root. -/
def Children (d : ℕ) (child : ι → Tree ι α) : Prop :=
  ∀ i, Canon R (d + 1) (child i) ∧ ∀ a ∈ child i, R.digit (R.key a) d = i

/-- The values of a tree at depth `d` agree with a key on the digits above. -/
def Under (k : κ) (d : ℕ) (t : Tree ι α) : Prop := ∀ a ∈ t, ∀ i < d, R.digit (R.key a) i = R.digit k i

/-- Every inner node has a digit to read. -/
def Bounded : ℕ → Tree ι α → Prop
  | _, empty => True
  | _, leaf _ => True
  | d, inner child => d < R.depth ∧ ∀ i, Bounded (d + 1) (child i)

omit R in
/-- No inner node is without a branch. -/
def Filled : Tree ι α → Prop
  | empty => True
  | leaf _ => True
  | inner child => (∃ i, child i ≠ empty) ∧ ∀ i, Filled (child i)

omit R in
/-- A tree right below the root of another. -/
def IsChild (u t : Tree ι α) : Prop := ∃ child i, t = inner child ∧ u = child i

omit R in
theorem isChild_wf : WellFounded (IsChild : Tree ι α → Tree ι α → Prop) := by
  refine ⟨fun t => ?_⟩
  induction t with
  | empty => exact ⟨_, fun _ ⟨_, _, h, _⟩ => nomatch h⟩
  | leaf a => exact ⟨_, fun _ ⟨_, _, h, _⟩ => nomatch h⟩
  | inner ch ih =>
    refine ⟨_, fun u ⟨ch', i, h, hu⟩ => ?_⟩
    cases h
    exact hu ▸ ih i

omit R in
/-- A tree with branches everywhere has a value. -/
theorem Filled.exists_mem (h : Filled t) (ht : t ≠ empty) : ∃ a, a ∈ t := by
  induction t with
  | empty => exact absurd rfl ht
  | leaf a => exact ⟨a, rfl⟩
  | inner ch ih =>
    obtain ⟨⟨i, hi⟩, hl⟩ := h
    obtain ⟨a, ha⟩ := ih i (hl i) hi
    exact ⟨a, i, ha⟩

omit R in
theorem Filled.part {t u : Tree ι α} (h : Filled t) (hu : Relation.ReflTransGen IsChild u t) : Filled u := by
  induction hu using Relation.ReflTransGen.head_induction_on with
  | refl => exact h
  | head hc _ ih =>
    obtain ⟨ch, i, rfl, rfl⟩ := hc
    exact ih.2 i

/-- The value where the digits of a key lead, whatever its own key is. -/
def follow (k : κ) : Tree ι α → ℕ → Option α
  | empty, _ => none
  | leaf b, _ => some b
  | inner child, d => follow k (child (R.digit k d)) (d + 1)

/-- The value of a key. -/
def lookup [DecidableEq κ] (k : κ) : Tree ι α → ℕ → Option α
  | empty, _ => none
  | leaf b, _ => if R.key b = k then some b else none
  | inner child, d => lookup k (child (R.digit k d)) (d + 1)

variable {R}

variable {d : ℕ}

theorem Canon.children {ch : ι → Tree ι α} (h : Canon R d (inner ch)) : Children R d ch := h.1

theorem Under.child {k : κ} {ch : ι → Tree ι α} (hu : Under R k d (inner ch))
    (hc : Children R d ch) : Under R k (d + 1) (ch (R.digit k d)) := by
  intro a ha i hi
  rcases Nat.lt_succ_iff_lt_or_eq.mp hi with hl | rfl
  · exact hu a ⟨_, ha⟩ i hl
  · exact (hc _).2 a ha

theorem under_zero (k : κ) (t : Tree ι α) : Under R k 0 t := fun _ _ _ h => absurd h (Nat.not_lt_zero _)

/-- A canonical tree that is not empty holds a value. -/
theorem exists_mem (h : Canon R d t) (ht : t ≠ empty) : ∃ a, a ∈ t := by
  cases t with
  | empty => exact absurd rfl ht
  | leaf a => exact ⟨a, rfl⟩
  | inner ch =>
    obtain ⟨-, a, ha, -⟩ := h
    exact ⟨a, ha⟩

/-- A canonical tree has its values in place. -/
theorem Canon.placed (h : Canon R d t) : Placed R d t := by
  induction t generalizing d with
  | empty => trivial
  | leaf a => trivial
  | inner ch ih => exact fun i => ⟨ih i (h.1 i).1, (h.1 i).2⟩

theorem Children.placed {ch : ι → Tree ι α} (h : Children R d ch) : Placed R d (inner ch) :=
  fun i => ⟨(h i).1.placed, (h i).2⟩

/-- A tree with its values in place holds one value for a key at most. -/
theorem mem_unique (h : Placed R d t) {a b : α} (ha : a ∈ t) (hb : b ∈ t) (hk : R.key a = R.key b) : a = b := by
  induction t generalizing d with
  | empty => exact absurd ha (not_mem_empty a)
  | leaf c => exact ha.symm.trans hb
  | inner ch ih =>
    obtain ⟨i, hi⟩ := ha
    obtain ⟨j, hj⟩ := hb
    have hij : i = j := by rw [← (h i).2 a hi, ← (h j).2 b hj, hk]
    subst hij
    exact ih i (h i).1 hi hj

/-- What `lookup` finds. -/
theorem lookup_eq_some [DecidableEq κ] (h : Placed R d t) {k : κ} : lookup R k t d = some a ↔ a ∈ t ∧ R.key a = k := by
  induction t generalizing d with
  | empty => simp [lookup]
  | leaf b =>
    simp only [lookup, mem_leaf]
    constructor
    · intro hl
      split at hl
      · cases hl
        exact ⟨rfl, ‹_›⟩
      · cases hl
    · rintro ⟨rfl, hk⟩
      exact if_pos hk
  | inner ch ih =>
    simp only [lookup, ih _ (h _).1, mem_inner]
    constructor
    · rintro ⟨ha, hk⟩
      exact ⟨⟨_, ha⟩, hk⟩
    · rintro ⟨⟨i, ha⟩, rfl⟩
      rw [(h i).2 a ha]
      exact ⟨ha, rfl⟩

/-- The value where the digits of a key lead is a value of the tree. -/
theorem mem_of_follow {k : κ} (h : follow R k t d = some a) : a ∈ t := by
  induction t generalizing d with
  | empty => cases h
  | leaf b => exact Option.some.inj h
  | inner ch ih => exact ⟨_, ih _ h⟩

/-- The value of a key is the one where its digits lead, if that has the key. -/
theorem lookup_eq_follow [DecidableEq κ] (k : κ) (t : Tree ι α) (d : ℕ) :
    lookup R k t d = (follow R k t d).filter fun a => R.key a = k := by
  induction t generalizing d with
  | empty => rfl
  | leaf b => simp [lookup, follow, Option.filter]
  | inner ch ih => exact ih _ (d + 1)

variable {i : ι}

/-- The values below one branch are those of the tree with that digit. -/
theorem Children.mem_child_iff {ch : ι → Tree ι α} (h : Children R d ch) :
    a ∈ ch i ↔ a ∈ inner ch ∧ R.digit (R.key a) d = i := by
  constructor
  · exact fun ha => ⟨⟨i, ha⟩, (h i).2 a ha⟩
  · rintro ⟨⟨j, ha⟩, hi⟩
    have hj : j = i := by rw [← (h j).2 a ha, hi]
    exact hj ▸ ha

/-- **A canonical tree is determined by what it holds.** -/
theorem canon_ext {t u : Tree ι α} (ht : Canon R d t) (hu : Canon R d u) (h : ∀ a, a ∈ t ↔ a ∈ u) : t = u := by
  induction t generalizing d u with
  | empty =>
    by_contra hn
    obtain ⟨a, ha⟩ := exists_mem hu (Ne.symm hn)
    exact (h a).mpr ha
  | leaf a =>
    have ha : a ∈ u := (h a).mp rfl
    cases u with
    | empty => exact absurd ha (not_mem_empty a)
    | leaf b => rw [mem_leaf.mp ha]
    | inner ch =>
      obtain ⟨-, x, hx, y, hy, hxy⟩ := hu
      exact absurd (((h x).mpr hx).symm.trans ((h y).mpr hy)) hxy
  | inner ch ih =>
    obtain ⟨hc, x, hx, y, hy, hxy⟩ := ht
    cases u with
    | empty => exact absurd ((h x).mp hx) (not_mem_empty x)
    | leaf b => exact absurd (((h x).mp hx).symm.trans ((h y).mp hy)) hxy
    | inner ch' =>
      have hh : ch = ch' := funext fun i => ih i (hc i).1 (hu.1 i).1 fun a => by
        rw [Children.mem_child_iff hc, Children.mem_child_iff hu.children, h a]
      rw [hh]

theorem Children.ext {ch ch' : ι → Tree ι α} (hc : Children R d ch)
    (hc' : Children R d ch') (h : ∀ a, a ∈ inner ch ↔ a ∈ inner ch') : ch = ch' :=
  funext fun i => canon_ext (hc i).1 (hc' i).1 fun a => by rw [hc.mem_child_iff, hc'.mem_child_iff, h a]

/-! ### Putting a value -/

variable [DecidableEq ι]

/-- One branch only. -/
def single (i : ι) (t : Tree ι α) : ι → Tree ι α := update (fun _ => empty) i t

theorem mem_update {ch : ι → Tree ι α} : a ∈ inner (update ch i t) ↔ a ∈ t ∨ ∃ j, j ≠ i ∧ a ∈ ch j := by
  constructor
  · rintro ⟨j, hj⟩
    by_cases hi : j = i
    · subst hi
      exact .inl (by rwa [update_self] at hj)
    · exact .inr ⟨j, hi, by rwa [update_of_ne hi] at hj⟩
  · rintro (ha | ⟨j, hi, ha⟩)
    · exact ⟨i, by rwa [update_self]⟩
    · exact ⟨j, by rwa [update_of_ne hi]⟩

@[simp] theorem mem_single : a ∈ inner (single i t) ↔ a ∈ t := by
  rw [single, mem_update]
  simp

/-- Replacing one child by a canonical tree with the right digit. -/
theorem Children.update {ch : ι → Tree ι α} (h : Children R d ch)
    (ht : Canon R (d + 1) t) (hd : ∀ a ∈ t, R.digit (R.key a) d = i) : Children R d (update ch i t) := by
  intro j
  by_cases hj : j = i
  · subst hj
    rw [update_self]
    exact ⟨ht, hd⟩
  · rw [update_of_ne hj]
    exact h j

section

omit [DecidableEq ι]

theorem Canon.filled (ht : Canon R d t) : Filled t := by
  induction t generalizing d with
  | empty => trivial
  | leaf a => trivial
  | inner ch ih =>
    obtain ⟨hc, a, ⟨i, ha⟩, -⟩ := ht
    refine ⟨⟨i, fun he => ?_⟩, fun i => ih i (hc i).1⟩
    rw [he] at ha
    exact not_mem_empty a ha

theorem Children.filled {ch : ι → Tree ι α} (h : Children R d ch) (hn : ∃ i, ch i ≠ empty) :
    Filled (inner ch) := ⟨hn, fun i => (h i).1.filled⟩

theorem children_empty (d : ℕ) : Children R d fun _ => empty :=
  fun _ => ⟨trivial, fun a h => absurd h (not_mem_empty a)⟩

end

theorem children_single (ht : Canon R (d + 1) t)
    (hd : ∀ a ∈ t, R.digit (R.key a) d = i) : Children R d (single i t) := (children_empty d).update ht hd

variable (R)

/-- The tree of two values, at depth `d` with `n` digits to go. -/
def split (a b : α) : ℕ → ℕ → Tree ι α
  | 0, _ => empty
  | n + 1, d =>
    if R.digit (R.key a) d = R.digit (R.key b) d then
      inner (single (R.digit (R.key a) d) (split a b n (d + 1)))
    else
      inner (update (single (R.digit (R.key a) d) (leaf a)) (R.digit (R.key b) d) (leaf b))

/-- Put a value into a tree at depth `d`, in place of the one with its key. -/
def put [DecidableEq κ] (a : α) : Tree ι α → ℕ → Tree ι α
  | empty, _ => leaf a
  | leaf b, d => if R.key b = R.key a then leaf a else split R a b (R.depth - d) d
  | inner child, d =>
    inner (update child (R.digit (R.key a) d) (put a (child (R.digit (R.key a) d)) (d + 1)))

/-- Put the tree `u` in place of what is `n` digits of a key further down from depth `d`. -/
def graft (k : κ) (u : Tree ι α) : ℕ → Tree ι α → ℕ → Tree ι α
  | 0, _, _ => u
  | _ + 1, empty, _ => empty
  | _ + 1, leaf a, _ => leaf a
  | n + 1, inner child, d =>
    inner (update child (R.digit k d) (graft k u n (child (R.digit k d)) (d + 1)))

variable {R}

/-- Grafting one digit below a graft. -/
theorem graft_succ (k : κ) (u : Tree ι α) (ch : ι → Tree ι α) (n : ℕ) (t : Tree ι α) (d : ℕ) :
    graft R k u (n + 1) (graft R k (inner ch) n t d) d = graft R k (inner (update ch (R.digit k (d + n)) u)) n t d := by
  induction n generalizing t d with
  | zero => simp [graft]
  | succ n ih =>
    cases t with
    | empty => rfl
    | leaf a => rfl
    | inner gr =>
      rw [graft, graft, graft, update_self, update_idem, ih, Nat.add_assoc, Nat.add_comm 1 n]

omit [DecidableEq ι] in
/-- Two keys that agree on the first `d` digits and are different differ further on. -/
theorem exists_digit_ne {x y : κ} (h : x ≠ y) (hd : ∀ i < d, R.digit x i = R.digit y i) :
    ∃ i, d ≤ i ∧ i < R.depth ∧ R.digit x i ≠ R.digit y i := by
  by_contra hn
  push Not at hn
  refine h (R.ext x y fun i hi => ?_)
  rcases Nat.lt_or_ge i d with hl | hg
  · exact hd i hl
  · exact hn i hg hi

/-- The tree of two values holds them, and it is canonical. -/
theorem split_spec {a b : α} {n d : ℕ} (h : ∃ i, d ≤ i ∧ i < d + n ∧ R.digit (R.key a) i ≠ R.digit (R.key b) i) :
    Canon R d (split R a b n d) ∧ ∀ x, x ∈ split R a b n d ↔ x = a ∨ x = b := by
  have ha : a ≠ b := by
    rintro rfl
    obtain ⟨i, -, -, hi⟩ := h
    exact hi rfl
  induction n generalizing d with
  | zero =>
    omega
  | succ n ih =>
    by_cases hd : R.digit (R.key a) d = R.digit (R.key b) d
    · obtain ⟨i, h1, h2, h3⟩ := h
      have hid : i ≠ d := fun e => h3 (e ▸ hd)
      obtain ⟨hc, hm⟩ := ih (d := d + 1) ⟨i, by omega, by omega, h3⟩
      have he : ∀ x, x ∈ inner (single (R.digit (R.key a) d) (split R a b n (d + 1))) ↔ x = a ∨ x = b :=
        fun x => mem_single.trans (hm x)
      simp only [split, if_pos hd]
      refine ⟨⟨children_single hc fun x hx => ?_, a, (he a).mpr (.inl rfl), b, (he b).mpr (.inr rfl), ha⟩, he⟩
      rcases (hm x).mp hx with rfl | rfl
      · rfl
      · exact hd.symm
    · have he : ∀ x, x ∈ inner (update (single (R.digit (R.key a) d) (leaf a)) (R.digit (R.key b) d)
          (leaf b)) ↔ x = a ∨ x = b := by
        intro x
        rw [mem_update]
        constructor
        · rintro (hx | ⟨j, -, hx⟩)
          · exact .inr hx.symm
          · exact .inl (mem_single.mp ⟨j, hx⟩ : a = x).symm
        · rintro (rfl | rfl)
          · exact .inr ⟨_, hd, by rw [single, update_self]; rfl⟩
          · exact .inl rfl
      simp only [split, if_neg hd]
      refine ⟨⟨(children_single (t := leaf a) trivial fun x hx => ?_).update (t := leaf b) trivial fun x hx => ?_, a,
        (he a).mpr (.inl rfl), b, (he b).mpr (.inr rfl), ha⟩, he⟩
      · rw [mem_leaf.mp hx]
      · rw [mem_leaf.mp hx]

omit [DecidableEq ι] in
/-- Two different values are still there after a third is put. -/
theorem two_put {ch ch' : ι → Tree ι α} (hc : Canon R d (inner ch))
    (hm : ∀ x, x ∈ inner ch' ↔ x = a ∨ x ∈ inner ch ∧ R.key x ≠ R.key a) :
    ∃ x ∈ inner ch', ∃ y ∈ inner ch', x ≠ y := by
  obtain ⟨-, x, hx, y, hy, hxy⟩ := id hc
  by_cases hxa : R.key x = R.key a
  · have ha : R.key y ≠ R.key a := fun e => hxy (mem_unique hc.placed hx hy (hxa.trans e.symm))
    exact ⟨a, (hm a).mpr (.inl rfl), y, (hm y).mpr (.inr ⟨hy, ha⟩), fun e => ha (by rw [e])⟩
  · by_cases ha : R.key y = R.key a
    · exact ⟨a, (hm a).mpr (.inl rfl), x, (hm x).mpr (.inr ⟨hx, hxa⟩), fun e => hxa (by rw [e])⟩
    · exact ⟨x, (hm x).mpr (.inr ⟨hx, hxa⟩), y, (hm y).mpr (.inr ⟨hy, ha⟩), hxy⟩

section Put

variable [DecidableEq κ] {a : α}

omit [DecidableEq κ] in
/-- What a tree holds once a child has had a value put into it. -/
theorem mem_put_child {ch : ι → Tree ι α} (hc : Children R d ch)
    (ht : ∀ x, x ∈ t ↔ x = a ∨ x ∈ ch (R.digit (R.key a) d) ∧ R.key x ≠ R.key a) (x : α) :
    x ∈ inner (update ch (R.digit (R.key a) d) t) ↔ x = a ∨ x ∈ inner ch ∧ R.key x ≠ R.key a := by
  rw [mem_update, ht]
  constructor
  · rintro ((rfl | ⟨hx, hk⟩) | ⟨j, hj, hx⟩)
    · exact .inl rfl
    · exact .inr ⟨⟨_, hx⟩, hk⟩
    · exact .inr ⟨⟨j, hx⟩, fun e => hj (by rw [← (hc j).2 x hx, e])⟩
  · rintro (rfl | ⟨⟨j, hx⟩, hk⟩)
    · exact .inl (.inl rfl)
    · by_cases hj : j = R.digit (R.key a) d
      · exact .inl (.inr ⟨hj ▸ hx, hk⟩)
      · exact .inr ⟨j, hj, hx⟩

/-- **Putting a value** keeps a tree canonical and changes what it holds as a map is changed. -/
theorem put_spec (hc : Canon R d t) (hu : Under R (R.key a) d t) (hd : d ≤ R.depth) :
    Canon R d (put R a t d) ∧ ∀ x, x ∈ put R a t d ↔ x = a ∨ x ∈ t ∧ R.key x ≠ R.key a := by
  induction t generalizing d with
  | empty =>
    refine ⟨trivial, fun x => ⟨fun hx => .inl hx.symm, ?_⟩⟩
    rintro (rfl | ⟨hx, -⟩)
    · rfl
    · exact absurd hx (not_mem_empty x)
  | leaf b =>
    by_cases hk : R.key b = R.key a
    · simp only [put, if_pos hk]
      refine ⟨trivial, fun x => ⟨fun hx => .inl hx.symm, ?_⟩⟩
      rintro (rfl | ⟨rfl, hx⟩)
      · rfl
      · exact absurd hk hx
    · simp only [put, if_neg hk]
      obtain ⟨i, h1, h2, h3⟩ := exists_digit_ne (Ne.symm hk) (d := d) fun i hi => (hu b rfl i hi).symm
      obtain ⟨hs, hm⟩ := split_spec (R := R) (a := a) (b := b) (n := R.depth - d) (d := d) ⟨i, h1, by omega, h3⟩
      refine ⟨hs, fun x => (hm x).trans ⟨?_, ?_⟩⟩
      · rintro (rfl | rfl)
        · exact .inl rfl
        · exact .inr ⟨rfl, hk⟩
      · rintro (rfl | ⟨rfl, -⟩)
        · exact .inl rfl
        · exact .inr rfl
  | inner ch ih =>
    have hl : d < R.depth := by
      -- two different values below agree on `d` digits, so there is one more
      obtain ⟨-, x, hx, y, hy, hxy⟩ := id hc
      obtain ⟨i, h1, h2, -⟩ := exists_digit_ne (R := R) (fun e => hxy (mem_unique hc.placed hx hy e)) (d := d)
        fun i hi => (hu x hx i hi).trans (hu y hy i hi).symm
      omega
    obtain ⟨hp, hm⟩ := ih (R.digit (R.key a) d) (hc.1 _).1 (hu.child hc.children) hl
    have he := mem_put_child hc.children hm
    refine ⟨⟨hc.children.update hp fun x hx => ?_, two_put hc he⟩, he⟩
    rcases (hm x).mp hx with rfl | ⟨hx, -⟩
    · rfl
    · exact (hc.1 _).2 x hx

/-- The same at the root. -/
theorem put_root_spec {ch : ι → Tree ι α} (hc : Children R 0 ch) (hd : 0 < R.depth) :
    (∃ ch', put R a (inner ch) 0 = inner ch' ∧ Children R 0 ch') ∧
      ∀ x, x ∈ put R a (inner ch) 0 ↔ x = a ∨ x ∈ inner ch ∧ R.key x ≠ R.key a := by
  obtain ⟨hp, hm⟩ := put_spec (hc _).1 (Under.child (under_zero (R.key a) (inner ch)) hc) hd
  refine ⟨⟨_, rfl, hc.update hp fun x hx => ?_⟩, mem_put_child hc hm⟩
  rcases (hm x).mp hx with rfl | ⟨hx, -⟩
  · rfl
  · exact (hc _).2 x hx

end Put

omit [DecidableEq ι] in
/-- A canonical tree whose values agree on the digits above it has a digit to read at every inner node. -/
theorem Canon.bounded (hc : Canon R d t)
    (hu : ∀ a ∈ t, ∀ b ∈ t, ∀ i < d, R.digit (R.key a) i = R.digit (R.key b) i) : Bounded R d t := by
  induction t generalizing d with
  | empty => trivial
  | leaf a => trivial
  | inner ch ih =>
    refine ⟨?_, fun i => ih i (hc.1 i).1 fun a ha b hb j hj => ?_⟩
    · obtain ⟨-, x, hx, y, hy, hxy⟩ := id hc
      obtain ⟨i, h1, h2, -⟩ := exists_digit_ne (R := R) (fun e => hxy (mem_unique hc.placed hx hy e)) (hu x hx y hy)
      omega
    · rcases Nat.lt_succ_iff_lt_or_eq.mp hj with hl | rfl
      · exact hu a ⟨i, ha⟩ b ⟨i, hb⟩ j hl
      · exact ((hc.1 i).2 a ha).trans ((hc.1 i).2 b hb).symm

omit [DecidableEq ι] in
theorem Children.bounded {ch : ι → Tree ι α} (hc : Children R 0 ch) (hd : 0 < R.depth) : Bounded R 0 (inner ch) := by
  refine ⟨hd, fun i => (hc i).1.bounded fun a ha b hb j hj => ?_⟩
  obtain rfl : j = 0 := Nat.lt_one_iff.mp hj
  exact ((hc i).2 a ha).trans ((hc i).2 b hb).symm

/-! ### Taking a value out -/

open Classical in
/-- The canonical form of an inner node that may have lost values: nothing, the one value left, or itself. -/
noncomputable def collapse (child : ι → Tree ι α) : Tree ι α :=
  if ∀ i, child i = empty then empty
  else if h : ∃ a, ∃ i, child = single i (leaf a) then leaf h.choose
  else inner child

theorem collapse_empty {ch : ι → Tree ι α} (h : ∀ i, ch i = empty) : collapse ch = empty := if_pos h

theorem single_ne_empty (i : ι) (a : α) : ¬ ∀ j, single i (leaf a) j = empty := fun h => by
  have := h i
  rw [single, update_self] at this
  cases this

theorem collapse_single (i : ι) (a : α) : collapse (single i (leaf a)) = leaf a := by
  have h : ∃ b, ∃ j, single i (leaf a) = single j (leaf b) := ⟨a, i, rfl⟩
  have hb : h.choose = a := by
    obtain ⟨j, hj⟩ := h.choose_spec
    have ha : a ∈ inner (single j (leaf h.choose)) := hj ▸ mem_single.mpr rfl
    exact mem_single.mp ha
  rw [collapse, if_neg (single_ne_empty i a), dif_pos h, hb]

theorem collapse_inner {ch : ι → Tree ι α} (h0 : ¬ ∀ i, ch i = empty)
    (h1 : ∀ a i, ch ≠ single i (leaf a)) : collapse ch = inner ch := by
  rw [collapse, if_neg h0, dif_neg]
  rintro ⟨a, i, h⟩
  exact h1 a i h

/-- A node above an inner node stays. -/
theorem collapse_of_inner {ch gr : ι → Tree ι α} (hi : ch i = inner gr) : collapse ch = inner ch := by
  refine collapse_inner (fun he => ?_) fun a j hj => ?_
  · rw [he i] at hi
    cases hi
  · rw [hj, single] at hi
    by_cases hij : i = j
    · rw [hij, update_self] at hi
      cases hi
    · rw [update_of_ne hij] at hi
      cases hi

/-- A node whose children are canonical has two values, or it collapses. -/
theorem two_of_not_single {ch : ι → Tree ι α} (hc : Children R d ch)
    (h0 : ¬ ∀ i, ch i = empty) (h1 : ∀ a i, ch ≠ single i (leaf a)) :
    ∃ x ∈ inner ch, ∃ y ∈ inner ch, x ≠ y := by
  push Not at h0
  obtain ⟨i, hi⟩ := h0
  by_cases hj : ∃ j, j ≠ i ∧ ch j ≠ empty
  · obtain ⟨j, hji, hj⟩ := hj
    obtain ⟨x, hx⟩ := exists_mem (hc i).1 hi
    obtain ⟨y, hy⟩ := exists_mem (hc j).1 hj
    refine ⟨x, ⟨i, hx⟩, y, ⟨j, hy⟩, fun e => hji ?_⟩
    rw [← (hc i).2 x hx, ← (hc j).2 y hy, e]
  · push Not at hj
    have ho : ch = single i (ch i) := by
      funext j
      by_cases hji : j = i
      · rw [hji, single, update_self]
      · rw [hj j hji, single, update_of_ne hji]
    cases ht : ch i with
    | empty => exact absurd ht hi
    | leaf a => exact absurd (ht ▸ ho) (h1 a i)
    | inner gr =>
      obtain ⟨-, x, hx, y, hy, hxy⟩ := ht ▸ (hc i).1
      exact ⟨x, ⟨i, ht ▸ hx⟩, y, ⟨i, ht ▸ hy⟩, hxy⟩

theorem collapse_spec {ch : ι → Tree ι α} (hc : Children R d ch) :
    Canon R d (collapse ch) ∧ ∀ x, x ∈ collapse ch ↔ x ∈ inner ch := by
  by_cases h0 : ∀ i, ch i = empty
  · rw [collapse_empty h0]
    refine ⟨trivial, fun x => ⟨fun h => absurd h (not_mem_empty x), ?_⟩⟩
    rintro ⟨i, hi⟩
    rw [h0 i] at hi
    exact hi
  · by_cases h1 : ∃ a i, ch = single i (leaf a)
    · obtain ⟨a, i, rfl⟩ := h1
      rw [collapse_single]
      exact ⟨trivial, fun x => mem_single.symm⟩
    · push Not at h1
      rw [collapse_inner h0 h1]
      exact ⟨⟨hc, two_of_not_single hc h0 h1⟩, fun _ => Iff.rfl⟩

variable (R)

/-- Take the value of a key out of a tree at depth `d`. -/
noncomputable def erase [DecidableEq κ] (k : κ) : Tree ι α → ℕ → Tree ι α
  | empty, _ => empty
  | leaf b, _ => if R.key b = k then empty else leaf b
  | inner child, d => collapse (update child (R.digit k d) (erase k (child (R.digit k d)) (d + 1)))

/-- The same at the root, which stays. -/
noncomputable def eraseRoot [DecidableEq κ] (k : κ) (child : ι → Tree ι α) : ι → Tree ι α :=
  update child (R.digit k 0) (erase R k (child (R.digit k 0)) 1)

variable {R}

section Erase

variable [DecidableEq κ] {k : κ}

omit [DecidableEq κ] in
theorem mem_erase_child {ch : ι → Tree ι α} (hc : Children R d ch)
    (ht : ∀ x, x ∈ t ↔ x ∈ ch (R.digit k d) ∧ R.key x ≠ k) (x : α) :
    x ∈ inner (update ch (R.digit k d) t) ↔ x ∈ inner ch ∧ R.key x ≠ k := by
  rw [mem_update, ht]
  constructor
  · rintro (⟨hx, hk⟩ | ⟨j, hj, hx⟩)
    · exact ⟨⟨_, hx⟩, hk⟩
    · exact ⟨⟨j, hx⟩, fun e => hj (by rw [← (hc j).2 x hx, e])⟩
  · rintro ⟨⟨j, hx⟩, hk⟩
    by_cases hj : j = R.digit k d
    · exact .inl ⟨hj ▸ hx, hk⟩
    · exact .inr ⟨j, hj, hx⟩

/-- **Taking a value out** keeps a tree canonical and changes what it holds as a map is changed. -/
theorem erase_spec (hc : Canon R d t) : Canon R d (erase R k t d) ∧ ∀ x, x ∈ erase R k t d ↔ x ∈ t ∧ R.key x ≠ k := by
  induction t generalizing d with
  | empty => exact ⟨trivial, fun x => by simp [erase]⟩
  | leaf b =>
    by_cases hk : R.key b = k
    · simp only [erase, if_pos hk]
      refine ⟨trivial, fun x => ⟨fun h => absurd h (not_mem_empty x), ?_⟩⟩
      rintro ⟨rfl, hx⟩
      exact absurd hk hx
    · simp only [erase, if_neg hk]
      refine ⟨trivial, fun x => ⟨?_, fun h => h.1⟩⟩
      rintro rfl
      exact ⟨rfl, hk⟩
  | inner ch ih =>
    obtain ⟨he, hm⟩ := ih (R.digit k d) (hc.1 _).1
    have hh := hc.children.update he fun x hx => (hc.1 _).2 x ((hm x).mp hx).1
    obtain ⟨ho, hmc⟩ := collapse_spec hh
    exact ⟨ho, fun x => (hmc x).trans (mem_erase_child hc.children hm x)⟩

theorem eraseRoot_spec {ch : ι → Tree ι α} (hc : Children R 0 ch) :
    Children R 0 (eraseRoot R k ch) ∧ ∀ x, x ∈ inner (eraseRoot R k ch) ↔ x ∈ inner ch ∧ R.key x ≠ k := by
  obtain ⟨he, hm⟩ := erase_spec (k := k) (hc (R.digit k 0)).1
  exact ⟨hc.update he fun x hx => (hc _).2 x ((hm x).mp hx).1, mem_erase_child hc hm⟩

end Erase

end Tree

end Xrpld
