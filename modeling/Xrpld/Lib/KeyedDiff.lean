import Mathlib

/-!
# The difference of two keyed collections

A collection is a list in which no two entries have the same key. `diff` lists the keys on which two
collections disagree, each with the entry of either side; `mem_diff` says that these are all of them
and `nodup_keys_diff` that each comes once. The other results take a difference apart the way a walk
over two structures meets their entries: entry by entry, or cell by cell when the keys of one cell are
in no other.
-/

namespace Xrpld.KeyedDiff

open List Option

variable {κ α : Type} [DecidableEq κ] (key : α → κ)

/-- A list of entries with different keys. -/
def Keyed (l : List α) : Prop := (l.map key).Nodup

/-- The entry of a key. -/
def find (k : κ) (l : List α) : Option α := l.find? fun a => key a = k

/-- **The difference** of two collections: a key with the entry on the left and on the right. -/
def diff [DecidableEq α] (l r : List α) : List (κ × Option α × Option α) :=
  (l.filterMap fun a => if find key (key a) r = some a then none else some (key a, some a, find key (key a) r)) ++
    r.filterMap fun b => if find key (key b) l = none then some (key b, none, some b) else none

/-- A difference seen from the other side. -/
def mirror (e : κ × Option α × Option α) : κ × Option α × Option α := (e.1, e.2.2, e.2.1)

variable {key} {l r l' r' : List α} {k : κ} {a b : α}

theorem find_cons : find key k (a :: l) = if key a = k then some a else find key k l := by
  simp only [find, find?_cons]
  split <;> simp_all

theorem find_eq_none : find key k l = none ↔ ∀ a ∈ l, key a ≠ k := by
  simp [find]

section

omit [DecidableEq κ]

theorem Keyed.eq (hl : Keyed key l) (ha : a ∈ l) (hb : b ∈ l) (h : key a = key b) : a = b :=
  inj_on_of_nodup_map hl ha hb h

theorem Keyed.of_cons (hl : Keyed key (a :: l)) : Keyed key l := (nodup_cons.mp hl).2

theorem Keyed.ne (hl : Keyed key (a :: l)) (hb : b ∈ l) : key b ≠ key a := fun h =>
  (nodup_cons.mp hl).1 (h ▸ mem_map_of_mem hb)

end

variable (hl : Keyed key l)

include hl

omit [DecidableEq κ] in
theorem Keyed.perm (h : l.Perm l') : Keyed key l' := (h.map key).nodup_iff.mp hl

theorem find_eq_some : find key k l = some a ↔ a ∈ l ∧ key a = k := by
  constructor
  · intro h
    exact ⟨mem_of_find?_eq_some h, by simpa using find?_some h⟩
  · rintro ⟨ha, rfl⟩
    cases h : find key (key a) l with
    | none => exact absurd rfl (find_eq_none.mp h a ha)
    | some b =>
      have hb : key b = key a := by simpa using find?_some h
      rw [hl.eq (mem_of_find?_eq_some h) ha hb]

theorem find_perm (h : l.Perm l') : find key k l' = find key k l := by
  refine ext fun a => ?_
  rw [find_eq_some hl, find_eq_some (hl.perm h), h.mem_iff]

variable [DecidableEq α]

variable (hr : Keyed key r)

include hr

/-- **What a difference lists**: the keys whose entries differ, with these entries. -/
theorem mem_diff {x y : Option α} : (k, x, y) ∈ diff key l r ↔ x = find key k l ∧ y = find key k r ∧ x ≠ y := by
  rw [diff, mem_append, mem_filterMap, mem_filterMap]
  constructor
  · rintro (⟨a, ha, h⟩ | ⟨b, hb, h⟩)
    · split_ifs at h with hf
      cases h
      exact ⟨((find_eq_some hl).mpr ⟨ha, rfl⟩).symm, rfl, Ne.symm hf⟩
    · split_ifs at h with hf
      cases h
      exact ⟨hf.symm, ((find_eq_some hr).mpr ⟨hb, rfl⟩).symm, (some_ne_none b).symm⟩
  · rintro ⟨rfl, rfl, hn⟩
    cases hx : find key k l with
    | none =>
      cases hy : find key k r with
      | none => exact absurd (hx.trans hy.symm) hn
      | some b =>
        obtain ⟨hb, rfl⟩ := (find_eq_some hr).mp hy
        exact .inr ⟨b, hb, if_pos hx⟩
    | some a =>
      obtain ⟨ha, rfl⟩ := (find_eq_some hl).mp hx
      exact .inl ⟨a, ha, if_neg fun h => hn (hx.trans h.symm)⟩

theorem nodup_diff : (diff key l r).Nodup := by
  refine List.Nodup.append (.filterMap ?_ (List.Nodup.of_map key hl)) (.filterMap ?_ (List.Nodup.of_map key hr)) ?_
  · intro a a' e he he'
    simp only [mem_def] at he he'
    split_ifs at he he'
    cases he
    simp only [some.injEq, Prod.mk.injEq] at he'
    exact he'.2.1.symm
  · intro b b' e he he'
    simp only [mem_def] at he he'
    split_ifs at he he'
    cases he
    simp only [some.injEq, Prod.mk.injEq] at he'
    exact he'.2.2.symm
  · -- an entry of the first part has a left side
    intro e he he'
    obtain ⟨a, -, ha⟩ := mem_filterMap.mp he
    obtain ⟨b, -, hb⟩ := mem_filterMap.mp he'
    split_ifs at ha hb
    cases ha
    simp at hb

/-- **A difference lists each key once.** -/
theorem nodup_keys_diff : ((diff key l r).map Prod.fst).Nodup := by
  refine (nodup_diff hl hr).map_on ?_
  rintro ⟨k, x, y⟩ h ⟨k', x', y'⟩ h' (rfl : k = k')
  obtain ⟨rfl, rfl, -⟩ := (mem_diff hl hr).mp h
  obtain ⟨rfl, rfl, -⟩ := (mem_diff hl hr).mp h'
  rfl

/-- A list of the differing keys and their entries is the difference, in some order. -/
theorem perm_diff {d : List (κ × Option α × Option α)} (hd : d.Nodup)
    (h : ∀ k x y, (k, x, y) ∈ d ↔ x = find key k l ∧ y = find key k r ∧ x ≠ y) : (diff key l r).Perm d :=
  (perm_ext_iff_of_nodup (nodup_diff hl hr) hd).mpr fun ⟨k, x, y⟩ => by rw [mem_diff hl hr, h]

omit hr in
theorem diff_self : diff key l l = [] := by
  refine eq_nil_iff_forall_not_mem.mpr ?_
  rintro ⟨k, x, y⟩ h
  obtain ⟨rfl, rfl, hn⟩ := (mem_diff hl hl).mp h
  exact hn rfl

theorem diff_perm (h : l.Perm l') : (diff key l r).Perm (diff key l' r) :=
  perm_diff hl hr (nodup_diff (hl.perm h) hr) fun k x y => by rw [mem_diff (hl.perm h) hr, find_perm hl h]

/-- **The sides exchanged.** -/
theorem diff_mirror : (diff key r l).Perm ((diff key l r).map mirror) := by
  refine perm_diff hr hl ((nodup_diff hl hr).map fun e e' h => ?_) fun k x y => ?_
  · obtain ⟨k, x, y⟩ := e
    simp only [mirror, Prod.mk.injEq] at h
    simp [h]
  · have hm : (k, x, y) ∈ (diff key l r).map mirror ↔ (k, y, x) ∈ diff key l r := by
      constructor
      · intro h
        obtain ⟨⟨k', y', x'⟩, he, hq⟩ := mem_map.mp h
        cases hq
        exact he
      · exact fun h => mem_map.mpr ⟨_, h, rfl⟩
    rw [hm, mem_diff hl hr, ne_comm, and_left_comm]

omit hr

omit hl

/-- An entry whose key is only on the left. -/
theorem diff_cons_left (hl : Keyed key (a :: l)) (hr : Keyed key r) (ha : find key (key a) r = none) :
    (diff key (a :: l) r).Perm ((key a, some a, none) :: diff key l r) := by
  have hf : find key (key a) l = none := find_eq_none.mpr fun b hb => hl.ne hb
  refine perm_diff hl hr (nodup_cons.mpr ⟨fun h => ?_, nodup_diff hl.of_cons hr⟩) fun k x y => ?_
  · rw [mem_diff hl.of_cons hr, hf] at h
    cases h.1
  · rw [mem_cons, mem_diff hl.of_cons hr, find_cons]
    by_cases hk : key a = k
    · subst hk
      rw [if_pos rfl, hf, ha]
      constructor
      · rintro (h | ⟨rfl, rfl, hn⟩)
        · cases h
          exact ⟨rfl, rfl, some_ne_none a⟩
        · exact absurd rfl hn
      · rintro ⟨rfl, rfl, -⟩
        exact .inl rfl
    · simp [hk, Ne.symm hk]

/-- A key on both sides. -/
theorem diff_cons_cons (hl : Keyed key (a :: l)) (hr : Keyed key (b :: r)) (ha : key a = key b) :
    (diff key (a :: l) (b :: r)).Perm ((if a = b then [] else [(key a, some a, some b)]) ++ diff key l r) := by
  have hf : find key (key a) l = none := find_eq_none.mpr fun b hb => hl.ne hb
  have hfr : find key (key a) r = none := find_eq_none.mpr fun c hc => ha ▸ hr.ne hc
  have hn : ∀ x y, (key a, x, y) ∉ diff key l r := by
    intro x y h
    obtain ⟨rfl, rfl, hne⟩ := (mem_diff hl.of_cons hr.of_cons).mp h
    exact hne (hf.trans hfr.symm)
  refine perm_diff hl hr (List.Nodup.append (by split <;> simp) (nodup_diff hl.of_cons hr.of_cons) ?_) fun k x y => ?_
  · intro e he he'
    split_ifs at he with hq
    · exact absurd he not_mem_nil
    · rw [mem_singleton] at he
      exact hn _ _ (he ▸ he')
  · rw [mem_append, find_cons, find_cons, ← ha]
    by_cases hk : key a = k
    · subst hk
      rw [if_pos rfl, if_pos rfl]
      refine ⟨?_, ?_⟩
      · rintro (h | h)
        · split_ifs at h with hq
          · exact absurd h not_mem_nil
          · cases mem_singleton.mp h
            exact ⟨rfl, rfl, fun h => hq (some.inj h)⟩
        · exact absurd h (hn _ _)
      · rintro ⟨rfl, rfl, hne⟩
        rw [if_neg fun h => hne (congrArg some h)]
        exact .inl (mem_singleton.mpr rfl)
    · rw [if_neg hk, if_neg hk, ← mem_diff hl.of_cons hr.of_cons]
      refine or_iff_right fun h => ?_
      split_ifs at h
      · exact absurd h not_mem_nil
      · cases mem_singleton.mp h
        exact hk rfl

section

variable {ι : Type} (cell : κ → ι) {L R : ι → List α} {is : List ι}

omit [DecidableEq α] in
/-- An entry is looked for in its own cell. -/
theorem find_flatMap (hL : ∀ i ∈ is, ∀ a ∈ L i, cell (key a) = i) (hk : cell k ∈ is) (he : Keyed key (is.flatMap L))
    (hc : ∀ i ∈ is, Keyed key (L i)) : find key k (is.flatMap L) = find key k (L (cell k)) := by
  refine ext fun a => ?_
  rw [find_eq_some he, find_eq_some (hc _ hk), mem_flatMap]
  constructor
  · rintro ⟨⟨i, hi, ha⟩, rfl⟩
    rw [hL i hi a ha]
    exact ⟨ha, rfl⟩
  · rintro ⟨ha, rfl⟩
    exact ⟨⟨_, hk, ha⟩, rfl⟩

omit [DecidableEq α] in
theorem find_flatMap_of_not_mem (hL : ∀ i ∈ is, ∀ a ∈ L i, cell (key a) = i) (hk : cell k ∉ is) :
    find key k (is.flatMap L) = none := by
  refine find_eq_none.mpr fun a ha he => ?_
  obtain ⟨i, hi, ha⟩ := mem_flatMap.mp ha
  exact hk (by rw [← he, hL i hi a ha]; exact hi)

/-- **The difference, cell by cell.** -/
theorem diff_flatMap (hs : is.Nodup) (hL : ∀ i ∈ is, ∀ a ∈ L i, cell (key a) = i)
    (hR : ∀ i ∈ is, ∀ a ∈ R i, cell (key a) = i) (hl : Keyed key (is.flatMap L)) (hr : Keyed key (is.flatMap R))
    (hc : ∀ i ∈ is, Keyed key (L i)) (hcr : ∀ i ∈ is, Keyed key (R i)) :
    (diff key (is.flatMap L) (is.flatMap R)).Perm (is.flatMap fun i => diff key (L i) (R i)) := by
  have hk : ∀ i ∈ is, ∀ k x y, (k, x, y) ∈ diff key (L i) (R i) → cell k = i := by
    intro i hi k x y h
    obtain ⟨rfl, rfl, hn⟩ := (mem_diff (hc i hi) (hcr i hi)).mp h
    cases hx : find key k (L i) with
    | some a =>
      obtain ⟨ha, rfl⟩ := (find_eq_some (hc i hi)).mp hx
      exact hL i hi a ha
    | none =>
      cases hy : find key k (R i) with
      | some b =>
        obtain ⟨hb, rfl⟩ := (find_eq_some (hcr i hi)).mp hy
        exact hR i hi b hb
      | none => exact absurd (hx.trans hy.symm) hn
  refine perm_diff hl hr (nodup_flatMap.mpr ⟨fun i hi => nodup_diff (hc i hi) (hcr i hi), ?_⟩) fun k x y => ?_
  · refine List.Pairwise.imp_of_mem ?_ hs
    intro i j hi hj hij
    rintro ⟨k, x, y⟩ h h'
    exact hij ((hk i hi k x y h).symm.trans (hk j hj k x y h'))
  · rw [mem_flatMap]
    constructor
    · rintro ⟨i, hi, h⟩
      obtain rfl := hk i hi k x y h
      rw [find_flatMap cell hL hi hl hc, find_flatMap cell hR hi hr hcr]
      exact (mem_diff (hc _ hi) (hcr _ hi)).mp h
    · intro h
      by_cases hi : cell k ∈ is
      · rw [find_flatMap cell hL hi hl hc, find_flatMap cell hR hi hr hcr] at h
        exact ⟨cell k, hi, (mem_diff (hc _ hi) (hcr _ hi)).mpr h⟩
      · rw [find_flatMap_of_not_mem cell hL hi, find_flatMap_of_not_mem cell hR hi] at h
        exact absurd (h.1.trans h.2.1.symm) h.2.2

end

end Xrpld.KeyedDiff
