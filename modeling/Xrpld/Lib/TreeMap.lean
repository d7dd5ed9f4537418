import Mathlib

/-!
# Ordered maps and sets with keys of a linear order

Facts about `Std.ExtTreeMap` and `Std.ExtTreeSet` in the form that proofs about maps use them:
equality of keys in place of comparison, and the list of entries up to its order when an entry is
put in or taken out.
-/

namespace Xrpld.TreeMap

open Std (ExtTreeMap ExtTreeSet)
open List Std.ExtTreeMap

variable {α β : Type} [LinearOrder α] [LinearOrder β]

/-- One name for what is known of a comparison, so that terms about maps are the same wherever they are built. -/
instance transCmp : Std.TransCmp (compare : α → α → Ordering) := inferInstance

@[inherit_doc transCmp]
instance transOrdLex : Std.TransOrd (α ×ₗ β) := inferInstance

instance lawfulEqCmpLex :
    Std.LawfulEqCmp (compare : α ×ₗ β → α ×ₗ β → Ordering) where
  eq_of_compare {a b} h := by
    change compareLex (compareOn fun x : α × β => x.1) (compareOn fun x : α × β => x.2) (ofLex a) (ofLex b) = .eq at h
    rw [compareLex_eq_eq] at h
    exact ofLex.injective (Prod.ext (compare_eq_iff_eq.mp h.1) (compare_eq_iff_eq.mp h.2))

instance (priority := low) lawfulEqOrd : Std.LawfulEqOrd α := ⟨fun h => compare_eq_iff_eq.mp h⟩

section

variable {K V : Type} [Ord K] [Std.TransOrd K] [Std.LawfulEqOrd K] [DecidableEq K] {m : ExtTreeMap K V} {k a : K} {v w : V}

theorem getElem?_insert : (m.insert k v)[a]? = if k = a then some v else m[a]? := by
  rw [ExtTreeMap.getElem?_insert]
  exact if_congr Std.LawfulEqCmp.compare_eq_iff_eq rfl rfl

theorem getElem?_erase : (m.erase k)[a]? = if k = a then none else m[a]? := by
  rw [ExtTreeMap.getElem?_erase]
  exact if_congr Std.LawfulEqCmp.compare_eq_iff_eq rfl rfl

section

omit [DecidableEq K] [Std.LawfulEqOrd K]

theorem distinct_toList (m : ExtTreeMap K V) : m.toList.Pairwise fun a b => a.1 ≠ b.1 := by
  refine distinct_keys_toList.imp fun h he => h ?_
  rw [he]
  exact Std.ReflCmp.compare_self

theorem nodup_toList (m : ExtTreeMap K V) : m.toList.Nodup :=
  (distinct_toList m).imp fun h he => h (congrArg Prod.fst he)

end

omit [DecidableEq K] in
theorem mem_toList : (k, v) ∈ m.toList ↔ m[k]? = some v := mem_toList_iff_getElem?_eq_some

/-- The entries of a map, one of them apart. -/
theorem toList_perm_cons_erase (h : m[k]? = some v) : m.toList.Perm ((k, v) :: (m.erase k).toList) := by
  refine (perm_ext_iff_of_nodup (nodup_toList m) ?_).mpr fun e => ?_
  · refine nodup_cons.mpr ⟨fun hm => ?_, nodup_toList _⟩
    rw [mem_toList, getElem?_erase, if_pos rfl] at hm
    cases hm
  · obtain ⟨a, w⟩ := e
    rw [mem_cons, mem_toList, mem_toList, getElem?_erase, Prod.mk.injEq]
    by_cases hk : k = a
    · subst hk
      simp [h, eq_comm]
    · simp [hk, Ne.symm hk]

/-- The entries of a map after an entry is put in, that entry apart. -/
theorem toList_insert_perm : (m.insert k v).toList.Perm ((k, v) :: (m.erase k).toList) := by
  have h := toList_perm_cons_erase (m := m.insert k v) (k := k) (v := v) (by rw [getElem?_insert, if_pos rfl])
  have he : (m.insert k v).erase k = m.erase k := by
    refine ext_getElem? fun a => ?_
    rw [getElem?_erase, getElem?_erase, getElem?_insert]
    split_ifs <;> rfl
  rwa [he] at h

/-- Combining the entries of a list, which has no key twice, into a map. -/
theorem getElem?_foldl_insert {W : Type} (f : Option V → W → V) {l : List (K × W)} (hl : l.Pairwise fun a b => a.1 ≠ b.1)
    (m : ExtTreeMap K V) (a : K) : (l.foldl (fun m it => m.insert it.1 (f m[it.1]? it.2)) m)[a]? =
      match l.find? fun it => decide (it.1 = a) with
      | some it => some (f m[a]? it.2)
      | none => m[a]? := by
  induction l generalizing m with
  | nil => rfl
  | cons it l ih =>
    rw [pairwise_cons] at hl
    rw [foldl_cons, ih hl.2, find?_cons]
    by_cases h : it.1 = a
    · have hn : (l.find? fun it => decide (it.1 = a)) = none :=
        find?_eq_none.mpr fun other ho => by simpa using fun he : other.1 = a => hl.1 other ho (h.trans he.symm)
      rw [hn, decide_eq_true h, ← h]
      exact getElem?_insert.trans (if_pos rfl)
    · rw [decide_eq_false h, getElem?_insert, if_neg h]

/-- The entry of a key in the list of entries. -/
theorem find?_toList (m : ExtTreeMap K V) (a : K) :
    (m.toList.find? fun it => decide (it.1 = a)) = m[a]?.map fun v => (a, v) := by
  cases hf : m.toList.find? fun it => decide (it.1 = a) with
  | none =>
    cases hi : m[a]? with
    | none => rfl
    | some v => simpa using find?_eq_none.mp hf (a, v) (mem_toList.mpr hi)
  | some it =>
    have hk : it.1 = a := by simpa using find?_some hf
    have hi : m[a]? = some it.2 := mem_toList.mp (hk ▸ mem_of_find?_eq_some hf)
    rw [hi, ← hk]
    rfl

theorem erase_eq_self (h : m[k]? = none) : m.erase k = m := by
  refine ext_getElem? fun a => ?_
  rw [getElem?_erase]
  split_ifs with hk
  · rw [← hk, h]
  · rfl

omit [DecidableEq K] [Std.LawfulEqOrd K] in
theorem mem_iff_exists : k ∈ m ↔ ∃ v, m[k]? = some v := by
  rw [mem_iff_isSome_getElem?, Option.isSome_iff_exists]

end

section

variable {K : Type} [Ord K] [Std.TransOrd K] [Std.LawfulEqOrd K] {s : ExtTreeSet K} {k a : K}

theorem mem_insert : a ∈ s.insert k ↔ k = a ∨ a ∈ s := by
  rw [ExtTreeSet.mem_insert, Std.LawfulEqCmp.compare_eq_iff_eq]

theorem mem_erase : a ∈ s.erase k ↔ k ≠ a ∧ a ∈ s := by
  rw [ExtTreeSet.mem_erase, ne_eq, Std.LawfulEqCmp.compare_eq_iff_eq]

end

end Xrpld.TreeMap
