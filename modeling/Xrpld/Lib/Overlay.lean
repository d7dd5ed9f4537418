import Xrpld.Lib.TreeMap

/-!
# A table laid over a map

A map that is edited without being touched: an ordered table says what is to be seen at the keys it has, and the map
below is seen everywhere else. Putting an entry in the table edits what is seen at one key; taking one out shows
the map below there again.
-/

namespace Xrpld

open Std (ExtTreeMap)
open Function (update update_self update_of_ne)
open TreeMap

variable {K A E : Type} [Ord K] [Std.TransOrd K] [Std.LawfulEqOrd K] [DecidableEq K] {items : ExtTreeMap K A}
  {shown : A → Option E} {below : K → Option E} {key : K} {a : A}

omit [Std.LawfulEqOrd K] [DecidableEq K] in
/-- The entries of a table laid over those of a map. -/
def overlay (items : ExtTreeMap K A) (shown : A → Option E) (below : K → Option E) (key : K) : Option E :=
  match items[key]? with
  | some a => shown a
  | none => below key

section

omit [Std.LawfulEqOrd K] [DecidableEq K]

theorem overlay_some (h : items[key]? = some a) : overlay items shown below key = shown a := by rw [overlay, h]

theorem overlay_none (h : items[key]? = none) : overlay items shown below key = below key := by rw [overlay, h]

theorem overlay_empty : overlay ∅ shown below = below := funext fun _ => overlay_none ExtTreeMap.getElem?_empty

end

theorem overlay_insert : overlay (items.insert key a) shown below = update (overlay items shown below) key (shown a) := by
  funext n
  by_cases h : key = n
  · subst h
    rw [update_self, overlay_some (by rw [getElem?_insert, if_pos rfl])]
  · rw [update_of_ne (Ne.symm h), overlay, overlay, getElem?_insert, if_neg h]

theorem overlay_erase : overlay (items.erase key) shown below = update (overlay items shown below) key (below key) := by
  funext n
  by_cases h : key = n
  · subst h
    rw [update_self, overlay_none (by rw [getElem?_erase, if_pos rfl])]
  · rw [update_of_ne (Ne.symm h), overlay, overlay, getElem?_erase, if_neg h]

omit [Ord K] [Std.TransOrd K] [Std.LawfulEqOrd K] in
/-- Editing a map at the keys of a list that has no key twice. -/
theorem foldl_update_apply {l : List (K × A)} (hl : l.Pairwise fun a b => a.1 ≠ b.1) (below : K → Option E) (key : K) :
    l.foldl (fun m it => update m it.1 (shown it.2)) below key =
      match l.find? fun it => decide (it.1 = key) with
      | some it => shown it.2
      | none => below key := by
  induction l generalizing below with
  | nil => rfl
  | cons it l ih =>
    rw [List.pairwise_cons] at hl
    rw [List.foldl_cons, ih hl.2, List.find?_cons]
    by_cases h : it.1 = key
    · have hn : (l.find? fun it => decide (it.1 = key)) = none :=
        List.find?_eq_none.mpr fun other ho => by simpa using fun he : other.1 = key => hl.1 other ho (h.trans he.symm)
      rw [hn, decide_eq_true h, ← h]
      exact update_self ..
    · rw [decide_eq_false h, update_of_ne (Ne.symm h)]

/-- Editing a map with a table, one key after the other, is laying the table over it. -/
theorem foldl_update_toList :
    items.toList.foldl (fun m it => update m it.1 (shown it.2)) below = overlay items shown below := by
  funext key
  rw [foldl_update_apply (distinct_toList items), overlay, find?_toList]
  cases items[key]? <;> rfl

end Xrpld
