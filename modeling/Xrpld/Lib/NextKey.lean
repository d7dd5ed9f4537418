import Mathlib

/-!
# The next key of an ordered set

A cursor over an ordered set of keys asks for the least member above a key, and for none at or past an end.
`IsNext` says what the answer is, whatever the set is kept in. The lemmas say how the next member of a set that is
laid over another one is found: go on in the lower set past what the upper one has taken away (`skip`), take the
smaller of what both offer (`merge`), and end at the end.
-/

namespace Xrpld

open Option

variable {K : Type} [LinearOrder K] {P Q L E : K → Prop} {key c n : K} {last a b r r' : Option K}

/-- `r` is the least member of `P` above `key`, if that is before `last`. -/
def IsNext (P : K → Prop) (key : K) (last : Option K) : Option K → Prop
  | none => ∀ n, P n → key < n → ∃ l ∈ last, l ≤ n
  | some n => P n ∧ key < n ∧ (∀ m, P m → key < m → n ≤ m) ∧ ∀ l ∈ last, n < l

namespace IsNext

theorem congr (hPQ : ∀ n, P n ↔ Q n) (h : IsNext P key last r) : IsNext Q key last r := by
  have : P = Q := funext fun n => propext (hPQ n)
  rwa [← this]

/-- Nothing below is next, so nothing of it is. -/
theorem none_of_imp (hQP : ∀ n, Q n → P n) (h : IsNext P key last none) : IsNext Q key last none :=
  fun n hn hl => h n (hQP n hn) hl

/-- The next member of a set is the next of any part it belongs to. -/
theorem some_of_imp (hQP : ∀ n, Q n → P n) (hn : Q n) (h : IsNext P key last (some n)) : IsNext Q key last (some n) :=
  ⟨hn, h.2.1, fun m hm hl => h.2.2.1 m (hQP m hm) hl, h.2.2.2⟩

/-- Past a member that was taken away, the next one is the next one after that. -/
theorem skip (h : IsNext P key last (some c)) (hc : E c) (hr : IsNext (fun n => P n ∧ ¬ E n) c last r) :
    IsNext (fun n => P n ∧ ¬ E n) key last r := by
  -- a member that is left is not `c`, so it is above `c`
  have hb : ∀ n, P n ∧ ¬ E n → key < n → c < n := fun n hn hl =>
    lt_of_le_of_ne (h.2.2.1 n hn.1 hl) fun he => hn.2 (he ▸ hc)
  cases r with
  | none => exact fun n hn hl => hr n hn (hb n hn hl)
  | some m =>
    exact ⟨hr.1, h.2.1.trans hr.2.1, fun n hn hl => hr.2.2.1 n hn (hb n hn hl), hr.2.2.2⟩

end IsNext

/-- The smaller of two keys, or the one there is. -/
def minOption : Option K → Option K → Option K
  | some a, some b => some (min a b)
  | some a, none => some a
  | none, some b => some b
  | none, none => none

/-- A key, if it is before the end. -/
def beforeLast (last : Option K) (r : Option K) : Option K := r.filter fun n => last.all fun l => decide (n < l)

theorem all_lt_iff : last.all (fun l => decide (n < l)) ↔ ∀ l ∈ last, n < l := by
  cases last <;> simp

namespace IsNext

/-- What is next up to an end, from what is next at all. -/
theorem beforeLast (h : IsNext P key none r) : IsNext P key last (beforeLast last r) := by
  cases r with
  | none =>
    intro n hn ht
    obtain ⟨l, hl, -⟩ := h n hn ht
    exact absurd hl (not_mem_none l)
  | some n =>
    simp only [Xrpld.beforeLast, filter_some]
    split_ifs with ha
    · exact ⟨h.1, h.2.1, h.2.2.1, all_lt_iff.mp ha⟩
    · rw [all_lt_iff] at ha
      push Not at ha
      obtain ⟨l, hl, he⟩ := ha
      exact fun m hm ht => ⟨l, hl, he.trans (h.2.2.1 m hm ht)⟩

/-- **Merging two cursors.** Next of both sets together is the smaller of what is next in each, up to the end. -/
theorem merge (ha : IsNext P key last a) (hb : IsNext L key none b) :
    IsNext (fun n => P n ∨ L n) key last (Xrpld.beforeLast last (minOption a b)) := by
  have hb' : IsNext L key last (Xrpld.beforeLast last b) := hb.beforeLast
  cases a with
  | none =>
    have hi : minOption none b = b := by cases b <;> rfl
    rw [hi]
    cases hbl : Xrpld.beforeLast last b with
    | none =>
      rw [hbl] at hb'
      exact fun n hn ht => hn.elim (fun hp => ha n hp ht) fun hl => hb' n hl ht
    | some n =>
      rw [hbl] at hb'
      refine ⟨.inr hb'.1, hb'.2.1, fun m hm ht => hm.elim (fun hp => ?_) (hb'.2.2.1 m · ht), hb'.2.2.2⟩
      -- a member of `P` lies past the end, `n` before it
      obtain ⟨l, hl, he⟩ := ha m hp ht
      exact ((hb'.2.2.2 l hl).trans_le he).le
  | some n =>
    cases b with
    | none =>
      have hnoL : ∀ m, L m → key < m → False := fun m hm ht => by
        obtain ⟨l, hl, -⟩ := hb m hm ht
        exact absurd hl (not_mem_none l)
      have hk : Xrpld.beforeLast last (minOption (some n) none) = some n := by
        simp only [minOption, Xrpld.beforeLast, filter_some, all_lt_iff.mpr ha.2.2.2, if_true]
      rw [hk]
      exact ⟨.inl ha.1, ha.2.1, fun m hm ht => hm.elim (ha.2.2.1 m · ht) fun hl => (hnoL m hl ht).elim, ha.2.2.2⟩
    | some m =>
      have hk : Xrpld.beforeLast last (minOption (some n) (some m)) = some (min n m) := by
        have ht : ∀ l ∈ last, min n m < l := fun l hl => (min_le_left n m).trans_lt (ha.2.2.2 l hl)
        simp only [minOption, Xrpld.beforeLast, filter_some, all_lt_iff.mpr ht, if_true]
      rw [hk]
      refine ⟨?_, lt_min ha.2.1 hb.2.1, fun x hx ht => ?_, fun l hl => (min_le_left n m).trans_lt (ha.2.2.2 l hl)⟩
      · rcases min_choice n m with h | h <;> rw [h]
        · exact .inl ha.1
        · exact .inr hb.1
      · exact hx.elim (fun hp => (min_le_left n m).trans (ha.2.2.1 x hp ht))
          fun hl => (min_le_right n m).trans (hb.2.2.1 x hl ht)

end IsNext

end Xrpld
