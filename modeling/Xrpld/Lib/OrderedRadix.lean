import Xrpld.Lib.RadixTree

/-!
# The values of a radix tree in order

When keys are compared by their first different digit, the values of a radix tree come in
the order of their keys if the branches are taken in the order of the digits (`leaves_sorted`).
A key splits the values of an inner node in three: the branches before its digit, its own branch,
and the branches after it (`leaves_inner`, `filter_above`, `filter_below`).
-/

namespace Xrpld

open List

variable {n : ℕ} {κ α : Type}

variable {i j : Fin n} {l m s : List (Fin n)} {child : Fin n → Tree (Fin n) α} {R : Radix (Fin n) κ α} {d : ℕ} {k : κ}

/-- Keys are compared by their first different digit. -/
def Radix.Ordered [LT κ] (R : Radix (Fin n) κ α) : Prop :=
  ∀ x y d, (∀ i < d, R.digit x i = R.digit y i) → R.digit x d < R.digit y d → x < y

namespace Tree

/-! ### Digits in order -/

/-- The digits after one, in order. -/
def digitsAfter (i : Fin n) : List (Fin n) := (List.finRange n).filter (i < ·)

/-- The digits before one, in order. -/
def digitsBefore (i : Fin n) : List (Fin n) := (List.finRange n).filter (· < i)

theorem mem_digitsAfter : j ∈ digitsAfter i ↔ i < j := by simp [digitsAfter]

theorem mem_digitsBefore : j ∈ digitsBefore i ↔ j < i := by simp [digitsBefore]

theorem sorted_digitsAfter (i : Fin n) : (digitsAfter i).Pairwise (· < ·) :=
  (pairwise_lt_finRange n).filter _

theorem sorted_digitsBefore (i : Fin n) : (digitsBefore i).Pairwise (· < ·) :=
  (pairwise_lt_finRange n).filter _

/-- Two lists in order with the same members are the same. -/
theorem eq_of_sorted (hl : l.Pairwise (· < ·)) (hm : m.Pairwise (· < ·)) (h : ∀ i, i ∈ l ↔ i ∈ m) : l = m :=
  ((perm_ext_iff_of_nodup (hl.imp ne_of_lt) (hm.imp ne_of_lt)).mpr h).eq_of_pairwise
    (fun _ _ _ _ ha hb => absurd ha (lt_asymm hb)) hl hm

/-- The digits around one of them. -/
theorem finRange_eq (i : Fin n) : finRange n = digitsBefore i ++ i :: digitsAfter i := by
  refine eq_of_sorted (pairwise_lt_finRange n) ?_ fun j => ?_
  · refine pairwise_append.mpr ⟨sorted_digitsBefore i, pairwise_cons.mpr ⟨fun j hj => mem_digitsAfter.mp hj,
      sorted_digitsAfter i⟩, fun a ha b hb => ?_⟩
    rcases mem_cons.mp hb with rfl | hb
    · exact mem_digitsBefore.mp ha
    · exact (mem_digitsBefore.mp ha).trans (mem_digitsAfter.mp hb)
  · simp only [mem_finRange, mem_append, mem_cons, mem_digitsBefore, mem_digitsAfter, true_iff]
    exact lt_trichotomy j i

/-- What comes after a digit in a list in order that has all the digits after it. -/
theorem digitsAfter_of_split (hs : s.Pairwise (· < ·)) (h : s = l ++ j :: m) (ha : ∀ x, j < x → x ∈ s) : m = digitsAfter j := by
  subst h
  obtain ⟨-, hjm, hlj⟩ := pairwise_append.mp hs
  obtain ⟨hj, hm⟩ := pairwise_cons.mp hjm
  refine eq_of_sorted hm (sorted_digitsAfter j) fun x => ⟨fun hx => mem_digitsAfter.mpr (hj x hx), fun hx => ?_⟩
  have hjx := mem_digitsAfter.mp hx
  rcases mem_append.mp (ha x hjx) with hl | hr
  · exact absurd (hlj x hl j mem_cons_self) (lt_asymm hjx)
  · exact (mem_cons.mp hr).resolve_left (ne_of_gt hjx)

/-! ### Values in order -/

/-- The values of a tree, the branches taken in the order of the digits. -/
def leaves : Tree (Fin n) α → List α
  | empty => []
  | leaf a => [a]
  | inner child => (List.finRange n).flatMap fun i => leaves (child i)

/-- The values of the branches after one. -/
def after (child : Fin n → Tree (Fin n) α) (i : Fin n) : List α := (digitsAfter i).flatMap fun j => leaves (child j)

/-- The values of the branches before one. -/
def before (child : Fin n → Tree (Fin n) α) (i : Fin n) : List α := (digitsBefore i).flatMap fun j => leaves (child j)

variable {a : α} {t : Tree (Fin n) α}

@[simp] theorem mem_leaves : a ∈ leaves t ↔ a ∈ t := by
  induction t with
  | empty => simp [leaves]
  | leaf b => simp [leaves, eq_comm]
  | inner child ih => simp [leaves, ih]

theorem mem_after : a ∈ after child i ↔ ∃ j, i < j ∧ a ∈ child j := by
  simp [after, mem_digitsAfter]

theorem mem_before : a ∈ before child i ↔ ∃ j, j < i ∧ a ∈ child j := by
  simp [before, mem_digitsBefore]

/-- The values around one branch. -/
theorem leaves_inner (child : Fin n → Tree (Fin n) α) (i : Fin n) :
    leaves (inner child) = before child i ++ (leaves (child i) ++ after child i) := by
  rw [leaves, finRange_eq i, flatMap_append, flatMap_cons]
  rfl

/-- **Each key comes once.** -/
theorem nodup_keys_leaves (hp : Placed R d t) : ((leaves t).map R.key).Nodup := by
  induction t generalizing d with
  | empty => exact nodup_nil
  | leaf a => exact nodup_singleton _
  | inner child ih =>
    rw [leaves, map_flatMap, nodup_flatMap]
    refine ⟨fun i _ => ih i (hp i).1, (nodup_finRange n).imp fun {i j} hij k hi hj => ?_⟩
    -- the digit of a key is that of its branch
    obtain ⟨a, ha, rfl⟩ := mem_map.mp hi
    obtain ⟨b, hb, hab⟩ := mem_map.mp hj
    refine hij (((hp i).2 a (mem_leaves.mp ha)).symm.trans ?_)
    rw [← hab]
    exact (hp j).2 b (mem_leaves.mp hb)

/-- How many nodes a tree has. -/
def size : Tree (Fin n) α → ℕ
  | empty => 0
  | leaf _ => 1
  | inner child => 1 + ((List.finRange n).map fun i => size (child i)).sum

/-- Branches that are all empty have no values. -/
theorem flatMap_leaves_empty (h : ∀ i ∈ l, child i = empty) :
    l.flatMap (fun i => leaves (child i)) = [] :=
  flatMap_eq_nil_iff.mpr fun i hi => by
    rw [h i hi]
    rfl

/-- Empty branches in front of another. -/
theorem flatMap_leaves_split (h : ∀ i ∈ l, child i = empty) :
    (l ++ j :: m).flatMap (fun i => leaves (child i)) = leaves (child j) ++ m.flatMap fun i => leaves (child i) := by
  rw [flatMap_append, flatMap_cons, flatMap_leaves_empty h, nil_append]

section

variable [LinearOrder κ] (hR : R.Ordered)

include hR

/-- A value below a later branch has a later key. -/
theorem lt_of_digit_lt (hu : ∀ i < d, R.digit (R.key a) i = R.digit k i) (h : R.digit k d < R.digit (R.key a) d) : k < R.key a := hR k (R.key a) d (fun i hi => (hu i hi).symm) h

theorem gt_of_digit_gt (hu : ∀ i < d, R.digit (R.key a) i = R.digit k i) (h : R.digit (R.key a) d < R.digit k d) : R.key a < k := hR (R.key a) k d hu h

/-- **The values come in the order of their keys.** -/
theorem leaves_sorted (hp : Placed R d t) (hu : ∀ a ∈ t, ∀ b ∈ t, ∀ i < d, R.digit (R.key a) i = R.digit (R.key b) i) :
    (leaves t).Pairwise fun a b => R.key a < R.key b := by
  induction t generalizing d with
  | empty => exact List.Pairwise.nil
  | leaf a => exact pairwise_singleton ..
  | inner child ih =>
    have hs : ∀ i, ∀ a ∈ child i, ∀ b ∈ child i, ∀ j < d + 1, R.digit (R.key a) j = R.digit (R.key b) j := by
      intro i a ha b hb j hj
      rcases Nat.lt_succ_iff_lt_or_eq.mp hj with ht | rfl
      · exact hu a ⟨i, ha⟩ b ⟨i, hb⟩ j ht
      · rw [(hp i).2 a ha, (hp i).2 b hb]
    rw [leaves, flatMap_def, pairwise_flatten]
    refine ⟨fun l hl => ?_, ?_⟩
    · obtain ⟨i, -, rfl⟩ := mem_map.mp hl
      exact ih i (hp i).1 (hs i)
    · refine pairwise_map.mpr ((pairwise_lt_finRange n).imp fun {i j} hij a ha b hb => ?_)
      rw [mem_leaves] at ha hb
      refine hR _ _ d (hu a ⟨i, ha⟩ b ⟨j, hb⟩) ?_
      rwa [(hp i).2 a ha, (hp j).2 b hb]

variable (hp : Placed R d (inner child)) (hu : Under R k d (inner child))

include hp hu

theorem lt_of_mem_after (ha : a ∈ after child (R.digit k d)) : k < R.key a := by
  obtain ⟨j, hj, ha⟩ := mem_after.mp ha
  exact lt_of_digit_lt hR (hu a ⟨j, ha⟩) (by rwa [(hp j).2 a ha])

theorem gt_of_mem_before (ha : a ∈ before child (R.digit k d)) : R.key a < k := by
  obtain ⟨j, hj, ha⟩ := mem_before.mp ha
  exact gt_of_digit_gt hR (hu a ⟨j, ha⟩) (by rwa [(hp j).2 a ha])

/-- The values with later keys: those of the key's branch, and the branches after it. -/
theorem filter_above : (leaves (inner child)).filter (k < R.key ·) =
      (leaves (child (R.digit k d))).filter (k < R.key ·) ++ after child (R.digit k d) := by
  have hb : (before child (R.digit k d)).filter (k < R.key ·) = [] := filter_eq_nil_iff.mpr fun a ha =>
    decide_eq_true_iff.not.mpr (lt_asymm (gt_of_mem_before hR hp hu ha))
  have hf : (after child (R.digit k d)).filter (k < R.key ·) = after child (R.digit k d) :=
    filter_eq_self.mpr fun a ha => decide_eq_true (lt_of_mem_after hR hp hu ha)
  rw [leaves_inner child (R.digit k d), filter_append, filter_append, hb, hf, nil_append]

/-- The values with earlier keys: the branches before the key's, and those of its branch. -/
theorem filter_below : (leaves (inner child)).filter (R.key · < k) =
      before child (R.digit k d) ++ (leaves (child (R.digit k d))).filter (R.key · < k) := by
  have hb : (before child (R.digit k d)).filter (R.key · < k) = before child (R.digit k d) :=
    filter_eq_self.mpr fun a ha => decide_eq_true (gt_of_mem_before hR hp hu ha)
  have hf : (after child (R.digit k d)).filter (R.key · < k) = [] := filter_eq_nil_iff.mpr fun a ha =>
    decide_eq_true_iff.not.mpr (lt_asymm (lt_of_mem_after hR hp hu ha))
  rw [leaves_inner child (R.digit k d), filter_append, filter_append, hb, hf, append_nil]

end

end Tree

end Xrpld
