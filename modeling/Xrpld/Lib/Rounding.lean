import Mathlib

/-!
# Rounding into a set

A number is rounded into a set of numbers by taking the nearest one, the next one below, the next
one above, or the nearest one that is not larger in magnitude. All of these are known once it is
known between which two neighbours of the set the number lies (`Between`), and those of a negative
number follow from those of its magnitude when the set has with each number its opposite.
-/

namespace Xrpld.Rounding

variable {K : Type} [Field K] [LinearOrder K] [IsStrictOrderedRing K] {S T : Set K} {a q r lo hi : K}

/-- A nearest number of the set. -/
structure IsNearest (S : Set K) (q r : K) : Prop where
  mem : r ∈ S
  le : ∀ s ∈ S, |q - r| ≤ |q - s|

/-- The largest number of the set that is not above. -/
def IsFloor (S : Set K) (q r : K) : Prop := IsGreatest { s | s ∈ S ∧ s ≤ q } r

/-- The smallest number of the set that is not below. -/
def IsCeil (S : Set K) (q r : K) : Prop := IsLeast { s | s ∈ S ∧ q ≤ s } r

/-- The nearest number of the set that is not larger in magnitude. -/
structure IsTrunc (S : Set K) (q r : K) : Prop where
  mem : r ∈ S
  abs_le : |r| ≤ |q|
  le : ∀ s ∈ S, |s| ≤ |q| → |q - r| ≤ |q - s|

/-! ### Smaller sets -/

omit [IsStrictOrderedRing K] in
theorem IsNearest.mono (h : IsNearest T q r) (hST : S ⊆ T) (hr : r ∈ S) : IsNearest S q r :=
  ⟨hr, fun s hs => h.le s (hST hs)⟩

section

omit [Field K] [IsStrictOrderedRing K]

theorem IsFloor.mono (h : IsFloor T q r) (hST : S ⊆ T) (hr : r ∈ S) : IsFloor S q r :=
  ⟨⟨hr, h.1.2⟩, fun _ hs => h.2 ⟨hST hs.1, hs.2⟩⟩

theorem IsCeil.mono (h : IsCeil T q r) (hST : S ⊆ T) (hr : r ∈ S) : IsCeil S q r :=
  ⟨⟨hr, h.1.2⟩, fun _ hs => h.2 ⟨hST hs.1, hs.2⟩⟩

end

omit [IsStrictOrderedRing K] in
theorem IsTrunc.mono (h : IsTrunc T q r) (hST : S ⊆ T) (hr : r ∈ S) : IsTrunc S q r :=
  ⟨hr, h.abs_le, fun s hs => h.le s (hST hs)⟩

/-! ### Opposites -/

section

variable (hneg : ∀ s ∈ S, -s ∈ S)

include hneg

omit [IsStrictOrderedRing K] in
theorem IsNearest.neg (h : IsNearest S q r) : IsNearest S (-q) (-r) := by
  refine ⟨hneg r h.mem, fun s hs => ?_⟩
  have hl := h.le (-s) (hneg s hs)
  rwa [← abs_neg, neg_sub, ← abs_neg (q - -s), neg_sub, show r - q = -q - -r by ring,
    show -s - q = -q - s by ring] at hl

theorem IsFloor.neg (h : IsFloor S q r) : IsCeil S (-q) (-r) := by
  refine ⟨⟨hneg r h.1.1, neg_le_neg h.1.2⟩, fun s hs => ?_⟩
  have hl : -s ≤ r := h.2 ⟨hneg s hs.1, neg_le.mp hs.2⟩
  exact neg_le.mp hl

theorem IsCeil.neg (h : IsCeil S q r) : IsFloor S (-q) (-r) := by
  refine ⟨⟨hneg r h.1.1, neg_le_neg h.1.2⟩, fun s hs => ?_⟩
  have hl : r ≤ -s := h.2 ⟨hneg s hs.1, le_neg.mp hs.2⟩
  exact le_neg.mp hl

omit [IsStrictOrderedRing K] in
theorem IsTrunc.neg (h : IsTrunc S q r) : IsTrunc S (-q) (-r) := by
  refine ⟨hneg r h.mem, by rw [abs_neg, abs_neg]; exact h.abs_le, fun s hs hq => ?_⟩
  have hl := h.le (-s) (hneg s hs) (by rwa [abs_neg, ← abs_neg q])
  rwa [← abs_neg, neg_sub, ← abs_neg (q - -s), neg_sub, show r - q = -q - -r by ring,
    show -s - q = -q - s by ring] at hl

end

/-! ### Neighbours -/

/-- **Between two neighbours** of the set, of which it may be the lower one; they are not negative. -/
structure Between (S : Set K) (lo hi a : K) : Prop where
  lo_mem : lo ∈ S
  hi_mem : hi ∈ S
  nonneg : 0 ≤ lo
  le : lo ≤ a
  lt : a < hi
  gap : ∀ s ∈ S, s ≤ lo ∨ hi ≤ s

namespace Between

variable (h : Between S lo hi a)

include h

section

omit [IsStrictOrderedRing K]

theorem isFloor : IsFloor S a lo := by
  refine ⟨⟨h.lo_mem, h.le⟩, fun s hs => ?_⟩
  rcases h.gap s hs.1 with hl | hh
  · exact hl
  · exact absurd (h.lt.trans_le (hh.trans hs.2)) (lt_irrefl _)

theorem isCeil_hi (hn : lo ≠ a) : IsCeil S a hi := by
  refine ⟨⟨h.hi_mem, h.lt.le⟩, fun s hs => ?_⟩
  rcases h.gap s hs.1 with hl | hh
  · exact absurd (lt_of_le_of_ne h.le hn) (not_lt.mpr (hs.2.trans hl))
  · exact hh

theorem isCeil_lo (he : lo = a) : IsCeil S a lo := ⟨⟨h.lo_mem, he.ge⟩, fun _ hs => he.trans_le hs.2⟩

end

theorem isTrunc : IsTrunc S a lo := by
  have ha : 0 ≤ a := h.nonneg.trans h.le
  refine ⟨h.lo_mem, by rw [abs_of_nonneg h.nonneg, abs_of_nonneg ha]; exact h.le, fun s hs hsa => ?_⟩
  rw [abs_of_nonneg ha] at hsa
  have hs' : s ≤ lo := h.isFloor.2 ⟨hs, (le_abs_self s).trans hsa⟩
  rw [abs_of_nonneg (sub_nonneg.mpr h.le), abs_of_nonneg (sub_nonneg.mpr (hs'.trans h.le))]
  exact sub_le_sub_left hs' a

theorem isNearest_lo (he : a - lo ≤ hi - a) : IsNearest S a lo := by
  refine ⟨h.lo_mem, fun s hs => ?_⟩
  rw [abs_of_nonneg (sub_nonneg.mpr h.le)]
  rcases h.gap s hs with hl | hh
  · exact (sub_le_sub_left hl a).trans (le_abs_self _)
  · rw [abs_sub_comm]
    exact he.trans ((sub_le_sub_right hh a).trans (le_abs_self _))

theorem isNearest_hi (he : hi - a ≤ a - lo) : IsNearest S a hi := by
  refine ⟨h.hi_mem, fun s hs => ?_⟩
  rw [abs_sub_comm, abs_of_nonneg (sub_nonneg.mpr h.lt.le)]
  rcases h.gap s hs with hl | hh
  · exact he.trans ((sub_le_sub_left hl a).trans (le_abs_self _))
  · rw [abs_sub_comm]
    exact (sub_le_sub_right hh a).trans (le_abs_self _)

end Between

end Xrpld.Rounding
