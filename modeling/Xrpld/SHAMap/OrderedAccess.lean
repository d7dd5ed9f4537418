import Xrpld.Lib.OrderedRadix
import Xrpld.SHAMap.Iteration
import Xrpld.SHAMap.ProofPath

/-!
# Ordered access is exact

A cursor splits the items of a map in three: those before it, the part of the tree it is at, and those
after it. `Descent` keeps account of the three as a cursor goes down; going on from a cursor means taking the
first of the items after it (`yields_peekNextLoop`), and the items that are greater than an identifier are those
after the place where the walk towards it ends (`Descent.filter_above`).

`ordered_access` puts the results together: bounds, following the items, and iterating from an identifier
up to a limit.
-/

namespace Xrpld.SHAMap

open Xrpld.Tree (leaves after before digitsAfter digitsBefore Children Bounded Under Canon mem_leaves leaves_inner)
open Nat

variable {d n : ℕ} {l m bs : List Branch} {b : Branch} {ls items : List Leaf}

theorem radix_ordered : radix.Ordered := fun _ _ _ he hl => Uint256.lt_of_nibble he hl

theorem branchesFrom_zero : branchesFrom 0 = List.finRange 16 := by
  simp [branchesFrom]

theorem branchesFrom_succ (b : Branch) : branchesFrom (b.val + 1) = digitsAfter b := by
  congr 1

theorem branchesDownFrom_val (b : Branch) : branchesDownFrom b.val = (digitsBefore b).reverse := by
  congr 1

theorem branchesDownFrom_all : branchesDownFrom 16 = (List.finRange 16).reverse := by
  rw [branchesDownFrom, List.filter_eq_self.mpr fun b _ => decide_eq_true b.isLt]

/-- The root of a canonical map: an inner node, empty or not. -/
def CanonicalRoot (t : MapTree) : Prop := ∃ child, t = .inner child ∧ Children radix 0 child

/-! ### Where a cursor is -/

section

variable (store : MapStore)

/-- **The way of an identifier** from the root `t0` down to a tree at some depth: the nodes on the stack, the leaves
before the tree, and the leaves after it. -/
inductive Descent (h : Heap) (t0 : MapTree) (id : Uint256) :
    MapTree → ℕ → Stack → List Leaf → List Leaf → Prop where
  | root : Descent h t0 id t0 0 [] [] []
  | step {child : Branch → MapTree} {d : ℕ} {stack : Stack} {earlier rest : List Leaf} {r : Ref}
      {nodeId : SHAMapNodeId} (hds : Descent h t0 id (.inner child) d stack earlier rest)
      (hr : Shows store h (.inner child) r) (hd : nodeId.depth = d) :
      Descent h t0 id (child (id.nibble d)) (d + 1) (⟨r, nodeId⟩ :: stack) (earlier ++ before child (id.nibble d))
        (after child (id.nibble d) ++ rest)

/-- The stack ends at the node of a leaf, with these leaves after it. -/
def AtLeaf (h : Heap) (t0 : MapTree) (leaf : Leaf) (rest : List Leaf) (q : Ref) (stack : Stack) : Prop :=
  ∃ nodeId stack' d earlier, stack = ⟨q, nodeId⟩ :: stack' ∧ Shows store h (.leaf leaf) q ∧
    Descent store h t0 leaf.item.key (.leaf leaf) d stack' earlier rest

/-- A cursor is at the first of some leaves, or there is none. -/
def AtFirst (h : Heap) (t0 : MapTree) : List Leaf → Option Ref × Stack → Prop
  | [], res => res.1 = none
  | leaf :: rest, res => ∃ q, res.1 = some q ∧ AtLeaf store h t0 leaf rest q res.2

/-- A node of a leaf, or nothing. -/
def IsLeaf (h : Heap) : Option Leaf → Option Ref → Prop
  | none, r => r = none
  | some leaf, r => ∃ q, r = some q ∧ Shows store h (.leaf leaf) q

end

variable {store : MapStore} {backed : Bool} {fetch : Fetch} {h h' : Heap} {t0 t : MapTree}
  {id : Uint256} {stk : Stack} {ea rest : List Leaf}

namespace Descent

theorem mono (hs : ∀ t r, Shows store h t r → Shows store h' t r) (ht : Descent store h t0 id t d stk ea rest) :
    Descent store h' t0 id t d stk ea rest := by
  induction ht with
  | root => exact .root
  | step _ hr hd ih => exact .step ih (hs _ _ hr) hd

/-- Identifiers that agree so far have the same way. -/
theorem congr {id' : Uint256} (ht : Descent store h t0 id t d stk ea rest)
    (he : ∀ i < d, id'.nibble i = id.nibble i) : Descent store h t0 id' t d stk ea rest := by
  induction ht with
  | root => exact .root
  | @step ch d stk ea rest r nid _ hr hd ih =>
    rw [← he d (lt_succ_self d)]
    exact .step (ih fun i hi => he i (lt_succ_of_lt hi)) hr hd

variable (h₀ : CanonicalRoot t0)

include h₀

variable (ht : Descent store h t0 id t d stk ea rest)

include ht

/-- What is known of the tree on the way. -/
theorem level : (∀ ch, t = .inner ch → Children radix d ch) ∧ Bounded radix d t ∧ Under radix id d t := by
  induction ht with
  | root =>
    obtain ⟨ch, rfl, hc⟩ := h₀
    refine ⟨fun ch' he => ?_, hc.bounded (by decide), Tree.under_zero _ _⟩
    cases he
    exact hc
  | @step ch d _ _ _ _ _ _ _ _ ih =>
    obtain ⟨hc, hb, hu⟩ := ih
    have hh := hc ch rfl
    refine ⟨fun gr he => ?_, hb.2 _, hu.child hh⟩
    have hn := (hh (id.nibble d)).1
    rw [he] at hn
    exact hn.children

theorem depth_le : d ≤ leafDepth := by
  cases ht with
  | root => exact zero_le _
  | step hds => exact (hds.level h₀).2.1.1

/-- **The leaves greater than the identifier.** -/
theorem filter_above : (leaves t0).filter (id < ·.item.key) = (leaves t).filter (id < ·.item.key) ++ rest := by
  induction ht with
  | root => simp
  | @step ch d _ _ _ _ _ hds _ _ ih =>
    obtain ⟨hc, -, hu⟩ := hds.level h₀
    have hf : (leaves (.inner ch)).filter (id < ·.item.key) =
        (leaves (ch (id.nibble d))).filter (id < ·.item.key) ++ after ch (id.nibble d) :=
      Tree.filter_above radix_ordered (hc ch rfl).placed hu
    rw [ih, hf, List.append_assoc]

/-- **The leaves less than the identifier.** -/
theorem filter_below : (leaves t0).filter (·.item.key < id) = ea ++ (leaves t).filter (·.item.key < id) := by
  induction ht with
  | root => simp
  | @step ch d _ _ _ _ _ hds _ _ ih =>
    obtain ⟨hc, -, hu⟩ := hds.level h₀
    have hf : (leaves (.inner ch)).filter (·.item.key < id) =
        before ch (id.nibble d) ++ (leaves (ch (id.nibble d))).filter (·.item.key < id) :=
      Tree.filter_below radix_ordered (hc ch rfl).placed hu
    rw [ih, hf, List.append_assoc]

end Descent

/-! ### Programs that read -/

variable {α β : Type} {nid : SHAMapNodeId} {ch : Branch → MapTree} {r q : Ref} {leaf : Leaf}

variable (store backed fetch) in
/-- **A program that yields something**: it returns, and all it does to the heap is to read. -/
def Yields (p : HeapM TraversalError α) (P : α → Heap → Prop) (h : Heap) : Prop :=
  wp p (fun a h' => Reads store backed fetch h h' ∧ P a h') ⊥ ⊥ h

namespace Yields

variable {p : HeapM TraversalError α} {f : α → HeapM TraversalError β} {P : α → Heap → Prop} {P' : β → Heap → Prop}

theorem after (hrd : Reads store backed fetch h h') (hp : Yields store backed fetch p P h') :
    wp p (fun a h'' => Reads store backed fetch h h'' ∧ P a h'') ⊥ ⊥ h' :=
  wp_imp hp fun _ _ he => ⟨hrd.trans he.1, he.2⟩

theorem bind (hp : Yields store backed fetch p P h)
    (hf : ∀ a h', Reads store backed fetch h h' → P a h' → Yields store backed fetch (f a) P' h') :
    Yields store backed fetch (p >>= f) P' h := by
  rw [Yields, wp_bind]
  exact wp_imp hp fun a h' he => (hf a h' he.1 he.2).after he.1

theorem deref_bind {f : SHAMapTreeNode → HeapM TraversalError α} :
    Yields store backed fetch (deref r >>= f) P h ↔ Yields store backed fetch (f (h.node r)) P h := Iff.rfl

end Yields

theorem Shows.isLeaf (hr : Shows store h (.leaf leaf) r) : (h.node r).isLeaf := by
  rw [SHAMapTreeNode.isLeaf, hr.leaf_node.1]
  rfl

theorem Shows.not_isLeaf (hr : Shows store h (.inner ch) r) : ¬ (h.node r).isLeaf := by
  rw [SHAMapTreeNode.isLeaf, hr.isInner]
  exact Bool.false_ne_true

/-- **Looking for a branch that is not empty**: there is none, or the first one's child is loaded. -/
theorem wp_firstChildIn {Q : Option (Ref × SHAMapNodeId) → Heap → Prop} (hB : Backing store backed fetch h)
    (hr : Shows store h (.inner ch) r) (hd : nid.depth < leafDepth)
    (hn : (∀ b ∈ bs, ch b = .empty) → Q none h)
    (hs : ∀ l b m q ci h', bs = l ++ b :: m → (∀ c ∈ l, ch c = .empty) → ch b ≠ .empty →
      ci.depth = nid.depth + 1 → Shows store h' (ch b) q → Reads store backed fetch h h' →
      Q (some (q, ci)) h') : wp (firstChildIn backed fetch r nid bs) Q ⊥ ⊥ h := by
  induction bs with
  | nil => exact hn fun _ hb => absurd hb List.not_mem_nil
  | cons b bs ih =>
    simp only [firstChildIn, deref, wp_bind, wp_read, wp_pure, hr.isEmptyBranch]
    by_cases hb : ch b = .empty
    · rw [if_pos (Tree.isEmpty_iff.mpr hb)]
      refine ih (fun ha => hn fun c hc => ?_) fun l c m q ci h' hbs hl => ?_
      · rcases List.mem_cons.mp hc with rfl | hc
        · exact hb
        · exact ha c hc
      · refine hs (b :: l) c m q ci h' (by rw [hbs, List.cons_append]) fun c' hc' => ?_
        rcases List.mem_cons.mp hc' with rfl | hc'
        · exact hb
        · exact hl c' hc'
    · rw [if_neg fun he => hb (Tree.isEmpty_iff.mp he), wp_bind]
      refine wp_descendThrow_shows hB hr hb fun q h' hq hrd => ?_
      obtain ⟨ci, hi, hcd⟩ := getChildNodeId_ok hd b
      simp only [hi]
      exact hs [] b bs q ci h' rfl (fun _ hc => absurd hc List.not_mem_nil) hb hcd hq hrd

/-! ### The first and the last leaf below a node -/

/-- A tree that is not empty has a leaf, below the root. -/
theorem leaves_ne_nil (hc : Canon radix d t) (ht : t ≠ .empty) : leaves t ≠ [] := by
  obtain ⟨leaf, hl⟩ := Tree.exists_mem hc ht
  exact List.ne_nil_of_mem (mem_leaves.mpr hl)

/-- The first branch that is not empty has the first leaves. -/
theorem leaves_of_first (hs : List.finRange 16 = l ++ b :: m) (hl : ∀ c ∈ l, ch c = .empty) :
    leaves (.inner ch) = leaves (ch b) ++ after ch b := by
  have hm := Tree.digitsAfter_of_split (List.pairwise_lt_finRange 16) hs fun x _ => List.mem_finRange x
  subst hm
  rw [leaves, hs, Tree.flatMap_leaves_split hl]
  rfl

/-- A leaf below a branch is one digit further on its way. -/
theorem Descent.step_leaf (hds : Descent store h t0 leaf.item.key (.inner ch) d stk ea rest)
    (hc : Children radix d ch) (hr : Shows store h (.inner ch) r) (hd : nid.depth = d)
    (hl : leaf ∈ ch b) : Descent store h t0 leaf.item.key (ch b) (d + 1) (⟨r, nid⟩ :: stk)
      (ea ++ before ch b) (after ch b ++ rest) := by
  have hg : leaf.item.key.nibble d = b := (hc b).2 leaf hl
  rw [← hg]
  exact hds.step hr hd

/-- **The first leaf below a node**, with the cursor at it. -/
theorem yields_extremeBelow_first (hB : Backing store backed fetch h) (hr : Shows store h t r) (hd : nid.depth = d)
    (hn : leafDepth < d + n) (hbd : Bounded radix d t) (hv : ∀ ch, t = .inner ch → Children radix d ch)
    (he : leaves t = [] → rest = [])
    (hds : ∀ leaf ∈ t, ∃ ea, Descent store h t0 leaf.item.key t d stk ea rest) :
    Yields store backed fetch (extremeBelow backed fetch true n r nid stk)
      (fun res h' => AtFirst store h' t0 (leaves t ++ rest) res) h := by
  induction t generalizing h r nid d n stk rest with
  | empty => exact hr.elim
  | leaf leaf =>
    obtain _ | n := n
    · have := nid.depth_le
      omega
    obtain ⟨ea, hw⟩ := hds leaf rfl
    rw [extremeBelow, Yields.deref_bind, if_pos hr.isLeaf]
    exact ⟨.refl hB, r, rfl, nid, stk, d, ea, rfl, hr, hw⟩
  | inner ch ih =>
    obtain _ | n := n
    · have := nid.depth_le
      omega
    have hc := hv ch rfl
    rw [extremeBelow, Yields.deref_bind, if_neg hr.not_isLeaf, if_pos rfl, nextChildInOrder, branchesFrom_zero, Yields, wp_bind]
    refine wp_firstChildIn hB hr (hd ▸ hbd.1) (fun hm => ?_) fun l b m q ci h' hs hl hb hcd hq hrd => ?_
    · have hi : leaves (.inner ch) = [] := Tree.flatMap_leaves_empty hm
      rw [he hi, hi]
      exact ⟨.refl hB, rfl⟩
    · have hcn := (hc b).1
      rw [leaves_of_first hs hl, List.append_assoc]
      refine (ih b hrd.backing hq (by omega) (by omega) (hbd.2 b) (fun gr heq => (heq ▸ hcn).children)
        (fun hi => absurd hi (leaves_ne_nil hcn hb)) fun leaf hf => ?_).after hrd
      obtain ⟨ea, hw⟩ := hds leaf ⟨b, hf⟩
      exact ⟨_, (hw.mono hrd.shows).step_leaf hc (hrd.shows _ _ hr) hd hf⟩

/-- What is below the new entries of a stack plays no part. -/
theorem extremeBelow_append (forward : Bool) (n : ℕ) (r : Ref) (nid : SHAMapNodeId) (new : Stack) (stk : Stack) :
    extremeBelow backed fetch forward n r nid (new ++ stk) = (do
      let (leaf, new) ← extremeBelow backed fetch forward n r nid new
      return (leaf, new ++ stk)) := by
  induction n generalizing r nid new with
  | zero => rfl
  | succ n ih =>
    rw [extremeBelow, extremeBelow, Prog.bind_assoc_eq]
    congr 1
    funext nd
    split
    · rfl
    · rw [Prog.bind_assoc_eq]
      congr 1
      funext next
      cases next with
      | none => rfl
      | some x => exact ih x.1 x.2 (⟨r, nid⟩ :: new)

/-- The last of some branches that is not empty has the last leaves. -/
theorem flatMap_leaves_of_last (hs : bs.reverse = l ++ b :: m) (hl : ∀ c ∈ l, ch c = .empty) :
    ∃ fr, bs.flatMap (fun c => leaves (ch c)) = fr ++ leaves (ch b) := by
  have ha : bs = m.reverse ++ b :: l.reverse := by
    rw [← List.reverse_reverse bs, hs]
    simp
  refine ⟨m.reverse.flatMap fun c => leaves (ch c), ?_⟩
  rw [ha, List.flatMap_append, List.flatMap_cons,
    Tree.flatMap_leaves_empty fun c hc => hl c (List.mem_reverse.mp hc), List.append_nil]

/-- **The last leaf below a node.** -/
theorem yields_extremeBelow_last (hB : Backing store backed fetch h) (hr : Shows store h t r) (hd : nid.depth = d)
    (hn : leafDepth < d + n) (hbd : Bounded radix d t) (hlv : ∀ ch, t = .inner ch → Children radix d ch) :
    Yields store backed fetch (extremeBelow backed fetch false n r nid stk)
      (fun res h' => IsLeaf store h' (leaves t).getLast? res.1) h := by
  induction t generalizing h r nid d n stk with
  | empty => exact hr.elim
  | leaf leaf =>
    obtain _ | n := n
    · have := nid.depth_le
      omega
    rw [extremeBelow, Yields.deref_bind, if_pos hr.isLeaf]
    exact ⟨.refl hB, r, rfl, hr⟩
  | inner ch ih =>
    obtain _ | n := n
    · have := nid.depth_le
      omega
    rw [extremeBelow, Yields.deref_bind, if_neg hr.not_isLeaf, if_neg Bool.false_ne_true, previousChildInOrder,
      branchesDownFrom_all, Yields, wp_bind]
    refine wp_firstChildIn hB hr (hd ▸ hbd.1) (fun he => ?_) fun l b m q ci h' hs hl hb hcd hq hrd => ?_
    · have hi : leaves (.inner ch) = [] :=
        Tree.flatMap_leaves_empty fun b hb => he b (List.mem_reverse.mpr hb)
      rw [hi]
      exact ⟨.refl hB, rfl⟩
    · have hc := (hlv ch rfl b).1
      obtain ⟨fr, hv⟩ := flatMap_leaves_of_last hs hl
      rw [leaves, hv, List.getLast?_append_of_ne_nil _ (leaves_ne_nil hc hb)]
      exact (ih b hrd.backing hq (by omega) (by omega) (hbd.2 b) fun gr heq => (heq ▸ hc).children).after hrd

/-! ### Going on from a node of the stack -/

variable (h₀ : CanonicalRoot t0) (hB : Backing store backed fetch h)

include h₀ hB

section

variable {k : Option (Ref × SHAMapNodeId) → HeapM TraversalError α} {P : α → Heap → Prop}
  (hds : Descent store h t0 id (.inner ch) d stk ea rest) (hr : Shows store h (.inner ch) r)
  (hd : nid.depth = d)

include hds hr hd

/-- **The branches after an identifier's**: all are empty, or the first leaf below them is found, with the cursor
at it. -/
theorem yields_nextBranch (hno : after ch (id.nibble d) = [] → Yields store backed fetch (k none) P h)
    (ho : ∀ q ci h', Yields store backed fetch (firstBelow backed fetch q ci (⟨r, nid⟩ :: stk))
        (fun res h'' => AtFirst store h'' t0 (after ch (id.nibble d) ++ rest) res) h' →
      after ch (id.nibble d) ≠ [] → Yields store backed fetch (k (some (q, ci))) P h') :
    Yields store backed fetch (do
      let branch ← Prog.lift (selectBranch nid id)
      k (← firstChildIn backed fetch r nid (branchesFrom (branch.val + 1)))) P h := by
  obtain ⟨hv, hbd, hu⟩ := hds.level h₀
  have hc := hv ch rfl
  subst hd
  rw [Yields, wp_bind, selectBranch_eq hbd.1, wp_lift_ok, wp_bind, branchesFrom_succ]
  refine wp_firstChildIn hB hr hbd.1 (fun he => ?_) fun l b m q ci h' hs hl hb hcd hq hrd => ?_
  · exact hno (Tree.flatMap_leaves_empty he)
  · have hcn := (hc b).1
    have hne := leaves_ne_nil hcn hb
    have hm := Tree.digitsAfter_of_split (Tree.sorted_digitsAfter _) hs fun x hx =>
      Tree.mem_digitsAfter.mpr ((Tree.mem_digitsAfter.mp (hs ▸ List.mem_append_right l List.mem_cons_self)).trans hx)
    have ha : after ch (id.nibble nid.depth) = leaves (ch b) ++ after ch b := by
      rw [after, hs, Tree.flatMap_leaves_split hl, hm]
      rfl
    rw [ha] at ho
    refine (ho q ci h' ?_ (List.append_ne_nil_of_left_ne_nil hne _)).after hrd
    rw [List.append_assoc]
    refine yields_extremeBelow_first hrd.backing hq hcd (by omega) (hbd.2 b)
      (fun gr heq => (heq ▸ hcn).children) (fun hn => absurd hn hne) fun leaf hf => ?_
    have hsm : ∀ i < nid.depth, leaf.item.key.nibble i = id.nibble i := hu leaf ⟨b, hf⟩
    exact ⟨_, ((hds.congr hsm).mono hrd.shows).step_leaf hc (hrd.shows _ _ hr) rfl hf⟩

/-- **The branches before an identifier's**: all are empty, or the last leaf below them is found. -/
theorem yields_previousBranch (hn : before ch (id.nibble d) = [] → Yields store backed fetch (k none) P h)
    (hs : ∀ q ci h', Yields store backed fetch (lastBelow backed fetch q ci [])
        (fun res h'' => IsLeaf store h'' (before ch (id.nibble d)).getLast? res.1) h' →
      before ch (id.nibble d) ≠ [] → Yields store backed fetch (k (some (q, ci))) P h') :
    Yields store backed fetch (do
      let branch ← Prog.lift (selectBranch nid id)
      k (← firstChildIn backed fetch r nid (branchesDownFrom branch.val))) P h := by
  obtain ⟨hlv, hbd, -⟩ := hds.level h₀
  subst hd
  rw [Yields, wp_bind, selectBranch_eq hbd.1, wp_lift_ok, wp_bind, branchesDownFrom_val]
  refine wp_firstChildIn hB hr hbd.1 (fun he => ?_) fun l b m q ci h' hbs hl hb hcd hq hrd => ?_
  · exact hn (Tree.flatMap_leaves_empty fun b hb => he b (List.mem_reverse.mpr hb))
  · have hc := (hlv ch rfl b).1
    have hne := leaves_ne_nil hc hb
    obtain ⟨fr, hv⟩ := flatMap_leaves_of_last hbs hl
    have hf : before ch (id.nibble nid.depth) = fr ++ leaves (ch b) := hv
    rw [hf, List.getLast?_append_of_ne_nil _ hne] at hs
    refine (hs q ci h' ?_ (List.append_ne_nil_of_right_ne_nil _ hne)).after hrd
    exact yields_extremeBelow_last hrd.backing hq hcd (by omega) (hbd.2 b) fun gr heq => (heq ▸ hc).children

end

/-- **The next item** is the first of those after the cursor. -/
theorem yields_peekNextLoop (hds : Descent store h t0 id t d stk ea rest) :
    Yields store backed fetch (peekNextLoop backed fetch id stk) (fun res h' => AtFirst store h' t0 rest res) h := by
  induction hds with
  | root => exact ⟨.refl hB, rfl⟩
  | @step ch d stk ea rest r nid hds hr hd ih =>
    rw [peekNextLoop, Yields.deref_bind, if_pos hr.isInner]
    refine yields_nextBranch h₀ hB hds hr hd (fun hn => ?_) fun q ci h' hf _ => hf
    rw [hn]
    exact ih

theorem yields_peekNextItem (ha : AtLeaf store h t0 leaf rest q stk) :
    Yields store backed fetch (peekNextItem backed fetch leaf.item.key stk)
      (fun res h' => AtFirst store h' t0 rest res) h := by
  obtain ⟨nid, stack', d, ea, rfl, hq, hds⟩ := ha
  rw [peekNextItem, Yields.deref_bind, if_pos hq.isLeaf]
  exact yields_peekNextLoop h₀ hB hds

/-! ### The walk towards an identifier -/

variable (store) in
/-- Where a walk ends: at a leaf, or at an empty branch. -/
inductive WalkEnds (h : Heap) (t0 : MapTree) (id : Uint256) : Stack → Prop where
  | leaf {leaf : Leaf} {q : Ref} {nodeId : SHAMapNodeId} {stack : Stack} {d : ℕ} {earlier rest : List Leaf}
      (hq : Shows store h (.leaf leaf) q) (hds : Descent store h t0 id (.leaf leaf) d stack earlier rest) :
      WalkEnds h t0 id (⟨q, nodeId⟩ :: stack)
  | empty {stack : Stack} {d : ℕ} {earlier rest : List Leaf}
      (hds : Descent store h t0 id .empty d stack earlier rest) : WalkEnds h t0 id stack

theorem yields_walkLoop (hr : Shows store h t r) (hd : nid.depth = d) (hn : leafDepth < d + n)
    (hds : Descent store h t0 id t d stk ea rest) :
    Yields store backed fetch (walkLoop id backed fetch n r nid)
      (fun res h' => WalkEnds store h' t0 id (res.2.reverse ++ stk)) h := by
  induction t generalizing h r nid d n stk ea rest with
  | empty => exact hr.elim
  | leaf leaf =>
    obtain _ | n := n
    · have := nid.depth_le
      omega
    rw [walkLoop, Yields.deref_bind, hr.leaf_node.1]
    exact ⟨.refl hB, .leaf hr hds⟩
  | inner ch ih =>
    obtain _ | n := n
    · have := nid.depth_le
      omega
    obtain ⟨-, hbd, -⟩ := hds.level h₀
    subst hd
    simp only [walkLoop, Yields, deref, wp_bind, wp_read, wp_pure, hr.isInner, if_true,
      selectBranch_eq hbd.1, wp_lift_ok, hr.isEmptyBranch]
    have hp := hds.step hr rfl
    by_cases hb : ch (id.nibble nid.depth) = .empty
    · rw [if_pos (Tree.isEmpty_iff.mpr hb)]
      rw [hb] at hp
      exact ⟨.refl hB, .empty hp⟩
    · rw [if_neg fun he => hb (Tree.isEmpty_iff.mp he), wp_bind]
      refine wp_descendThrow_shows hB hr hb fun q h' hq hrd => ?_
      obtain ⟨ci, hid, hcd⟩ := getChildNodeId_ok hbd.1 (id.nibble nid.depth)
      simp only [hid, wp_bind, wp_pure]
      refine wp_prefetchNextChild (fun hi => ?_) ?_
      · -- an inner child has a digit to read
        have hl := hbd.2 (id.nibble nid.depth)
        cases hc : ch (id.nibble nid.depth) with
        | empty => exact absurd hc hb
        | leaf leaf =>
          rw [hc] at hq
          rw [hq.leaf_node.1] at hi
          cases hi
        | inner gr =>
          rw [hc] at hl
          exact hcd ▸ hl.1
      · refine wp_imp (ih _ hrd.backing hq hcd (by omega) (hp.mono hrd.shows)) (fun res h'' hs => ?_)
        refine ⟨hrd.trans hs.1, ?_⟩
        simpa using hs.2

/-! ### Bounds -/

omit h₀ hB in
theorem isLeaf_of_atFirst {res : Option Ref × Stack} (ha : AtFirst store h t0 ls res) :
    IsLeaf store h ls.head? res.1 := by
  cases ls with
  | nil => exact ha
  | cons leaf ls =>
    obtain ⟨q, hq, nid, stack', d, ea, -, hs, -⟩ := ha
    exact ⟨q, hq, hs⟩

theorem yields_upperBoundLoop_descent (hds : Descent store h t0 id t d stk ea rest) :
    Yields store backed fetch (upperBoundLoop backed fetch id stk)
      (fun res h' => IsLeaf store h' rest.head? res) h := by
  induction hds with
  | root => exact ⟨.refl hB, rfl⟩
  | @step ch d stk ea rest r nid hds hr hd ih =>
    rw [upperBoundLoop, Yields.deref_bind, if_neg hr.not_isLeaf]
    refine yields_nextBranch h₀ hB hds hr hd (fun hn => ?_) fun q ci h' hf _ => ?_
    · rw [hn]
      exact ih
    · rw [firstBelow, ← List.nil_append (_ :: stk), extremeBelow_append, Yields, wp_bind] at hf
      rw [Yields, wp_bind]
      refine wp_imp hf fun res h'' he => ?_
      have hl := isLeaf_of_atFirst he.2
      exact ⟨he.1, hl⟩

variable (hed : WalkEnds store h t0 id stk)

include hed

/-- **The upper bound** is the first leaf greater than the identifier. -/
theorem yields_upperBoundLoop : Yields store backed fetch (upperBoundLoop backed fetch id stk)
    (fun res h' => IsLeaf store h' ((leaves t0).filter (id < ·.item.key)).head? res) h := by
  cases hed with
  | empty hds =>
    rw [hds.filter_above h₀]
    exact yields_upperBoundLoop_descent h₀ hB hds
  | @leaf leaf q nid stk d ea rest hq hds =>
    rw [hds.filter_above h₀]
    simp only [upperBoundLoop, Yields.deref_bind, hq.isLeaf, hq.leaf_node.2, if_true, Option.any_some, leaves,
      List.filter_cons, List.filter_nil]
    split
    · exact ⟨.refl hB, q, rfl, hq⟩
    · exact yields_upperBoundLoop_descent h₀ hB hds

omit hed in
theorem yields_lowerBoundLoop_descent (hds : Descent store h t0 id t d stk ea rest) :
    Yields store backed fetch (lowerBoundLoop backed fetch id stk)
      (fun res h' => IsLeaf store h' ea.getLast? res) h := by
  induction hds with
  | root => exact ⟨.refl hB, rfl⟩
  | @step ch d stk ea rest r nid hds hr hd ih =>
    rw [lowerBoundLoop, Yields.deref_bind, if_neg hr.not_isLeaf]
    refine yields_previousBranch h₀ hB hds hr hd (fun hn => ?_) fun q ci h' hl he => ?_
    · rw [hn, List.append_nil]
      exact ih
    · rw [List.getLast?_append_of_ne_nil _ he, Yields, wp_bind]
      exact hl

/-- **The lower bound** is the last leaf less than the identifier. -/
theorem yields_lowerBoundLoop : Yields store backed fetch (lowerBoundLoop backed fetch id stk)
    (fun res h' => IsLeaf store h' ((leaves t0).filter (·.item.key < id)).getLast? res) h := by
  cases hed with
  | empty hds =>
    rw [hds.filter_below h₀, leaves, List.filter_nil, List.append_nil]
    exact yields_lowerBoundLoop_descent h₀ hB hds
  | @leaf leaf q nid stk d ea rest hq hds =>
    rw [hds.filter_below h₀]
    simp only [lowerBoundLoop, Yields.deref_bind, hq.isLeaf, hq.leaf_node.2, if_true, Option.any_some, leaves,
      List.filter_cons, List.filter_nil]
    split
    · rw [List.getLast?_append_of_ne_nil _ (List.cons_ne_nil _ _)]
      exact ⟨.refl hB, q, rfl, hq⟩
    · rw [List.append_nil]
      exact yields_lowerBoundLoop_descent h₀ hB hds

omit hed

/-! ### Following the items -/

variable (store) in
/-- Nodes of these leaves, in this order. -/
def AreLeaves (h : Heap) : List Leaf → List Ref → Prop := List.Forall₂ fun leaf q => Shows store h (.leaf leaf) q

omit h₀ hB in
theorem AtLeaf.shows (ha : AtLeaf store h t0 leaf rest q stk) : Shows store h (.leaf leaf) q := by
  obtain ⟨-, -, -, -, -, hq, -⟩ := ha
  exact hq

omit h₀ hB in
theorem yields_leafKey {f : Uint256 → HeapM TraversalError α} {P : α → Heap → Prop}
    (ha : AtLeaf store h t0 leaf rest q stk) :
    Yields store backed fetch (leafKey q >>= f) P h ↔ Yields store backed fetch (f leaf.item.key) P h := by
  simp [Yields, leafKey, deref, ha.shows.leaf_node.2]

/-- **Collecting** takes the leaves after the cursor, up to a limit. -/
theorem yields_collectLoop (hat : AtLeaf store h t0 leaf rest q stk) (n : ℕ) :
    Yields store backed fetch (collectLoop backed fetch n leaf.item.key stk)
      (fun res h' => AreLeaves store h' (rest.take n) res) h := by
  induction n generalizing h leaf rest q stk with
  | zero => exact ⟨.refl hB, .nil⟩
  | succ n ih =>
    refine (yields_peekNextItem h₀ hB hat).bind fun ⟨next, stack'⟩ h1 hrd hf => ?_
    cases rest with
    | nil =>
      obtain rfl : next = none := hf
      exact ⟨.refl hrd.backing, .nil⟩
    | cons lf' rest =>
      obtain ⟨q', hn, ha⟩ := hf
      obtain rfl : next = some q' := hn
      refine (yields_leafKey ha).mpr ((ih hrd.backing ha).bind fun refs h2 hre he => ?_)
      exact ⟨.refl hre.backing, .cons (hre.shows _ _ ha.shows) he⟩

variable {turns : ℕ}

/-- **Following the items** visits all those after the cursor, and stops. -/
theorem yields_visitLoop {next : Option Ref} (ha : AtFirst store h t0 ls (next, stk)) (hu : ls.length < turns) :
    Yields store backed fetch (visitLoop backed fetch turns next stk) (fun res h' => AreLeaves store h' ls res) h := by
  induction turns generalizing h ls next stk with
  | zero => exact absurd hu (not_lt_zero _)
  | succ turns ih =>
    cases ls with
    | nil =>
      obtain rfl : next = none := ha
      exact ⟨.refl hB, .nil⟩
    | cons leaf ls =>
      obtain ⟨q, hq, ha⟩ := ha
      obtain rfl : next = some q := hq
      refine (yields_leafKey ha).mpr ((yields_peekNextItem h₀ hB ha).bind fun res h1 hrd hf => ?_)
      refine (ih hrd.backing hf (lt_of_succ_lt_succ hu)).bind fun refs h2 hre he => ?_
      exact ⟨.refl hre.backing, .cons (hre.shows _ _ (hrd.shows _ _ ha.shows)) he⟩

/-! ### Seeking -/

variable (store) in
/-- A cursor at the first of some leaves, or nothing. -/
def Sought (h : Heap) (t0 : MapTree) : List Leaf → Option (Ref × Stack) → Prop
  | [], res => res = none
  | leaf :: rest, res => ∃ q stack, res = some (q, stack) ∧ AtLeaf store h t0 leaf rest q stack

theorem yields_seekLoop_descent (hds : Descent store h t0 id t d stk ea rest) (hu : d < turns) :
    Yields store backed fetch (seekLoop backed fetch id turns stk) (fun res h' => Sought store h' t0 rest res) h := by
  induction hds generalizing turns with
  | root =>
    obtain ⟨turns, rfl⟩ := exists_eq_succ_of_ne_zero (ne_of_gt hu)
    exact ⟨.refl hB, rfl⟩
  | @step ch d stk ea rest r nid hds hr hd ih =>
    obtain ⟨turns, rfl⟩ := Nat.exists_eq_succ_of_ne_zero (Nat.ne_zero_of_lt hu)
    rw [seekLoop, Yields.deref_bind, if_neg hr.not_isLeaf]
    refine yields_nextBranch h₀ hB hds hr hd (fun hn => ?_) fun q ci h' hf he => ?_
    · rw [hn]
      exact ih (lt_of_succ_lt_succ hu)
    · obtain ⟨leaf, ls, ha⟩ := List.exists_cons_of_ne_nil he
      rw [ha] at hf ⊢
      refine hf.bind fun ⟨found, stack'⟩ h'' hrd ⟨q', hq, hat⟩ => ?_
      obtain rfl : found = some q' := hq
      exact ⟨.refl hrd.backing, q', stack', rfl, hat⟩

/-- **Seeking** puts the cursor at the first leaf greater than the identifier. -/
theorem yields_seekLoop (hed : WalkEnds store h t0 id stk) (hu : leafDepth + 1 < turns) :
    Yields store backed fetch (seekLoop backed fetch id turns stk)
      (fun res h' => Sought store h' t0 ((leaves t0).filter (id < ·.item.key)) res) h := by
  cases hed with
  | empty hds =>
    have hd := hds.depth_le h₀
    rw [hds.filter_above h₀]
    exact yields_seekLoop_descent h₀ hB hds (by omega)
  | @leaf leaf q nid stk d ea rest hq hds =>
    have hd := hds.depth_le h₀
    obtain _ | turns := turns
    · omega
    rw [hds.filter_above h₀]
    simp only [seekLoop, Yields.deref_bind, hq.isLeaf, hq.leaf_node.2, if_true, Option.any_some, leaves,
      List.filter_cons, List.filter_nil]
    split
    · have hs : ∀ i < d, leaf.item.key.nibble i = id.nibble i := (hds.level h₀).2.2 leaf rfl
      exact ⟨.refl hB, q, _, rfl, nid, stk, d, ea, rfl, hq, hds.congr hs⟩
    · exact yields_seekLoop_descent h₀ hB hds (by omega)

/-! ### The calls -/

section

variable {root : Ref} (hr : Shows store h t0 root)

include hr

theorem yields_walkTowardsKeyWithPath (id : Uint256) :
    Yields store backed fetch (walkTowardsKeyWithPath root id backed fetch)
      (fun res h' => WalkEnds store h' t0 id res.2.reverse) h := by
  refine wp_imp (yields_walkLoop h₀ hB hr rfl (by simp [SHAMapNodeId.root]) .root) (fun res h' he => ?_)
  simp only [List.append_nil] at he
  exact he

theorem yields_upperBound (id : Uint256) : Yields store backed fetch (upperBound backed fetch root id)
    (fun res h' => IsLeaf store h' ((leaves t0).filter (id < ·.item.key)).head? res) h :=
  (yields_walkTowardsKeyWithPath h₀ hB hr id).bind fun _ _ hrd hed => yields_upperBoundLoop h₀ hrd.backing hed

theorem yields_lowerBound (id : Uint256) : Yields store backed fetch (lowerBound backed fetch root id)
    (fun res h' => IsLeaf store h' ((leaves t0).filter (·.item.key < id)).getLast? res) h :=
  (yields_walkTowardsKeyWithPath h₀ hB hr id).bind fun _ _ hrd hed => yields_lowerBoundLoop h₀ hrd.backing hed

theorem yields_peekFirstItem : Yields store backed fetch (peekFirstItem backed fetch root)
    (fun res h' => AtFirst store h' t0 (leaves t0) res) h := by
  have hrt : ∀ key, Descent store h t0 key t0 0 [] [] [] := fun _ => .root
  obtain ⟨hv, hb, -⟩ := (hrt 0).level h₀
  refine (yields_extremeBelow_first hB hr rfl (by simp [SHAMapNodeId.root]) hb hv (fun _ => rfl)
    fun leaf _ => ⟨[], hrt leaf.item.key⟩).bind fun ⟨first, stk⟩ h' hrd ha => ?_
  rw [List.append_nil] at ha
  cases hl : leaves t0 with
  | nil =>
    rw [hl] at ha
    obtain rfl : first = none := ha
    exact ⟨.refl hrd.backing, rfl⟩
  | cons leaf ls =>
    rw [hl] at ha
    obtain ⟨q, hq, ha⟩ := ha
    obtain rfl : first = some q := hq
    exact ⟨.refl hrd.backing, q, rfl, ha⟩

theorem yields_visitItems (hu : (leaves t0).length < turns) :
    Yields store backed fetch (visitItems backed fetch turns root)
      (fun res h' => AreLeaves store h' (leaves t0) res) h :=
  (yields_peekFirstItem h₀ hB hr).bind fun _ _ hrd ha => yields_visitLoop h₀ hrd.backing ha hu

theorem yields_iterateFrom (start : Uint256) (limit : ℕ) (hu : leafDepth + 1 < turns) :
    Yields store backed fetch (iterateFrom backed fetch turns root start limit)
      (fun res h' => AreLeaves store h' (((leaves t0).filter (start < ·.item.key)).take limit) res) h := by
  rw [iterateFrom]
  split
  · next hz =>
    rw [hz]
    exact ⟨.refl hB, .nil⟩
  · next hz =>
    obtain ⟨limit, rfl⟩ := exists_eq_succ_of_ne_zero hz
    refine (yields_walkTowardsKeyWithPath h₀ hB hr start).bind fun _ h1 ha hed => ?_
    refine (yields_seekLoop h₀ ha.backing hed hu).bind fun found h2 hre hs => ?_
    cases hl : (leaves t0).filter (start < ·.item.key) with
    | nil =>
      rw [hl] at hs
      obtain rfl : found = none := hs
      exact ⟨.refl hre.backing, .nil⟩
    | cons leaf rest =>
      rw [hl] at hs
      obtain ⟨q, stk, rfl, hat⟩ := hs
      refine (yields_leafKey hat).mpr ((yields_collectLoop h₀ hre.backing hat limit).bind fun refs h3 he hf => ?_)
      exact ⟨.refl he.backing, .cons (he.shows _ _ hat.shows) hf⟩

end

omit h₀ hB

/-! ### Exactness -/

/-- The leaf with the smallest key greater than an identifier, if there is one. -/
def NextAbove (t : MapTree) (id : Uint256) : Option Leaf → Prop
  | none => ∀ other ∈ t, ¬ id < other.item.key
  | some leaf => leaf ∈ t ∧ id < leaf.item.key ∧ ∀ other ∈ t, id < other.item.key → leaf.item.key ≤ other.item.key

/-- The leaf with the largest key smaller than an identifier, if there is one. -/
def NextBelow (t : MapTree) (id : Uint256) : Option Leaf → Prop
  | none => ∀ other ∈ t, ¬ other.item.key < id
  | some leaf => leaf ∈ t ∧ leaf.item.key < id ∧ ∀ other ∈ t, other.item.key < id → other.item.key ≤ leaf.item.key

section

variable (hsd : items.Pairwise fun a b => a.item.key < b.item.key) (hmem : ∀ leaf, leaf ∈ items ↔ leaf ∈ t)

include hsd hmem

theorem nextAbove_head (id : Uint256) : NextAbove t id (items.filter (id < ·.item.key)).head? := by
  have hf : ∀ leaf, leaf ∈ items.filter (id < ·.item.key) ↔ leaf ∈ t ∧ id < leaf.item.key := by
    simp [hmem]
  have hp := hsd.filter (id < ·.item.key)
  cases hs : items.filter (id < ·.item.key) with
  | nil =>
    intro other ho hlt
    have := (hf other).mpr ⟨ho, hlt⟩
    rw [hs] at this
    cases this
  | cons leaf ls =>
    simp only [hs] at hf hp
    obtain ⟨hlf, hlt⟩ := (hf leaf).mp List.mem_cons_self
    refine ⟨hlf, hlt, fun other ho hl => ?_⟩
    rcases List.mem_cons.mp ((hf other).mpr ⟨ho, hl⟩) with rfl | he
    · exact le_rfl
    · exact le_of_lt ((List.pairwise_cons.mp hp).1 other he)

theorem nextBelow_getLast (id : Uint256) : NextBelow t id (items.filter (·.item.key < id)).getLast? := by
  have hf : ∀ leaf, leaf ∈ items.filter (·.item.key < id) ↔ leaf ∈ t ∧ leaf.item.key < id := by
    simp [hmem]
  have hp := hsd.filter (·.item.key < id)
  rcases List.eq_nil_or_concat (items.filter (·.item.key < id)) with hs | ⟨ls, leaf, hs⟩
  · rw [hs]
    intro other ho hlt
    have := (hf other).mpr ⟨ho, hlt⟩
    rw [hs] at this
    cases this
  · rw [List.concat_eq_append] at hs
    rw [hs] at hp ⊢
    simp only [hs] at hf
    rw [List.getLast?_append_of_ne_nil _ (List.cons_ne_nil _ _)]
    obtain ⟨hlf, hlt⟩ := (hf leaf).mp (by simp)
    refine ⟨hlf, hlt, fun other ho hl => ?_⟩
    rcases List.mem_append.mp ((hf other).mpr ⟨ho, hl⟩) with he | hn
    · exact le_of_lt ((List.pairwise_append.mp hp).2.2 other he leaf List.mem_cons_self)
    · rw [List.mem_singleton.mp hn]
      exact le_rfl

end

end Xrpld.SHAMap
