import Xrpld.Lib.KeyedDiff
import Xrpld.Lib.OrderedRadix
import Xrpld.SHAMap.CompareHashes

/-!
# A comparison finds the difference

`compare` records the keys on which two maps differ, each once and with the items of both, until there
are `max_count` of them. The proof follows what is still to be recorded: at every moment the entries
recorded, with the differences of the pairs on the stack, are the difference of the two maps in some
order (`Recorded`).
-/

namespace Xrpld.SHAMap

open KeyedDiff (Keyed diff mirror)
open List Option Xrpld.Tree Prod SHAMapItem KeyedDiff

/-! ### The difference of two trees -/

variable {t u : MapTree} {d fuel turns : ℕ} {ch ch' : Branch → MapTree} {E : TraversalError → Comparison → Prop}
  {F : Fault → Prop} {todo tot : Delta} {maxCount : ℤ} {s : Comparison} {b : Branch} {stk : List Ref}
  {leftBacked rightBacked : Bool} {leftFetch rightFetch : Fetch} {left right : Ref}

/-- The items of a map. -/
def items (t : MapTree) : List SHAMapItem := (Tree.leaves t).map Leaf.item

/-- The keys on which two maps differ, with the items of both. -/
def treeDiff (t u : MapTree) : Delta := diff SHAMapItem.key (items t) (items u)

/-- The item of a key. -/
def itemOf (t : MapTree) (key : Uint256) : Option SHAMapItem := (Tree.lookup radix key t 0).map Leaf.item

theorem items_inner (ch : Branch → MapTree) : items (.inner ch) = (finRange 16).flatMap fun b => items (ch b) := by
  rw [items, leaves, map_flatMap]
  rfl

theorem size_inner (ch : Branch → MapTree) : (inner ch).size = 1 + ((finRange 16).map fun b => (ch b).size).sum := rfl

theorem mem_items {it : SHAMapItem} : it ∈ items t ↔ ∃ leaf ∈ t, leaf.item = it := by
  simp [items]

theorem keyed_items (ht : t.Placed radix d) : Keyed SHAMapItem.key (items t) := by
  have h := nodup_keys_leaves ht
  rw [Keyed, items, List.map_map]
  exact h

/-- What a key has in the list of items is what a search finds. -/
theorem find_items (ht : t.Placed radix 0) (key : Uint256) :
    KeyedDiff.find SHAMapItem.key key (items t) = itemOf t key := by
  refine ext fun it => ?_
  rw [find_eq_some (keyed_items ht), mem_items, itemOf, map_eq_some_iff]
  constructor
  · rintro ⟨⟨leaf, hf, rfl⟩, hk⟩
    exact ⟨leaf, (lookup_eq_some ht).mpr ⟨hf, hk⟩, rfl⟩
  · rintro ⟨leaf, hl, rfl⟩
    obtain ⟨hf, hk⟩ := (lookup_eq_some ht).mp hl
    exact ⟨⟨leaf, hf, rfl⟩, hk⟩

/-- **Two inner trees differ where their branches do.** -/
theorem treeDiff_inner (ht : (inner ch).Placed radix d) (hu : (inner ch').Placed radix d) :
    (treeDiff (.inner ch) (.inner ch')).Perm ((finRange 16).flatMap fun b => treeDiff (ch b) (ch' b)) := by
  have he : ∀ {c : Branch → MapTree}, (inner c).Placed radix d → ∀ b ∈ finRange 16, ∀ it ∈ items (c b),
      it.key.nibble d = b := by
    intro c hc b _ it hi
    obtain ⟨leaf, hf, rfl⟩ := mem_items.mp hi
    exact (hc b).2 leaf hf
  have hl := keyed_items ht
  have hr := keyed_items hu
  rw [items_inner] at hl hr
  rw [treeDiff, items_inner, items_inner]
  exact diff_flatMap (fun k : Uint256 => k.nibble d) (nodup_finRange 16) (he ht) (he hu) hl hr
    (fun b _ => keyed_items (ht b).1) fun b _ => keyed_items (hu b).1

/-! ### What is recorded -/

/-- **Recorded so far**: with what is still to come, the whole difference, and there is room for more. -/
structure Recorded (total : Delta) (maxCount : ℤ) (todo : Delta) (s : Comparison) : Prop where
  perm : (s.differences ++ todo).Perm total
  count : s.maxCount + s.differences.length = maxCount
  room : s.differences = [] ∨ 0 < s.maxCount

/-- As many differences are recorded as may be, and one in any case. -/
structure Stopped (total : Delta) (maxCount : ℤ) (s : Comparison) : Prop where
  perm : ∃ todo, (s.differences ++ todo).Perm total
  full : (s.differences.length : ℤ) = max maxCount 1

/-- How a part of the comparison ends: it may go on, or it may not. -/
def Outcome (total : Delta) (maxCount : ℤ) (todo : Delta) (go : Bool) (s : Comparison) : Prop :=
  if go then Recorded total maxCount todo s else Stopped total maxCount s

/-- The entries of the first map, or those of the second seen from it. -/
def orient (isFirstMap : Bool) (e : Uint256 × DeltaItem) : Uint256 × DeltaItem := if isFirstMap then e else mirror e

theorem orient_mk (fst : Bool) (key : Uint256) (it other : Option SHAMapItem) :
    orient fst (key, it, other) = (key, deltaItem fst it other) := by
  cases fst <;> rfl

variable {Q : Bool → Comparison → Prop}

section

variable {todo' : Delta}

theorem Recorded.of_perm (hs : Recorded tot maxCount todo s) (h : todo'.Perm todo) :
    Recorded tot maxCount todo' s :=
  ⟨(h.append_left _).trans hs.perm, hs.count, hs.room⟩

/-- What is recorded does not depend on the heap. -/
theorem Recorded.heap (hs : Recorded tot maxCount todo s) (h : Heap) : Recorded tot maxCount todo { s with heap := h } :=
  ⟨hs.perm, hs.count, hs.room⟩

/-- **A difference is recorded**: its key is new, so there is one entry more. -/
theorem wp_recordDifference (hT : (tot.map fst).Nodup) (hmin : i32Min < maxCount) {key : Uint256}
    {it : DeltaItem} (hs : Recorded tot maxCount ((key, it) :: todo) s)
    (hQ : ∀ go s', s'.heap = s.heap → Outcome tot maxCount todo go s' → Q go s') :
    wp (recordDifference key it) Q E F s := by
  have he : key ∉ s.differences.map fst := by
    have hd : ((s.differences ++ (key, it) :: todo).map fst).Nodup := (hs.perm.map _).nodup_iff.mpr hT
    rw [map_append, map_cons, nodup_append] at hd
    exact fun hme => hd.2.2 _ hme _ mem_cons_self rfl
  have hne : s.maxCount ≠ i32Min := by
    intro hq
    rcases hs.room with hn | hp
    · have := hs.count
      rw [hn, hq] at this
      exact absurd this (by simpa using hmin.ne)
    · rw [hq] at hp
      exact absurd hp (by decide)
  simp only [recordDifference, wp_bind, wp_read, wp_ite, wp_abort, wp_update, wp_pure]
  refine ⟨fun hq => absurd hq hne, fun _ => hQ _ _ rfl ?_⟩
  have hpm : ((s.differences ++ [(key, it)]) ++ todo).Perm tot := by
    rw [append_assoc]
    exact hs.perm
  have hc := hs.count
  rw [Outcome]
  split_ifs with hg
  · refine ⟨?_, ?_, .inr (of_decide_eq_true hg)⟩ <;> simp only [Delta.orInsert, if_neg he]
    · exact hpm
    · rw [length_append, length_singleton]
      omega
  · refine ⟨⟨todo, ?_⟩, ?_⟩ <;> simp only [Delta.orInsert, if_neg he]
    · exact hpm
    · have hl : s.maxCount - 1 ≤ 0 := not_lt.mp fun h => hg (decide_eq_true h)
      rw [length_append, length_singleton]
      rcases hs.room with hn | hp
      · rw [hn] at hc ⊢
        simp at hc ⊢
        omega
      · omega

end

/-! ### Walking a tree -/

section

variable (sha : Sha) (store : MapStore)

/-- What going down does to the heap: every node stands for what it stood for, and what is loaded stays. -/
structure Retains (h h' : Heap) : Prop where
  represents : ∀ t r, Represents sha store h t r → Represents sha store h' t r
  loaded : ∀ t r, Represents sha (fun _ => none) h t r → Represents sha (fun _ => none) h' t r

/-- The callback finds every node the store knows, and is asked. -/
def Finds (backed : Bool) (fetch : Fetch) (h : Heap) : Prop :=
  FetchRight sha store h fetch ∧ ∀ hash, store hash ≠ none → backed = true

/-- **A tree that can be walked**: it has its hashes, and its callback finds what is not loaded, or all of it is. -/
structure Walkable (backed : Bool) (fetch : Fetch) (h : Heap) (t : MapTree) (r : Ref) : Prop where
  represents : Represents sha store h t r
  finds : Finds sha store backed fetch h ∨ Represents sha (fun _ => none) h t r

end

variable {sha : Sha} {store : MapStore} {h h' h'' : Heap} {r : Ref} {backed : Bool} {fetch : Fetch}

theorem Retains.refl (h : Heap) : Retains sha store h h := ⟨fun _ _ h => h, fun _ _ h => h⟩

theorem Retains.trans (h1 : Retains sha store h h') (h2 : Retains sha store h' h'') : Retains sha store h h'' :=
  ⟨fun t r hr => h2.represents t r (h1.represents t r hr), fun t r hr => h2.loaded t r (h1.loaded t r hr)⟩

theorem Retains.of_fetchStep (hf : FetchRight sha store h fetch) (hs : FetchStep fetch h h') : Retains sha store h h' :=
  ⟨fun _ _ hr => hr.fetchStep hf hs, fun _ _ hr => hr.fetchStep (fun _ _ _ hu => by cases hu) hs⟩

theorem Finds.retains (hf : Finds sha store backed fetch h) (hk : Retains sha store h h') : Finds sha store backed fetch h' := by
  refine ⟨fun n hash u hu => ?_, hf.2⟩
  obtain ⟨f, he, hr⟩ := hf.1 n hash u hu
  exact ⟨f, he, hk.represents _ _ hr⟩

theorem Walkable.retains (hw : Walkable sha store backed fetch h t r) (hk : Retains sha store h h') :
    Walkable sha store backed fetch h' t r :=
  ⟨hk.represents _ _ hw.represents, hw.finds.imp (fun hf => hf.retains hk) (hk.loaded _ _)⟩

/-- **Going down a branch** that is not empty gives its child. -/
theorem wp_descendExpect (hw : Walkable sha store backed fetch s.heap (.inner ch) r) (hb : ch b ≠ .empty)
    {Q : Ref → Comparison → Prop}
    (hQ : ∀ q h', Retains sha store s.heap h' → Walkable sha store backed fetch h' (ch b) q →
      Q q { s with heap := h' }) : wp (descendExpect r b backed fetch) Q E F s := by
  obtain ⟨hr, hfi⟩ := id hw
  obtain ⟨cw, g, sl, hn, hsl⟩ := hr
  have hi : s.heap.InnerAt r sl := ⟨_, _, _, hn⟩
  simp only [descendExpect, withHeap, wp_bind, wp_zoom]
  rcases hsl b with ⟨-, hem⟩ | ⟨c, hc, -, h0, ⟨rfl, ht⟩ | ⟨q, rfl, hq⟩⟩
  · exact absurd hem hb
  · -- the child is not loaded, so the callback is there
    obtain ⟨hf, ha⟩ : Finds sha store backed fetch s.heap := by
      refine hfi.resolve_right fun hl => ?_
      obtain ⟨_, _, sl', hn', hs⟩ := hl
      obtain rfl : sl' = sl := Heap.InnerAt.unique ⟨_, _, _, hn'⟩ hi
      rcases hs b with ⟨ho, -⟩ | ⟨c, hc', -, -, ⟨-, ho⟩ | ⟨q, rfl, -⟩⟩
      · rw [hc] at ho
        cases ho
      · cases ho
      · rw [hc] at hc'
        cases hc'
    obtain rfl := ha _ (by rw [ht]; exact some_ne_none _)
    obtain ⟨f, hfe, hr⟩ := hf s.heap.calls _ _ ht
    have he := Retains.of_fetchStep hf (.attach hi hc hfe hr.hash_eq)
    rw [wp_descendThrow_fetch hi hc]
    simp only [hfe, hr.hash_eq, if_true]
    exact hQ f _ he ⟨he.represents _ _ hr, .inl (Finds.retains ⟨hf, ha⟩ he)⟩
  · rw [wp_descendThrow_loaded hi hc]
    refine hQ q s.heap (.refl _) ⟨hq, hfi.imp_right fun hl => ?_⟩
    obtain ⟨_, _, sl', hn', hs⟩ := hl
    obtain rfl : sl' = sl := Heap.InnerAt.unique ⟨_, _, _, hn'⟩ hi
    have hbr : Branches sha (fun _ => none) s.heap ch sl' := hs
    exact (hbr.loaded hc).2

variable (hw : Walkable sha store backed fetch h (.inner ch) r)

include hw

theorem Walkable.isInner : (h.node r).isInner := by
  obtain ⟨_, _, _, hn, -⟩ := hw.represents
  rw [hn]
  rfl

theorem Walkable.isEmptyBranch (b : Branch) : (h.node r).isEmptyBranch b ↔ ch b = .empty := by
  obtain ⟨_, _, sl, hn, hs⟩ := hw.represents
  rw [Heap.InnerAt.isEmptyBranch ⟨_, _, _, hn⟩]
  rcases hs b with ⟨ho, he⟩ | ⟨c, hc, hne, -⟩
  · simp [ho, he]
  · simp [hc, hne]

theorem Walkable.getChildHash (b : Branch) : (h.node r).getChildHash b = treeHash sha (ch b) := by
  obtain ⟨_, _, sl, hn, hs⟩ := hw.represents
  rw [Heap.InnerAt.getChildHash ⟨_, _, _, hn⟩]
  exact congrFun (Branches.slotHash_eq hs) b

omit hw in
theorem Walkable.leaf_node {leaf : Leaf} (hw : Walkable sha store backed fetch h (.leaf leaf) r) :
    (h.node r).isInner = false ∧ (h.node r).peekItem = some leaf.item := by
  obtain ⟨_, hn⟩ := hw.represents
  rw [hn]
  exact ⟨rfl, rfl⟩

theorem Walkable.peekItem : (h.node r).peekItem = none := by
  obtain ⟨_, _, _, hn, -⟩ := hw.represents
  rw [hn]
  rfl

omit hw

theorem Represents.size_pos (hr : Represents sha store h t r) : 0 < t.size := by
  cases t with
  | empty => exact hr.elim
  | leaf leaf => exact Nat.one_pos
  | inner ch => exact Nat.lt_of_lt_of_le Nat.one_pos (Nat.le_add_right 1 _)

/-- The trees of the nodes on a stack. -/
abbrev OnStack (sha : List UInt8 → Uint256) (store : SHAMapHash → Option MapTree) (backed : Bool) (fetch : Fetch)
    (h : Heap) : List Ref → List MapTree → Prop :=
  List.Forall₂ fun r t => Walkable sha store backed fetch h t r

variable {ts : List MapTree}

theorem OnStack.retains (hs : OnStack sha store backed fetch h stk ts) (hk : Retains sha store h h') : OnStack sha store backed fetch h' stk ts :=
  List.Forall₂.imp (fun _ _ hw => hw.retains hk) hs

/-- **The children of a node go on the stack.** -/
theorem wp_pushChildren (hw : Walkable sha store backed fetch s.heap (.inner ch) r)
    (hs : OnStack sha store backed fetch s.heap stk ts) (bs : List Branch) {Q : List Ref → Comparison → Prop}
    (hQ : ∀ stack' ts' h', Retains sha store s.heap h' → OnStack sha store backed fetch h' stack' ts' →
      (ts'.flatMap items).Perm (bs.flatMap (fun b => items (ch b)) ++ ts.flatMap items) →
      (ts'.map Tree.size).sum = (bs.map fun b => Tree.size (ch b)).sum + (ts.map Tree.size).sum →
      Q stack' { s with heap := h' }) : wp (pushChildren backed fetch r bs stk) Q E F s := by
  induction bs generalizing s stk ts with
  | nil => exact hQ stk ts s.heap (.refl _) hs (.refl _) (by simp)
  | cons b bs ih =>
    simp only [pushChildren, withHeap, deref, wp_bind, wp_zoom, wp_read, wp_pure, wp_ite, hw.isEmptyBranch]
    refine ⟨fun he => ?_, fun hn => ?_⟩
    · refine ih hw hs fun stack' ts' h' hk hs' hp hz => hQ stack' ts' h' hk hs' ?_ ?_
      · rw [flatMap_cons, he]
        exact hp
      · rw [List.map_cons, List.sum_cons, he, hz]
        simp [Tree.size]
    · refine wp_descendExpect hw hn fun q h1 hk1 hq => ?_
      refine ih (hw.retains hk1) (.cons hq (hs.retains hk1)) fun stack' ts' h' hk hs' hp hz => ?_
      refine hQ stack' ts' h' (hk1.trans hk) hs' ?_ ?_
      · refine hp.trans ?_
        rw [flatMap_cons, flatMap_cons, ← append_assoc]
        exact perm_append_comm.append_right _
      · rw [hz, map_cons, map_cons, sum_cons, sum_cons]
        omega

/-! ### Walking a branch -/

section

variable (hT : (tot.map Prod.fst).Nodup) (hmin : i32Min < maxCount) {other : Option SHAMapItem} {fst : Bool}

/-- The item of the other map, as long as it was not met. -/
def unmet (other : Option SHAMapItem) (emptyBranch : Bool) : List SHAMapItem :=
  if emptyBranch then [] else other.toList

theorem keyed_unmet (other : Option SHAMapItem) (eb : Bool) : Keyed key (unmet other eb) := by
  cases eb <;> cases other <;> simp [unmet, Keyed]

include hT hmin

/-- **A walk records** how the trees on its stack differ from the item of the other map; at its end what is left is that
item, unless it was met. -/
theorem wp_walkBranchLoop {eb : Bool} (hs : OnStack sha store backed fetch s.heap stk ts)
    (hke : Keyed key (ts.flatMap items)) (ho : eb = false → other.isSome)
    (hfu : (ts.map Tree.size).sum < fuel) (hr : Recorded tot maxCount
      ((diff key (ts.flatMap items) (unmet other eb)).map (orient fst) ++ todo) s)
    {Q : Option Bool → Comparison → Prop}
    (hsp : ∀ s', Retains sha store s.heap s'.heap → Stopped tot maxCount s' → Q none s')
    (hd : ∀ e s', Retains sha store s.heap s'.heap → (e = false → other.isSome) →
      Recorded tot maxCount ((diff key [] (unmet other e)).map (orient fst) ++ todo) s' →
      Q (some e) s') : wp (walkBranchLoop backed fetch other fst fuel eb stk) Q E F s := by
  induction fuel generalizing s eb stk ts with
  | zero => omega
  | succ fuel ih =>
    cases hs with
    | nil => exact hd eb s (.refl _) ho hr
    | @cons node t stk ts hw hs =>
      simp only [walkBranchLoop, withHeap, deref, wp_bind, wp_zoom, wp_read, wp_pure]
      cases t with
      | empty => exact hw.represents.elim
      | inner ch =>
        simp only [hw.isInner, if_true, wp_bind]
        refine wp_pushChildren hw hs _ fun stack' ts' h' hk hs' hp hz => ?_
        have hp' : (ts'.flatMap items).Perm ((inner ch :: ts).flatMap items) := by
          rw [flatMap_cons, items_inner]
          exact hp
        refine ih hs' (hke.perm hp'.symm) ho ?_ ((hr.heap h').of_perm ?_) (fun s' hk' => hsp s' (hk.trans hk'))
          fun e s' hk' => hd e s' (hk.trans hk')
        · rw [map_cons, sum_cons, size_inner] at hfu
          omega
        · exact ((diff_perm (hke.perm hp'.symm) (keyed_unmet _ _) hp').map _).append_right _
      | leaf leaf =>
        obtain ⟨hl, him⟩ := hw.leaf_node
        have hf : (ts.map Tree.size).sum < fuel := by
          rw [List.map_cons, List.sum_cons, Tree.size] at hfu
          omega
        have hre := hke.of_cons
        simp only [hl, Bool.false_eq_true, if_false, him]
        -- the rest of the walk, once a difference is recorded
        have hg : ∀ {key : Uint256} {it : DeltaItem} {e : Bool}, (e = false → other.isSome) →
            Recorded tot maxCount ((key, it) ::
              ((diff SHAMapItem.key (ts.flatMap items) (unmet other e)).map (orient fst) ++ todo)) s →
            wp (do
              if ← recordDifference key it then walkBranchLoop backed fetch other fst fuel e stk
              else return none) Q E F s := by
          intro key it e he hr
          rw [wp_bind]
          refine wp_recordDifference hT hmin hr fun go s' hh hu => ?_
          cases go with
          | false => exact hsp s' (hh ▸ .refl _) hu
          | true =>
            rw [← hh] at hs hsp hd
            exact ih hs hre he hf hu hsp hd
        -- an item that is not in the other map
        have hn : ∀ {e : Bool}, find key leaf.item.key (unmet other e) = none →
            Recorded tot maxCount ((diff key (leaf.item :: ts.flatMap items) (unmet other e)).map
              (orient fst) ++ todo) s →
            Recorded tot maxCount ((leaf.item.key, deltaItem fst (some leaf.item) none) ::
              ((diff key (ts.flatMap items) (unmet other e)).map (orient fst) ++ todo)) s := by
          intro e hfi hr
          refine hr.of_perm (.symm ?_)
          rw [← orient_mk, ← cons_append, ← map_cons]
          exact ((diff_cons_left hke (keyed_unmet _ _) hfi).map _).append_right _
        cases eb with
        | true =>
          exact hg ho (hn rfl hr)
        | false =>
          obtain ⟨o, rfl⟩ := isSome_iff_exists.mp (ho rfl)
          simp only [Bool.false_eq_true, if_false]
          by_cases hy : leaf.item.key = o.key
          · -- the item of the other map is met
            have ht : Recorded tot maxCount ((if leaf.item = o then [] else
                [(leaf.item.key, deltaItem fst (some leaf.item) (some o))]) ++
                ((diff key (ts.flatMap items) (unmet (some o) true)).map (orient fst) ++ todo)) s := by
              refine hr.of_perm (.symm ?_)
              have hp := (diff_cons_cons hke (keyed_unmet (some o) false) hy).map (orient fst)
              rw [← append_assoc]
              refine (hp.trans ?_).append_right _
              split_ifs with hq
              · exact .refl _
              · rw [← orient_mk]
                exact .refl _
            rw [if_neg (not_not.mpr hy)]
            by_cases ha : leaf.item.data = o.data
            · have hq : leaf.item = o := by
                cases hi : leaf.item
                cases o
                rw [hi] at hy ha
                cases hy
                cases ha
                rfl
              rw [if_pos hq] at ht
              rw [if_neg (not_not.mpr ha)]
              exact ih hs hre (fun h => by cases h) hf ht hsp hd
            · rw [if_neg fun hq => ha (congrArg data hq)] at ht
              rw [if_pos ha]
              exact hg (fun h => by cases h) ht
          · rw [if_pos hy]
            refine hg ho (hn ?_ hr)
            rw [unmet, if_neg (by simp), Option.toList_some, KeyedDiff.find_cons, if_neg (Ne.symm hy)]
            rfl

/-- **`walk_branch` records** how a tree differs from one item of the other map, or from nothing. -/
theorem wp_walkBranch (hw : Walkable sha store backed fetch s.heap t r) (ht : t.Placed radix d)
    (htu : t.size < turns) (he : Recorded tot maxCount
      ((diff SHAMapItem.key (items t) other.toList).map (orient fst) ++ todo) s)
    (hQ : ∀ go s', Retains sha store s.heap s'.heap → Outcome tot maxCount todo go s' → Q go s') :
    wp (walkBranch backed fetch turns r other fst) Q E F s := by
  have hi : [t].flatMap items = items t := by simp
  have hu : unmet other other.isNone = other.toList := by cases other <;> rfl
  simp only [walkBranch, wp_bind]
  refine wp_walkBranchLoop hT hmin (.cons hw .nil) (hi ▸ keyed_items ht) (by cases other <;> simp)
    (by simpa using htu) (by rw [hi, hu]; exact he) (fun s' hk hs => hQ false s' hk hs) ?_
  intro e s' hk hso hr
  cases e with
  | true => exact hQ true s' hk hr
  | false =>
    obtain ⟨o, rfl⟩ := Option.isSome_iff_exists.mp (hso rfl)
    have hl : Recorded tot maxCount ((o.key, deltaItem fst none (some o)) :: todo) s' := by
      rw [← orient_mk]
      exact hr
    exact wp_recordDifference hT hmin hl fun go s'' hh ho => hQ go s'' (hh ▸ hk) ho

end

/-! ### Comparing nodes -/

/-- What is known of a tree at some depth. -/
structure Level (sha : List UInt8 → Uint256) (S : Set (List UInt8)) (d : ℕ) (t : MapTree) : Prop where
  children : ∀ child, t = .inner child → Tree.Children radix d child
  hashedIn : HashedIn sha S t
  plainKeys : PlainKeys sha t

variable {S : Set (List UInt8)}

theorem Level.placed (hl : Level sha S d t) : t.Placed radix d := by
  cases t with
  | empty => trivial
  | leaf leaf => trivial
  | inner ch => exact (hl.children ch rfl).placed

theorem Level.canon (hl : Level sha S d (.inner ch)) (b : Branch) : (ch b).Canon radix (d + 1) :=
  (hl.children ch rfl b).1

theorem Level.branch (hl : Level sha S d (.inner ch)) (b : Branch) : Level sha S (d + 1) (ch b) :=
  ⟨fun _ hc => (hc ▸ hl.canon b).children, hl.hashedIn.2 b, hl.plainKeys.child b⟩

/-- Branches with the same hash do not differ. -/
theorem treeDiff_of_hash_eq (hS : CollisionFree sha S) (hl : Level sha S d (.inner ch))
    (hr : Level sha S d (.inner ch')) (h : treeHash sha (ch b) = treeHash sha (ch' b)) : treeDiff (ch b) (ch' b) = [] := by
  have he := treeHash_inj hS (hl.canon b) (hr.canon b) (hl.branch b).hashedIn (hr.branch b).hashedIn
    (hl.branch b).plainKeys (hr.branch b).plainKeys h
  rw [treeDiff, he]
  exact diff_self (keyed_items (hr.branch b).placed)

/-- What is only in the first map. -/
theorem treeDiff_empty_right (t : MapTree) :
    treeDiff t .empty = (diff SHAMapItem.key (items t) (none : Option SHAMapItem).toList).map (orient true) := by
  rw [show orient true = id from funext fun _ => rfl, List.map_id]
  rfl

/-- What a tree of the second map has, seen from the first. -/
theorem treeDiff_right (ht : t.Placed radix d) (other : Option SHAMapItem) :
    ((diff key (items t) other.toList).map (orient false)).Perm (diff key other.toList (items t)) :=
  (diff_mirror (keyed_items ht) (by cases other <;> simp [Keyed])).symm

section

variable (sha store S) in
/-- The trees of two nodes that are compared. -/
structure PairOf (leftBacked : Bool) (leftFetch : Fetch) (rightBacked : Bool) (rightFetch : Fetch) (h : Heap)
    (p : Ref × Ref) (q : MapTree × MapTree) : Prop where
  left : Walkable sha store leftBacked leftFetch h q.1 p.1
  right : Walkable sha store rightBacked rightFetch h q.2 p.2
  level : ∃ d, Level sha S d q.1 ∧ Level sha S d q.2

/-- How many nodes the pairs on a stack have. -/
def weight (pairs : List (MapTree × MapTree)) : ℕ := (pairs.map fun q => q.1.size + q.2.size).sum

/-- What the pairs on a stack differ in. -/
def pending (pairs : List (MapTree × MapTree)) : Delta := pairs.flatMap fun q => treeDiff q.1 q.2

theorem weight_cons (t u : MapTree) (ps : List (MapTree × MapTree)) :
    weight ((t, u) :: ps) = t.size + u.size + weight ps := rfl

theorem pending_cons (t u : MapTree) (ps : List (MapTree × MapTree)) :
    pending ((t, u) :: ps) = treeDiff t u ++ pending ps := rfl

variable {stk : List (Ref × Ref)} {ps : List (MapTree × MapTree)}

theorem PairOf.retains {p : Ref × Ref} {q : MapTree × MapTree}
    (hp : PairOf sha store S leftBacked leftFetch rightBacked rightFetch h p q) (hk : Retains sha store h h') :
    PairOf sha store S leftBacked leftFetch rightBacked rightFetch h' p q :=
  ⟨hp.left.retains hk, hp.right.retains hk, hp.level⟩

variable (hT : (tot.map Prod.fst).Nodup) (hmin : i32Min < maxCount)

include hT hmin

/-- Two leaves. -/
theorem wp_compareLeaves {a b : SHAMapItem} (he : Recorded tot maxCount (diff key [a] [b] ++ todo) s)
    (hQ : ∀ go s', s'.heap = s.heap → Outcome tot maxCount todo go s' → Q go s') :
    wp (compareLeaves a b) Q E F s := by
  have ho : ∀ c : SHAMapItem, Keyed key [c] := fun c => nodup_singleton _
  simp only [compareLeaves, wp_ite, wp_bind, wp_pure]
  refine ⟨fun hk => ?_, fun hk => ?_⟩
  · have hr := he.of_perm ((diff_cons_cons (ho a) (ho b) hk).symm.append_right _)
    refine ⟨fun hd => ?_, fun hd => ?_⟩
    · rw [if_neg fun hq => hd (congrArg data hq)] at hr
      exact wp_recordDifference hT hmin hr hQ
    · have hq : a = b := by
        cases a
        cases b
        cases hk
        cases not_not.mp hd
        rfl
      rw [if_pos hq] at hr
      exact hQ true s rfl hr
  · have hf : find key a.key [b] = none := by
      rw [find_cons, if_neg (Ne.symm hk)]
      rfl
    have hr := he.of_perm ((diff_cons_left (ho a) (ho b) hf).symm.append_right _)
    refine wp_recordDifference hT hmin hr fun go s' hp hu => ?_
    cases go with
    | false => exact ⟨fun h => absurd h Bool.false_ne_true, fun _ => hQ false s' hp hu⟩
    | true =>
      refine ⟨fun _ => ?_, fun h => absurd rfl h⟩
      exact wp_recordDifference hT hmin hu fun go s'' hh => hQ go s'' (hh.trans hp)

variable (hS : CollisionFree sha S)

include hS

/-- **The branches of two inner nodes**: where both have something it goes on the stack, and where one has it is
recorded. -/
theorem wp_compareBranches (hl : Walkable sha store leftBacked leftFetch s.heap (.inner ch) left)
    (hr : Walkable sha store rightBacked rightFetch s.heap (.inner ch') right) (hll : Level sha S d (.inner ch))
    (hlr : Level sha S d (.inner ch')) (bs : List Branch)
    (hs : List.Forall₂ (PairOf sha store S leftBacked leftFetch rightBacked rightFetch s.heap) stk ps)
    (hu : (bs.map fun b => (ch b).size + (ch' b).size).sum < turns)
    (hc : Recorded tot maxCount (bs.flatMap (fun b => treeDiff (ch b) (ch' b)) ++ pending ps) s)
    {Q : Option (List (Ref × Ref)) → Comparison → Prop} (hsp : ∀ s', Stopped tot maxCount s' → Q none s')
    (hd : ∀ stack' pairs' s',
      List.Forall₂ (PairOf sha store S leftBacked leftFetch rightBacked rightFetch s'.heap) stack' pairs' →
      weight pairs' ≤ (bs.map fun b => (ch b).size + (ch' b).size).sum + weight ps →
      Recorded tot maxCount (pending pairs') s' → Q (some stack') s') :
    wp (compareBranches leftBacked leftFetch rightBacked rightFetch turns left right bs stk) Q E F s := by
  induction bs generalizing s stk ps with
  | nil => exact hd stk ps s hs (by simp) hc
  | cons b bs ih =>
    rw [map_cons, sum_cons] at hu hd
    rw [flatMap_cons, append_assoc] at hc
    -- the rest of the branches, when the stack is the same
    have ht : ∀ s', Retains sha store s.heap s'.heap →
        Recorded tot maxCount (bs.flatMap (fun b => treeDiff (ch b) (ch' b)) ++ pending ps) s' →
        wp (compareBranches leftBacked leftFetch rightBacked rightFetch turns left right bs stk) Q E F s' := by
      intro s' hk hrec'
      refine ih (hl.retains hk) (hr.retains hk) (hs.imp fun _ _ hp => hp.retains hk) (by omega) hrec' ?_
      exact fun stack' pairs' s'' hs' hw => hd stack' pairs' s'' hs' (by omega)
    -- a branch that only one of the nodes has
    have hwk : ∀ {backed fetch u q fst s'}, Walkable sha store backed fetch s'.heap u q →
        u.Placed radix (d + 1) → u.size < turns → Retains sha store s.heap s'.heap →
        Recorded tot maxCount ((diff key (items u) (none : Option SHAMapItem).toList).map (orient fst) ++
          (bs.flatMap (fun b => treeDiff (ch b) (ch' b)) ++ pending ps)) s' →
        wp (do
          if ← walkBranch backed fetch turns q none fst then
            compareBranches leftBacked leftFetch rightBacked rightFetch turns left right bs stk
          else return none) Q E F s' := by
      intro backed fetch u q fst s' hw hpl hz hk hrec'
      rw [wp_bind]
      refine wp_walkBranch hT hmin hw hpl hz hrec' fun go s'' hk' ho => ?_
      cases go with
      | false => exact hsp s'' ho
      | true => exact ht s'' (hk.trans hk') ho
    simp only [compareBranches, withHeap, deref, wp_bind, wp_zoom, wp_read, wp_pure]
    by_cases hh : treeHash sha (ch b) = treeHash sha (ch' b)
    · rw [if_pos ((hl.getChildHash b).trans (hh.trans (hr.getChildHash b).symm))]
      rw [treeDiff_of_hash_eq hS hll hlr hh] at hc
      exact ht s (.refl _) hc
    rw [if_neg fun h => hh ((hl.getChildHash b).symm.trans (h.trans (hr.getChildHash b)))]
    by_cases hre : ch' b = .empty
    · have hle : ch b ≠ .empty := fun he => hh (by rw [he, hre])
      rw [if_pos ((hr.isEmptyBranch b).mpr hre)]
      rw [wp_bind]
      refine wp_descendExpect hl hle fun q h1 hk hq => ?_
      rw [hre, treeDiff_empty_right] at hc
      exact hwk hq (hll.branch b).placed (by omega) hk (hc.heap h1)
    rw [if_neg fun h => hre ((hr.isEmptyBranch b).mp h)]
    by_cases hle : ch b = .empty
    · rw [if_pos ((hl.isEmptyBranch b).mpr hle)]
      rw [wp_bind]
      refine wp_descendExpect hr hre fun q h1 hk hq => ?_
      rw [hle] at hc
      have hp := treeDiff_right (hlr.branch b).placed none
      exact hwk hq (hlr.branch b).placed (by omega) hk ((hc.heap h1).of_perm (hp.append_right _))
    · rw [if_neg fun h => hle ((hl.isEmptyBranch b).mp h)]
      rw [wp_bind]
      refine wp_descendExpect hl hle fun q h1 hk1 hq => ?_
      rw [wp_bind]
      refine wp_descendExpect (hr.retains hk1) hre fun q' h2 hk2 hq' => ?_
      have hk := hk1.trans hk2
      have ha : PairOf sha store S leftBacked leftFetch rightBacked rightFetch h2 (q, q') (ch b, ch' b) :=
        ⟨hq.retains hk2, hq', d + 1, hll.branch b, hlr.branch b⟩
      refine ih (hl.retains hk) (hr.retains hk) (.cons ha (hs.imp fun _ _ hp => hp.retains hk)) (by omega) ?_ ?_
      · refine (hc.heap h2).of_perm ?_
        rw [pending_cons, ← append_assoc, ← append_assoc]
        exact perm_append_comm.append_right _
      · intro stack' pairs' s' hs' hw
        refine hd stack' pairs' s' hs' ?_
        rw [weight_cons] at hw
        omega

/-- **Two nodes are compared**: what they differ in is recorded or on the stack. -/
theorem wp_comparePair (hp : PairOf sha store S leftBacked leftFetch rightBacked rightFetch s.heap (left, right) (t, u))
    (hs : List.Forall₂ (PairOf sha store S leftBacked leftFetch rightBacked rightFetch s.heap) stk ps)
    (ht : t.size + u.size < turns) (he : Recorded tot maxCount (treeDiff t u ++ pending ps) s)
    {Q : Option (List (Ref × Ref)) → Comparison → Prop} (hsp : ∀ s', Stopped tot maxCount s' → Q none s')
    (hd : ∀ stack' pairs' s',
      List.Forall₂ (PairOf sha store S leftBacked leftFetch rightBacked rightFetch s'.heap) stack' pairs' →
      weight pairs' < t.size + u.size + weight ps → Recorded tot maxCount (pending pairs') s' → Q (some stack') s') :
    wp (comparePair leftBacked leftFetch rightBacked rightFetch turns left right stk) Q E F s := by
  obtain ⟨hl, hr, d, hll, hlr⟩ := hp
  dsimp only at hl hr hll hlr
  have hpo := hl.represents.size_pos
  -- nothing new on the stack
  have hsm : ∀ go s', Retains sha store s.heap s'.heap → Outcome tot maxCount (pending ps) go s' →
      Q (if go then some stk else none) s' := by
    intro go s' hk ho
    cases go with
    | false => exact hsp s' ho
    | true => exact hd stk ps s' (hs.imp fun _ _ hp => hp.retains hk) (by omega) ho
  simp only [comparePair, withHeap, deref, wp_bind, wp_zoom, wp_read, wp_pure]
  cases t with
  | empty => exact hl.represents.elim
  | leaf a =>
    cases u with
    | empty => exact hr.represents.elim
    | leaf b =>
      simp only [hl.leaf_node.2, hr.leaf_node.2, wp_bind, wp_pure]
      exact wp_compareLeaves hT hmin he fun go s' hh => hsm go s' (hh ▸ .refl _)
    | inner ch' =>
      simp only [hl.leaf_node.2, hr.peekItem, wp_bind, wp_pure]
      exact wp_walkBranch hT hmin hr hlr.placed (by omega)
        (he.of_perm ((treeDiff_right hlr.placed (some a.item)).append_right _)) hsm
  | inner ch =>
    cases u with
    | empty => exact hr.represents.elim
    | leaf b =>
      simp only [hl.peekItem, hr.leaf_node.2, wp_bind, wp_pure]
      refine wp_walkBranch hT hmin hl hll.placed (by omega) (he.of_perm (.append_right _ ?_)) hsm
      rw [show orient true = id from funext fun _ => rfl, List.map_id]
      exact .refl _
    | inner ch' =>
      simp only [hl.peekItem, hr.peekItem]
      have hu : ((finRange 16).map fun b => (ch b).size + (ch' b).size).sum + 2 =
          (inner ch).size + (inner ch').size := by
        rw [size_inner, size_inner, sum_map_add]
        omega
      refine wp_compareBranches hT hmin hS hl hr hll hlr _ hs (by omega)
        (he.of_perm ((treeDiff_inner hll.placed hlr.placed).symm.append_right _)) hsp fun stack' pairs' s' hs' hw =>
          hd stack' pairs' s' hs' (by omega)

/-- **The loop of `compare`** records what the pairs on the stack differ in. -/
theorem wp_compareLoop
    (hs : List.Forall₂ (PairOf sha store S leftBacked leftFetch rightBacked rightFetch s.heap) stk ps)
    (hf : weight ps < fuel) (ht : weight ps < turns) (he : Recorded tot maxCount (pending ps) s)
    (hQ : ∀ go s', Outcome tot maxCount [] go s' → Q go s') :
    wp (compareLoop leftBacked leftFetch rightBacked rightFetch turns fuel stk) Q E F s := by
  induction fuel generalizing s stk ps with
  | zero => omega
  | succ fuel ih =>
    cases hs with
    | nil => exact hQ true s he
    | @cons p q stk ps hp hs =>
      rw [weight_cons] at hf ht
      simp only [compareLoop, wp_bind]
      refine wp_comparePair hT hmin hS hp hs (by omega) he (fun s' hsp => hQ false s' hsp) ?_
      intro stack' pairs' s' hs' hw hr
      exact ih hs' (by omega) (by omega) hr

end

/-! ### Two maps -/

/-- The difference of two maps: the keys with different items, each once. -/
structure IsDifference (t u : MapTree) (delta : Delta) : Prop where
  nodup : (delta.map Prod.fst).Nodup
  mem_iff : ∀ key a b, (key, a, b) ∈ delta ↔ a = itemOf t key ∧ b = itemOf u key ∧ a ≠ b

/-- **An answer that tells a difference**: all of it when there is less than `limit`, else `limit` entries of it. -/
def Tells (delta : Delta) (limit : ℤ) (complete : Bool) (found : Delta) : Prop :=
  (delta.length < limit → complete = true ∧ found.Perm delta) ∧
    (limit ≤ delta.length → complete = false ∧ found.length = limit ∧ (found.map Prod.fst).Nodup ∧ found ⊆ delta)

section

variable (sha : Sha) (store : MapStore)

/-- A map as it is given to a comparison: canonical, its nodes in memory, or known to the store its callback asks. -/
structure Given (S : Set (List UInt8)) (backed : Bool) (fetch : Fetch) (h : Heap) (t : MapTree) (r : Ref) : Prop where
  root : ∃ child, t = .inner child
  level : Level sha S 0 t
  kept : Kept sha store h t r
  finds : Finds sha store backed fetch h ∨ Kept sha (fun _ => none) h t r

/-- The comparison of two maps from an empty `Delta` tells a difference. -/
def CompareTells (levels turns : ℕ) (h : Heap) (left right : Ref) (leftBacked : Bool) (leftFetch : Fetch)
    (rightBacked : Bool) (rightFetch : Fetch) (maxCount limit : ℤ) (delta : Delta) : Prop :=
  wp (SHAMap.compare sha levels turns left right leftBacked leftFetch rightBacked rightFetch)
    (fun complete s => Tells delta limit complete s.differences) (fun _ _ => False) (fun _ => False) ⟨h, [], maxCount⟩

end

theorem isDifference_treeDiff (ht : t.Placed radix 0) (hu : u.Placed radix 0) : IsDifference t u (treeDiff t u) where
  nodup := KeyedDiff.nodup_keys_diff (keyed_items ht) (keyed_items hu)
  mem_iff key a b := by
    rw [treeDiff, KeyedDiff.mem_diff (keyed_items ht) (keyed_items hu), find_items ht, find_items hu]

theorem Tells.perm {delta delta' : Delta} {limit : ℤ} {complete : Bool} {found : Delta}
    (h : Tells delta limit complete found) (hp : delta.Perm delta') : Tells delta' limit complete found := by
  rw [Tells, ← hp.length_eq]
  refine ⟨fun ht => ?_, fun hle => ?_⟩
  · obtain ⟨hc, hf⟩ := h.1 ht
    exact ⟨hc, hf.trans hp⟩
  · obtain ⟨hc, hl, hn, hs⟩ := h.2 hle
    exact ⟨hc, hl, hn, fun e he => hp.subset (hs he)⟩

/-- What the end of a comparison tells. -/
theorem Outcome.tells (hT : (tot.map fst).Nodup) {go : Bool} (ho : Outcome tot maxCount [] go s) : Tells tot (max maxCount 1) go s.differences := by
  cases go with
  | true =>
    obtain ⟨hpm, hc, hr⟩ : Recorded tot maxCount [] s := ho
    rw [append_nil] at hpm
    have ht : (tot.length : ℤ) < max maxCount 1 := by
      rw [← hpm.length_eq]
      rcases hr with hn | hp
      · rw [hn]
        simp
      · omega
    exact ⟨fun _ => ⟨rfl, hpm⟩, fun hl => absurd ht (not_lt.mpr hl)⟩
  | false =>
    obtain ⟨⟨todo, hpm⟩, hf⟩ : Stopped tot maxCount s := ho
    have hl : max maxCount 1 ≤ (tot.length : ℤ) := by
      rw [← hf, ← hpm.length_eq, length_append]
      omega
    refine ⟨fun ht => absurd hl (not_le.mpr ht), fun _ => ⟨rfl, hf, ?_, fun e he => ?_⟩⟩
    · have hd : ((s.differences ++ todo).map fst).Nodup := (hpm.map _).nodup_iff.mpr hT
      rw [map_append] at hd
      exact hd.of_append_left
    · exact hpm.subset (mem_append_left _ he)

theorem Finds.rehashes (hf : Finds sha store backed fetch h) (hr : Rehashes sha store h h') : Finds sha store backed fetch h' := by
  refine ⟨fun n hash u hu => ?_, hf.2⟩
  obtain ⟨f, hfe, he⟩ := hf.1 n hash u hu
  exact ⟨f, hfe, hr.represents _ (.refl _) _ _ he⟩

/-- A map whose hashes are computed can be walked. -/
theorem Given.walkable (hg : Given sha store S backed fetch h t r) (hr : Rehashes sha store h h')
    (he : Represents sha store h' t r) : Walkable sha store backed fetch h' t r :=
  ⟨he, hg.finds.imp (fun hf => hf.rehashes hr) fun hk => (hr.kept _ (.none _) _ _ hk).represents he⟩

theorem Given.bounded (hg : Given sha store S backed fetch h t r) : t.Bounded radix 0 := by
  obtain ⟨ch, rfl⟩ := hg.root
  exact (hg.level.children ch rfl).bounded (by decide)

section

variable {levels : ℕ}

/-- Maps with the same root hash do not differ. -/
theorem treeDiff_of_root_eq (hS : CollisionFree sha S) (hl : Given sha store S leftBacked leftFetch h t left)
    (hr : Given sha store S rightBacked rightFetch h u right)
    (he : treeHash sha t = treeHash sha u) : treeDiff t u = [] := by
  obtain ⟨ch, rfl⟩ := hl.root
  obtain ⟨ch', rfl⟩ := hr.root
  have hb := treeHash_child_eq hS hl.level.hashedIn hr.level.hashedIn he
  refine perm_nil.mp ((treeDiff_inner hl.level.placed hr.level.placed).trans ?_)
  rw [flatMap_eq_nil_iff.mpr fun b _ => treeDiff_of_hash_eq hS hl.level hr.level (hb b)]

theorem compareTells_treeDiff (hS : CollisionFree sha S) (hl : Given sha store S leftBacked leftFetch h t left)
    (hr : Given sha store S rightBacked rightFetch h u right) (hv : leafDepth < levels)
    (ht : t.size + u.size < turns) (hmin : i32Min < maxCount) :
    CompareTells sha levels turns h left right leftBacked leftFetch rightBacked rightFetch maxCount
      (max maxCount 1) (treeDiff t u) := by
  have hT := (isDifference_treeDiff hl.level.placed hr.level.placed).nodup
  simp only [CompareTells, SHAMap.compare, withHeap, deref, wp_bind, wp_zoom, wp_read, wp_pure]
  refine wp_total (hashesKept_ensureLoadedHashes hl.bounded (Nat.zero_le _) (by omega) h left hl.kept) ?_
  rintro - h1 ⟨hr1, hre⟩
  refine wp_total (hashesKept_ensureLoadedHashes hr.bounded (Nat.zero_le _) (by omega) h1 right
    (hr1.kept _ (.refl _) _ _ hr.kept)) ?_
  rintro - h2 ⟨hr2, he⟩
  have hwl := hl.walkable (hr1.trans hr2) (hr2.represents _ (.refl _) _ _ hre)
  have hwr := hr.walkable (hr1.trans hr2) he
  have hn : Recorded (treeDiff t u) maxCount (treeDiff t u) ⟨h2, [], maxCount⟩ := ⟨.refl _, by simp, .inl rfl⟩
  rw [wp_ite, hwl.represents.hash_eq, hwr.represents.hash_eq]
  refine ⟨fun hq => ?_, fun _ => ?_⟩
  · rw [treeDiff_of_root_eq hS hl hr hq] at hn hT ⊢
    have hd : Outcome [] maxCount [] true ⟨h2, [], maxCount⟩ := hn
    exact hd.tells hT
  · have hp : PairOf sha store S leftBacked leftFetch rightBacked rightFetch h2 (left, right) (t, u) :=
      ⟨hwl, hwr, 0, hl.level, hr.level⟩
    have hpe : pending [(t, u)] = treeDiff t u := by simp [pending]
    exact wp_compareLoop hT hmin hS (.cons hp .nil) ht ht (hpe ▸ hn) fun go s' ho => ho.tells hT

/-- **A comparison is exact.** For two canonical maps, in memory or behind callbacks that find their nodes, hashed or
not, `compare` answers `true` with the whole difference when it has fewer keys than `max_count`, and else
`false` with `max_count` of its entries; a `max_count` below one counts as one. With the maps exchanged it does
the same for the mirrored difference. -/
theorem compare_exact (hS : CollisionFree sha S) (hl : Given sha store S leftBacked leftFetch h t left)
    (hr : Given sha store S rightBacked rightFetch h u right) (hlevels : leafDepth < levels)
    (hturns : t.size + u.size < turns) (hmin : i32Min < maxCount) : ∃ delta, IsDifference t u delta ∧
      CompareTells sha levels turns h left right leftBacked leftFetch rightBacked rightFetch maxCount
        (max maxCount 1) delta ∧
      CompareTells sha levels turns h right left rightBacked rightFetch leftBacked leftFetch maxCount
        (max maxCount 1) (delta.map mirror) := by
  refine ⟨treeDiff t u, isDifference_treeDiff hl.level.placed hr.level.placed,
    compareTells_treeDiff hS hl hr hlevels hturns hmin, ?_⟩
  refine wp_imp (compareTells_treeDiff hS hr hl hlevels (by omega) hmin) (fun _ _ ht => ?_)
  exact ht.perm (diff_mirror (keyed_items hl.level.placed) (keyed_items hr.level.placed))

end

/-! ### Two small maps -/

/-- A hash function that hashes a small map as SHA-512 does. -/
structure SmallMap.HashedBy (m : SmallMap) (sha : List UInt8 → Uint256) : Prop where
  leaf : sha m.leafBytes = m.leafHash
  root : sha m.rootBytes = m.rootHash

namespace SmallMap.HashedBy

variable {m : SmallMap} (hm : m.HashedBy sha)

include hm

theorem treeHash_child (b : Branch) :
    treeHash sha (single m.branch (.leaf m.leaf) b) = if b = m.branch then m.leafHash else 0 := by
  rw [m.single_apply]
  split
  · exact hm.leaf
  · rfl

theorem treeHash_tree : treeHash sha m.tree = m.rootHash := by
  rw [tree, treeHash_inner _ m.not_all_empty]
  simp only [hm.treeHash_child]
  exact hm.root

/-- A root with its leaf loaded stands for the map. -/
theorem represents {root leaf : Ref}
    (hr : h.node root = ⟨m.rootHash, 0, .inner 0 fun b => if b = m.branch then some ⟨m.leafHash, some leaf⟩ else none⟩)
    (hl : h.node leaf = ⟨m.leafHash, 0, .leaf .accountState m.item⟩) :
    Represents sha (fun _ => none) h m.tree root := by
  refine ⟨0, 0, _, hr.trans (congrArg (fun x => (⟨x, 0, _⟩ : SHAMapTreeNode)) hm.treeHash_tree.symm), fun b => ?_⟩
  rw [hm.treeHash_child, m.single_apply]
  by_cases hb : b = m.branch
  · simp only [if_pos hb]
    exact .inr ⟨some leaf, rfl, nofun, m.leafHash_ne, .inr ⟨leaf, rfl, 0,
      hl.trans (congrArg (fun x => (⟨x, 0, .leaf .accountState m.item⟩ : SHAMapTreeNode)) hm.leaf.symm)⟩⟩
  · simp [if_neg hb]

theorem level (hl : m.leafBytes ∈ S) (hr : m.rootBytes ∈ S) : Level sha S 0 m.tree where
  children ch hc := by
    cases hc
    exact children_single trivial fun leaf hl => by cases hl; rfl
  hashedIn := by
    refine ⟨fun _ => ?_, fun b => ?_⟩
    · simp only [hm.treeHash_child]
      exact hr
    · rw [m.single_apply]
      split
      · exact hl
      · trivial
  plainKeys leaf hl ht := by
    rw [m.mem_tree hl] at ht
    cases ht

theorem given (root leaf : Ref) (hf : m.leafBytes ∈ S) (ht : m.rootBytes ∈ S)
    (hr : h.node root = ⟨m.rootHash, 0, .inner 0 fun b => if b = m.branch then some ⟨m.leafHash, some leaf⟩ else none⟩)
    (hl : h.node leaf = ⟨m.leafHash, 0, .leaf .accountState m.item⟩) :
    Given sha (fun _ => none) S false noFetch h m.tree root :=
  have hk := (hm.represents hr hl).kept
  ⟨⟨_, rfl⟩, hm.level hf ht, hk, .inr hk⟩

end SmallMap.HashedBy

/-- SHA-512 on the nodes of two small maps. -/
def twoMapsSha (bytes : List UInt8) : Uint256 :=
  if bytes = zeroKeyMap.leafBytes ∨ bytes = zeroKeyMap.rootBytes then zeroKeyMap.sha512Half bytes
  else sampleMap.sha512Half bytes

/-- Two small maps in one heap; their leaves are below the same branch. -/
def twoMapsHeap : Heap where
  next := 4
  node := fun r => if r < 2 then sampleMap.heap.node r else if r = 2 then
      ⟨zeroKeyMap.rootHash, 0, .inner 0 fun b => if b = zeroKeyMap.branch then some ⟨zeroKeyMap.leafHash, some 3⟩ else none⟩
    else ⟨zeroKeyMap.leafHash, 0, .leaf .accountState zeroKeyMap.item⟩
  calls := 0

/-- The bytes hashed for two small maps. -/
def twoMapsBytes : Set (List UInt8) :=
  {x | x ∈ [sampleMap.leafBytes, sampleMap.rootBytes, zeroKeyMap.leafBytes, zeroKeyMap.rootBytes]}

theorem sampleMap_hashedBy : sampleMap.HashedBy twoMapsSha := ⟨by decide +kernel, by decide +kernel⟩

theorem zeroKeyMap_hashedBy : zeroKeyMap.HashedBy twoMapsSha := ⟨by decide +kernel, by decide +kernel⟩

theorem twoMaps_collisionFree : CollisionFree twoMapsSha twoMapsBytes where
  inj := by
    have ha : ∀ x ∈ [sampleMap.leafBytes, sampleMap.rootBytes, zeroKeyMap.leafBytes, zeroKeyMap.rootBytes],
        ∀ y ∈ [sampleMap.leafBytes, sampleMap.rootBytes, zeroKeyMap.leafBytes, zeroKeyMap.rootBytes],
          twoMapsSha x = twoMapsSha y → x = y := by decide +kernel
    exact fun x hx y hy h => ha x hx y hy h
  ne_zero := by
    have ha : ∀ x ∈ [sampleMap.leafBytes, sampleMap.rootBytes, zeroKeyMap.leafBytes, zeroKeyMap.rootBytes],
        twoMapsSha x ≠ 0 := by decide +kernel
    exact ha

theorem sampleMap_given : Given twoMapsSha (fun _ => none) twoMapsBytes false noFetch twoMapsHeap sampleMap.tree 0 :=
  sampleMap_hashedBy.given 0 1 (by simp [twoMapsBytes]) (by simp [twoMapsBytes]) rfl rfl

theorem zeroKeyMap_given : Given twoMapsSha (fun _ => none) twoMapsBytes false noFetch twoMapsHeap zeroKeyMap.tree 2 :=
  zeroKeyMap_hashedBy.given 2 3 (by simp [twoMapsBytes]) (by simp [twoMapsBytes]) rfl rfl

/-- The two small maps differ in two keys, fewer than three. -/
theorem compare_exact_twoMaps : ∃ delta, IsDifference sampleMap.tree zeroKeyMap.tree delta ∧
    CompareTells twoMapsSha 65 5 twoMapsHeap 0 2 false noFetch false noFetch 3 (max 3 1) delta ∧
    CompareTells twoMapsSha 65 5 twoMapsHeap 2 0 false noFetch false noFetch 3 (max 3 1) (delta.map mirror) :=
  compare_exact twoMaps_collisionFree sampleMap_given zeroKeyMap_given (by decide) (by decide +kernel) (by decide)

/-- The answer of a comparison and the entries it found. -/
def answerOf (run : Except Fault (Except TraversalError Bool × Comparison)) : Option (Bool × Delta) :=
  match run with
  | .ok (.ok complete, s) => some (complete, s.differences)
  | _ => none

/-- **Two things a comparison does not do**: with a `max_count` of zero it does not answer `false` for two equal maps, and
with a `max_count` that ends it early the entries it found are not mirrored when the maps are exchanged (the
first of two leaves is the one recorded). -/
theorem compare_not_exact_in_general :
    (¬ ∀ (sha : List UInt8 → Uint256) (store : SHAMapHash → Option MapTree) (S : Set (List UInt8)) (h : Heap)
      (t u : MapTree) (left right : Ref) (leftBacked rightBacked : Bool) (leftFetch rightFetch : Fetch) (levels turns : ℕ)
      (maxCount : ℤ) (delta : Delta), CollisionFree sha S →
      Given sha store S leftBacked leftFetch h t left → Given sha store S rightBacked rightFetch h u right →
      leafDepth < levels → t.size + u.size < turns → i32Min < maxCount → IsDifference t u delta →
      CompareTells sha levels turns h left right leftBacked leftFetch rightBacked rightFetch maxCount maxCount delta) ∧
    ¬ ∀ (sha : List UInt8 → Uint256) (store : SHAMapHash → Option MapTree) (S : Set (List UInt8)) (h : Heap)
      (t u : MapTree) (left right : Ref) (leftBacked rightBacked : Bool) (leftFetch rightFetch : Fetch) (levels turns : ℕ)
      (maxCount : ℤ) (c c' : Bool) (found found' : Delta), CollisionFree sha S →
      Given sha store S leftBacked leftFetch h t left → Given sha store S rightBacked rightFetch h u right →
      leafDepth < levels → t.size + u.size < turns → 0 < maxCount →
      answerOf (SHAMap.compare sha levels turns left right leftBacked leftFetch rightBacked rightFetch
        ⟨h, [], maxCount⟩) = some (c, found) →
      answerOf (SHAMap.compare sha levels turns right left rightBacked rightFetch leftBacked leftFetch
        ⟨h, [], maxCount⟩) = some (c', found') → found'.Perm (found.map mirror) := by
  refine ⟨fun ha => ?_, fun ha => ?_⟩
  · have hs : IsDifference sampleMap.tree sampleMap.tree [] :=
      ⟨nodup_nil, fun _ _ _ => ⟨fun h => absurd h not_mem_nil, fun h => absurd (h.1.trans h.2.1.symm) h.2.2⟩⟩
    have ht := ha twoMapsSha (fun _ => none) twoMapsBytes twoMapsHeap sampleMap.tree sampleMap.tree 0 0 false false
      noFetch noFetch 65 5 0 [] twoMaps_collisionFree sampleMap_given sampleMap_given (by decide) (by decide +kernel)
      (by decide) hs
    have hr : answerOf (SHAMap.compare twoMapsSha 65 5 0 0 false noFetch false noFetch ⟨twoMapsHeap, [], 0⟩) =
        some (true, []) := by decide +kernel
    obtain ⟨complete, s', he, hp⟩ := returns_of_wp ht
    rw [he] at hr
    obtain ⟨rfl, -⟩ := mk.inj (some.inj hr)
    exact absurd (hp.2 le_rfl).1 Bool.noConfusion
  · have hpm := ha twoMapsSha (fun _ => none) twoMapsBytes twoMapsHeap sampleMap.tree zeroKeyMap.tree 0 2 false false
      noFetch noFetch 65 5 1 false false [(sampleMap.item.key, some sampleMap.item, none)]
      [(zeroKeyMap.item.key, some zeroKeyMap.item, none)] twoMaps_collisionFree sampleMap_given
      zeroKeyMap_given (by decide) (by decide +kernel) (by decide) (by decide +kernel) (by decide +kernel)
    have hk : zeroKeyMap.item.key = sampleMap.item.key := by
      have := perm_singleton.mp hpm
      exact congrArg fst (singleton_inj.mp this)
    exact absurd hk (by decide)

end Xrpld.SHAMap
