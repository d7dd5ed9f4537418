import Xrpld.Ledger.Views.MapView

/-!
# A flow sandbox is an overlay that is handed over as a whole

What a child of a view shows after any calls on it, and what its parent is after `apply`.

## The model

`Op` has the calls on a child. The map that the parent stands for is edited by the same calls (`Op.edit`); a call is
allowed where an insert finds its key free and an update or an erase finds it taken (`Op.Allowed`).

## What is proved

* `Op.run_spec`: one call edits what the child shows as it edits a map, and does not touch what the parent shows.
* `runAll_spec`: so do any number of calls.
* `FlowSandbox.apply_spec`: `apply` fails and leaves what the parent shows, or makes the parent show what the child
  showed. The destroyed drops go along if there are more than none and the flags do not have `DRY_RUN`; the
  addition panics when it leaves an `i64`.
-/

namespace Xrpld.Views

open Protocol Std List Std.ExtTreeMap MapReadView Sandbox

/-- A call on a view. -/
inductive Op where
  | read (k : Keylet)
  | exists_ (k : Keylet)
  | succ (key : Uint256) (last : Option Uint256)
  | peek (k : Keylet)
  | insert (sle : STLedgerEntry)
  | update (sle : STLedgerEntry)
  | erase (sle : STLedgerEntry)
  | destroyXrp (fee : ℤ)

namespace Op

variable {V : Type} [ApplyView V]

/-- Make a call; its answer is not kept. -/
def run : Op → Edit V Unit
  | read k => Edit.ask (ReadView.read · k) >>= fun _ => pure ()
  | exists_ k => Edit.ask (ReadView.exists_ · k) >>= fun _ => pure ()
  | succ key last => Edit.ask (ReadView.succ · key last) >>= fun _ => pure ()
  | peek k => ApplyView.peek k >>= fun _ => pure ()
  | insert sle => ApplyView.insert sle
  | update sle => ApplyView.update sle
  | erase sle => ApplyView.erase sle
  | destroyXrp fee => ApplyView.destroyXrp fee

/-- What a call makes of a map. -/
def edit : Op → (Uint256 → Option STLedgerEntry) → Uint256 → Option STLedgerEntry
  | insert sle, m | update sle, m => Function.update m sle.key (some sle)
  | erase sle, m => Function.update m sle.key none
  | _, m => m

/-- The drops that a call destroys. -/
def drops : Op → ℤ
  | destroyXrp fee => fee
  | _ => 0

/-- An insert is of a key that is free, an update or an erase of one that is taken. -/
def Allowed : Op → (Uint256 → Option STLedgerEntry) → Prop
  | insert sle, m => m sle.key = none
  | update sle, m | erase sle, m => (m sle.key).isSome = true
  | _, _ => True

/-- What a list of calls makes of a map. -/
def editAll (ops : List Op) (m : Uint256 → Option STLedgerEntry) : Uint256 → Option STLedgerEntry :=
  ops.foldl (fun m op => op.edit m) m

/-- The drops that a list of calls destroys. -/
def total (ops : List Op) : ℤ := (ops.map drops).sum

/-- Each call of a list is allowed when it is made. -/
def AllAllowed : List Op → (Uint256 → Option STLedgerEntry) → Prop
  | [], _ => True
  | op :: ops, m => op.Allowed m ∧ AllAllowed ops (op.edit m)

/-- Make a list of calls. -/
def runAll (ops : List Op) : Edit V Unit := forEach run ops

end Op

/-! ### Calls on the child -/

namespace FlowSandbox

variable {V : Type} [ApplyView V] [MapView V] {c c' : FlowSandbox V}

/-- What a call on the child leaves as it is. -/
structure SameParent (c c' : FlowSandbox V) : Prop where
  entries_eq : entries c'.parent = entries c.parent
  destroyed_eq : destroyed c'.parent = destroyed c.parent
  parentFlags_eq : ApplyView.flags c'.parent = ApplyView.flags c.parent
  flags_eq : c'.flags = c.flags

theorem applyFlags_eq (h : SameParent c c') : c'.applyFlags = c.applyFlags := by
  rw [applyFlags, applyFlags, h.flags_eq, h.parentFlags_eq]

theorem SameParent.refl (c : FlowSandbox V) : SameParent c c := ⟨rfl, rfl, rfl, rfl⟩

theorem SameParent.trans {c'' : FlowSandbox V} (h : SameParent c c') (h' : SameParent c' c'') : SameParent c c'' :=
  ⟨h'.entries_eq.trans h.entries_eq, h'.destroyed_eq.trans h.destroyed_eq, h'.parentFlags_eq.trans h.parentFlags_eq,
    h'.flags_eq.trans h.flags_eq⟩

/-- A look at an entry is all that a call does to the parent. -/
theorem sameParent_run (h : Valid c) (op : Op) : wp op.run (fun _ c' => SameParent c c') ⊤ ⊤ c := by
  have ha {α : Type} (an : FlowSandbox V → Answer α) :
      wp (Edit.ask an >>= fun _ => pure ()) (fun _ c' => SameParent c c') ⊤ ⊤ c := by
    rw [wp_bind]
    exact wp_mono (Edit.wp_ask_same an c) (fun _ c' hc => hc ▸ .refl c) (fun _ _ _ => trivial) fun _ _ => trivial
  cases op with
  | read k => exact ha _
  | exists_ k => exact ha _
  | succ key last => exact ha _
  | peek k =>
    change wp (peek k >>= fun _ => pure ()) _ _ _ c
    simp only [peek, onParent, wp_bind, wp_read, wp_pure]
    cases c.items[k.key]? with
    | some entry => exact .refl c
    | none =>
      refine (wp_zoom _ _ _).mpr (wp_mono (MapView.peek_spec k h.parent) ?_ (fun _ _ h => h.elim) fun _ h => h.elim)
      rintro r parent ⟨-, -, hn⟩
      exact ⟨hn.entries_eq, hn.destroyed_eq, hn.flags_eq, rfl⟩
  | insert sle =>
    change wp (rawInsert sle) _ _ _ c
    simp only [rawInsert, wp_bind, wp_read]
    split <;> exact ⟨rfl, rfl, rfl, rfl⟩
  | update sle =>
    change wp (rawReplace sle) _ _ _ c
    simp only [rawReplace, wp_bind, wp_read]
    split <;> exact ⟨rfl, rfl, rfl, rfl⟩
  | erase sle =>
    change wp (rawErase sle) _ _ _ c
    simp only [rawErase, wp_bind, wp_read]
    split <;> exact ⟨rfl, rfl, rfl, rfl⟩
  | destroyXrp fee =>
    change wp (rawDestroyXrp fee) _ _ _ c
    simp only [rawDestroyXrp, wp_bind, wp_read, wp_lift]
    exact ⟨fun _ _ => ⟨rfl, rfl, rfl, rfl⟩, fun _ _ => trivial⟩

/-- **One call.** A call that is allowed edits what the child shows as it edits a map. -/
theorem run_spec (h : Valid c) (op : Op) (ho : op.Allowed c.shows) :
    wp op.run (fun _ c' => Valid c' ∧ c'.shows = op.edit c.shows ∧ c'.dropsDestroyed = c.dropsDestroyed + op.drops ∧
      SameParent c c') ⊥ (fun fault => fault = .overflow ∧ ¬ FitsI64 (c.dropsDestroyed + op.drops)) c := by
  have hk : Valid c ∧ c.shows = c.shows ∧ c.dropsDestroyed = c.dropsDestroyed + 0 := ⟨h, rfl, (Int.add_zero _).symm⟩
  have hn {m : Uint256 → Option STLedgerEntry} {held : Uint256 → Prop} {c' : FlowSandbox V}
      (hc : Becomes Valid shows dropsDestroyed Live m c.dropsDestroyed held c c') :
      Valid c' ∧ c'.shows = m ∧ c'.dropsDestroyed = c.dropsDestroyed + 0 :=
    ⟨hc.wf, hc.entries_eq, hc.destroyed_eq.trans (Int.add_zero _).symm⟩
  have he : wp op.run (fun _ c' => Valid c' ∧ c'.shows = op.edit c.shows ∧
      c'.dropsDestroyed = c.dropsDestroyed + op.drops) ⊥
      (fun fault => fault = .overflow ∧ ¬ FitsI64 (c.dropsDestroyed + op.drops)) c := by
    have hs {α : Type} {an : FlowSandbox V → Answer α} {a : α} (ha : an c = pure a) :
        wp (Edit.ask an >>= fun _ => pure ()) (fun _ c' => Valid c' ∧ c'.shows = c.shows ∧
          c'.dropsDestroyed = c.dropsDestroyed + 0) ⊥
          (fun fault => fault = .overflow ∧ ¬ FitsI64 (c.dropsDestroyed + 0)) c := by
      rw [wp_bind]
      exact Edit.wp_ask ha hk
    cases op with
    | read k =>
      rcases read_or k (v := c) h with hr | hr
      · exact hs hr
      · exact hs hr
    | exists_ k => exact hs (exists_eq k (v := c) h)
    | succ key last =>
      obtain ⟨r, hr, -⟩ := succ_next key last (v := c) h
      exact hs hr
    | peek k =>
      refine (wp_bind _ _).mpr (wp_mono (live_peek_spec h k) ?_ nofun nofun)
      rintro r c' ⟨-, -, hc⟩
      exact hn hc
    | insert sle =>
      exact wp_mono (live_insert_spec h ho) (fun _ c' hc => hn hc) nofun nofun
    | update sle =>
      exact wp_mono (live_update_spec h ho) (fun _ c' hc => hn hc) nofun nofun
    | erase sle =>
      exact wp_mono (live_erase_spec h ho) (fun _ c' hc => hn hc) nofun nofun
    | destroyXrp fee =>
      exact wp_mono (MapView.destroyXrp_spec (v := c) fee h) (fun _ c' hc => ⟨hc.wf, hc.entries_eq, hc.destroyed_eq⟩)
        (fun _ _ hF => hF) fun _ hF => hF
  refine wp_mono (wp_and he (sameParent_run h op)) ?_ (fun _ _ hF => hF.1) fun _ hF => hF.1
  rintro _ c' ⟨⟨hv, hw, hd⟩, hm⟩
  exact ⟨hv, hw, hd, hm⟩

/-- **Any number of calls.** -/
theorem runAll_spec (h : Valid c) (ops : List Op) (ho : Op.AllAllowed ops c.shows) :
    wp (Op.runAll ops) (fun _ c' => Valid c' ∧ c'.shows = Op.editAll ops c.shows ∧
      c'.dropsDestroyed = c.dropsDestroyed + Op.total ops ∧ SameParent c c')
      ⊥ (fun fault => fault = .overflow ∧ ∃ n, ¬ FitsI64 (c.dropsDestroyed + Op.total (ops.take n))) c := by
  induction ops generalizing c with
  | nil => exact ⟨h, rfl, by simp [Op.total], .refl c⟩
  | cons op ops ih =>
    have hu (l : List Op) : Op.total (op :: l) = op.drops + Op.total l := rfl
    refine (wp_bind _ _).mpr (wp_mono (run_spec h op ho.1) ?_ (fun _ _ hF => hF) ?_)
    · rintro _ c1 ⟨h1, hs, hd, ha⟩
      refine wp_mono (ih h1 (hs ▸ ho.2)) ?_ (fun _ _ hF => hF) ?_
      · rintro _ c2 ⟨h2, hh, hr, hsa⟩
        exact ⟨h2, by rw [hh, hs]; rfl, by rw [hr, hd, hu, Int.add_assoc], ha.trans hsa⟩
      · rintro fault ⟨hf, n, ht⟩
        exact ⟨hf, n + 1, by rwa [List.take_succ_cons, hu, ← Int.add_assoc, ← hd]⟩
    · rintro fault ⟨hf, ht⟩
      exact ⟨hf, 1, by rwa [List.take_succ_cons, hu, List.take_zero, Op.total, List.map_nil, List.sum_nil, Int.add_zero]⟩

/-! ### Handing over -/

variable {v : V} {items : List (Uint256 × Entry)} {it : Uint256 × Entry}

/-- Checking an item leaves what the parent shows, and checks out what is to be changed. -/
theorem validateItem_spec (op : String) (h : Wf v) (hi : it.2.action = .insert ↔ entries v it.1 = none) :
    wp (validateItem op it) (fun _ v' => Now (entries v) (destroyed v) (Held v) v v' ∧
        (it.2.action ≠ .insert → Held v' it.1)) (fun _ v' => Now (entries v) (destroyed v) (Held v) v v') ⊥ v := by
  obtain ⟨r, hr, hr'⟩ : ∃ r, ReadView.read v ⟨it.2.sle.entryType, it.1⟩ = pure r ∧ (r = none ∨ r = entries v it.1) := by
    rcases read_or ⟨it.2.sle.entryType, it.1⟩ h with hr | hr
    · exact ⟨none, hr, .inl rfl⟩
    · exact ⟨_, hr, .inr rfl⟩
  rw [validateItem, wp_bind]
  refine Edit.wp_ask hr ?_
  cases ha : it.2.action with
  | insert =>
    -- the parent has no entry there, so none is found
    have ho : r = none := hr'.elim id fun he => he.trans (hi.mp ha)
    subst ho
    exact ⟨now_refl h, fun hne => absurd rfl hne⟩
  | modify | erase =>
    cases r with
    | none => exact now_refl h
    | some e =>
      refine (wp_bind _ _).mpr (wp_mono (MapView.peek_spec _ h) ?_ nofun nofun)
      rintro r v1 ⟨hd, hh, hn⟩
      have hs : r = some e := Answer.pure_inj (hd.symm.trans hr)
      exact ⟨hn, fun _ => hh (by rw [hs]; rfl)⟩

theorem validateParentCommit_spec (op : String) (h : Wf v)
    (hi : ∀ it ∈ items, it.2.action = .insert ↔ entries v it.1 = none) :
    wp (validateParentCommit op items) (fun _ v' => Now (entries v) (destroyed v) (Held v) v v' ∧
        ∀ it ∈ items, it.2.action ≠ .insert → Held v' it.1)
      (fun _ v' => Now (entries v) (destroyed v) (Held v) v v') ⊥ v := by
  induction items generalizing v with
  | nil => exact ⟨now_refl h, nofun⟩
  | cons it items ih =>
    rw [forall_mem_cons] at hi
    refine (wp_bind _ _).mpr (wp_mono (validateItem_spec op h hi.1) ?_ (fun _ _ hE => hE) fun _ hF => hF)
    rintro _ v1 ⟨hn, hd⟩
    have hh := ih hn.wf (by rw [hn.entries_eq]; exact hi.2)
    rw [hn.entries_eq, hn.destroyed_eq] at hh
    have ht {v' : V} (hv : Now (entries v) (destroyed v) (Held v1) v1 v') : Now (entries v) (destroyed v) (Held v) v v' :=
      hn.trans hv (fun _ _ hk => hk) fun _ hk => hk
    refine wp_mono hh (fun _ v' hv => ⟨ht hv.1, ?_⟩) (fun _ v' hv => ht hv) fun _ hF => hF
    exact forall_mem_cons.mpr ⟨fun he => hv.1.held_of _ (hd he), hv.2⟩

/-- What is checked out can be checked out again. -/
theorem checkOut_spec (h : Wf v) {k : Keylet} (msg : String) (hh : Held v k.key) (hs : (entries v k.key).isSome) :
    wp (checkOut k msg) (fun _ v' => Now (entries v) (destroyed v) (Held v) v v') ⊥ ⊥ v := by
  refine (wp_bind _ _).mpr (wp_mono (MapView.peek_spec k h) ?_ nofun nofun)
  rintro r v1 ⟨hd, -, hn⟩
  have hr : r = entries v k.key := Answer.pure_inj (hd.symm.trans (MapView.read_held h hh))
  obtain ⟨e, he⟩ := Option.isSome_iff_exists.mp hs
  rw [hr, he]
  exact hn

/-- Handing an item over edits what the parent shows at its key. -/
theorem applyItem_spec (h : Wf v) (he : it.2.sle.key = it.1)
    (hi : it.2.action = .insert ↔ entries v it.1 = none) (hh : it.2.action ≠ .insert → Held v it.1) :
    wp (applyItem it) (fun _ v' => Now (Function.update (entries v) it.1 it.2.shown) (destroyed v)
      (fun key => key ≠ it.1 ∧ Held v key) v v') ⊥ ⊥ v := by
  have hs (hne : it.2.action ≠ .insert) : (entries v it.1).isSome :=
    Option.isSome_iff_ne_none.mpr fun hn => hne (hi.mpr hn)
  rw [applyItem]
  cases ha : it.2.action with
  | insert =>
    refine wp_mono (MapView.insert_spec it.2.sle h (by rw [he]; exact hi.mp ha)) ?_ nofun nofun
    intro _ v' hv'
    rw [he] at hv'
    rw [shown_of_live (by rw [ha]; nofun)]
    exact ⟨hv'.wf, hv'.entries_eq, hv'.destroyed_eq, hv'.flags_eq, fun key he => hv'.held_of key he.2⟩
  | modify =>
    have hne : it.2.action ≠ .insert := by rw [ha]; nofun
    refine (wp_bind _ _).mpr (wp_mono (checkOut_spec h _ (hh hne) (hs hne)) ?_ nofun nofun)
    intro _ v1 hv
    refine wp_mono (MapView.update_spec it.2.sle hv.wf (by rw [hv.entries_eq, he]; exact hs hne)
      (by rw [he]; exact hv.held_of _ (hh hne))) ?_ nofun nofun
    intro _ v' hv'
    rw [he, hv.entries_eq, hv.destroyed_eq] at hv'
    rw [shown_of_live (by rw [ha]; nofun)]
    exact hv.trans hv' (fun _ _ he => he) fun _ he => he.2
  | erase =>
    have hne : it.2.action ≠ .insert := by rw [ha]; nofun
    refine (wp_bind _ _).mpr (wp_mono (checkOut_spec h _ (hh hne) (hs hne)) ?_ nofun nofun)
    intro _ v1 hv
    refine wp_mono (MapView.erase_spec it.2.sle hv.wf (by rw [hv.entries_eq, he]; exact hs hne)
      (by rw [he]; exact hv.held_of _ (hh hne))) ?_ nofun nofun
    intro _ v' hv'
    rw [he, hv.entries_eq, hv.destroyed_eq] at hv'
    rw [Entry.shown, if_pos ha]
    exact hv.trans hv' (fun _ he hk => ⟨he.1, hk⟩) fun _ he => he.2

/-- Handing all items over edits what the parent shows at each of their keys. -/
theorem applyItems_spec (h : Wf v) (hd : items.Pairwise fun a b => a.1 ≠ b.1)
    (hk : ∀ it ∈ items, it.2.sle.key = it.1)
    (hi : ∀ it ∈ items, it.2.action = .insert ↔ entries v it.1 = none)
    (hh : ∀ it ∈ items, it.2.action ≠ .insert → Held v it.1) :
    wp (forEach applyItem items) (fun _ v' => Wf v' ∧ destroyed v' = destroyed v ∧
        entries v' = items.foldl (fun m it => Function.update m it.1 it.2.shown) (entries v)) ⊥ ⊥ v := by
  induction items generalizing v with
  | nil => exact ⟨h, rfl, rfl⟩
  | cons it items ih =>
    rw [forall_mem_cons] at hk hi hh
    rw [pairwise_cons] at hd
    refine (wp_bind _ _).mpr (wp_mono (applyItem_spec h hk.1 hi.1 hh.1) ?_ nofun nofun)
    intro _ v1 hv
    -- the other items are at other keys
    have ho (other : Uint256 × Entry) (hm : other ∈ items) : entries v1 other.1 = entries v other.1 := by
      rw [hv.entries_eq, Function.update_of_ne (Ne.symm (hd.1 other hm))]
    refine wp_mono (ih hv.wf hd.2 hk.2 (fun other hm => ?_) fun other hm hn => ?_) ?_ nofun nofun
    · rw [ho other hm]
      exact hi.2 other hm
    · exact hv.held_of _ ⟨Ne.symm (hd.1 other hm), hh.2 other hm hn⟩
    · rintro _ v' ⟨hw, hde, he⟩
      exact ⟨hw, hde.trans hv.destroyed_eq, by rw [he, hv.entries_eq]; rfl⟩

/-- **Handing over.** `apply` fails and leaves what the parent shows and its destroyed drops, or it makes the parent show
what the child shows. -/
theorem apply_spec (h : Valid c) : wp c.apply (fun _ v' => Wf v' ∧ entries v' = c.shows ∧
        destroyed v' = destroyed c.parent + if c.burns then c.dropsDestroyed else 0)
      (fun _ v' => Wf v' ∧ entries v' = entries c.parent ∧ destroyed v' = destroyed c.parent)
      (fun fault => fault = .overflow ∧ ¬ FitsI64 (destroyed c.parent + c.dropsDestroyed)) c.parent := by
  have hm {it : Uint256 × Entry} (him : it ∈ c.items.toList) : c.items[it.1]? = some it.2 :=
    TreeMap.mem_toList.mp him
  have hi : ∀ it ∈ c.items.toList, it.2.action = .insert ↔ entries c.parent it.1 = none :=
    fun it him => h.inserted (hm him)
  rw [apply, wp_bind]
  refine wp_mono (validateParentCommit_spec _ h.parent hi) ?_
    (fun _ v' hv' => ⟨hv'.wf, hv'.entries_eq, hv'.destroyed_eq⟩) nofun
  rintro _ v1 ⟨hv1, hh⟩
  -- what follows a parent that shows what it showed before
  have hr (v2 : V) (d : ℤ) (hv : Now (entries c.parent) (destroyed c.parent + d) (Held v1) v1 v2) :
      wp (forEach applyItem c.items.toList) (fun _ v' => Wf v' ∧ entries v' = c.shows ∧
        destroyed v' = destroyed c.parent + d) ⊥ ⊥ v2 := by
    refine wp_mono (applyItems_spec hv.wf (TreeMap.distinct_toList c.items) (fun it him => h.key (hm him))
      (by rw [hv.entries_eq]; exact hi) fun it him hn => hv.held_of _ (hh it him hn)) ?_ nofun nofun
    rintro _ v' ⟨hw, hde, he⟩
    refine ⟨hw, ?_, hde.trans hv.destroyed_eq⟩
    rw [he, hv.entries_eq]
    exact foldl_update_toList
  rw [wp_bind, wp_when]
  refine ⟨fun hb => ?_, fun hb => ?_⟩
  · have hd := MapView.destroyXrp_spec c.dropsDestroyed hv1.wf
    rw [hv1.entries_eq, hv1.destroyed_eq] at hd
    refine wp_mono hd (fun _ v2 hv => ?_) nofun fun _ hF => hF
    rw [if_pos hb]
    exact wp_mono (hr v2 _ hv) (fun _ _ hQ => hQ) nofun nofun
  · rw [hb]
    refine wp_mono (hr v1 0 ?_) (fun _ _ hQ => hQ) nofun nofun
    rw [Int.add_zero, ← hv1.entries_eq, ← hv1.destroyed_eq]
    exact now_refl hv1.wf

theorem valid_new {parent : V} (h : Wf parent) (flags : Option ApplyFlags) : Valid (⟨parent, ∅, 0, flags⟩ : FlowSandbox V) where
  parent := h
  key he := by rw [getElem?_empty] at he; cases he
  inserted he := by rw [getElem?_empty] at he; cases he
  drops := fitsI64_zero

end FlowSandbox

theorem Sandbox.valid_new {B : Type} [ReadView B] [MapReadView B] {base : B} (h : Wf base) (flags : ApplyFlags) :
    Sandbox.Valid (new base flags) where
  base := h
  key he := by rw [new, ApplyStateTable.new, getElem?_empty] at he; cases he
  inserted he := by rw [new, ApplyStateTable.new, getElem?_empty] at he; cases he
  drops := fitsI64_zero

/-- **A flow sandbox is an overlay that is handed over as a whole.** Over a parent that behaves like a map, any calls on
a new child that are allowed make the child answer as the edited map, and do not change the parent's answers. `apply`
then fails, and the parent answers as before and has destroyed as much as before; or it returns, and the parent
answers as the child did and has destroyed the child's total more, if that is more than nothing and no dry run. A panic
is an addition of drops that leaves an `i64`. -/
theorem handed_over_whole {V : Type} [ApplyView V] [MapView V] {parent : V} (hparent : Wf parent)
    (flags : Option ApplyFlags) (ops : List Op) (hops : Op.AllAllowed ops (entries parent)) :
    Answers parent (entries parent) ∧ wp (Op.runAll ops) (fun _ c => Answers c (Op.editAll ops (entries parent)) ∧
          Answers c.parent (entries parent) ∧ destroyed c.parent = destroyed parent ∧ wp c.apply
            (fun _ after => Answers after (Op.editAll ops (entries parent)) ∧ destroyed after = destroyed parent +
                if 0 < Op.total ops ∧ flags.getD (ApplyView.flags parent) &&& dryRun = 0 then Op.total ops else 0)
            (fun _ after => Answers after (entries parent) ∧ destroyed after = destroyed parent)
            (fun fault => fault = .overflow ∧ ¬ FitsI64 (destroyed parent + Op.total ops)) c.parent)
        (fun _ _ => False) (fun fault => fault = .overflow ∧ ∃ n, ¬ FitsI64 (Op.total (ops.take n)))
        (⟨parent, ∅, 0, flags⟩ : FlowSandbox V) := by
  refine ⟨MapReadView.answers hparent, ?_⟩
  have hn : FlowSandbox.shows (⟨parent, ∅, 0, flags⟩ : FlowSandbox V) = entries parent := overlay_empty
  have hr := FlowSandbox.runAll_spec (FlowSandbox.valid_new hparent flags) ops (by rwa [hn])
  refine wp_mono hr ?_ (fun _ _ hF => hF) fun _ hF => by simpa only [Int.zero_add] using hF
  rintro _ c ⟨hv, hsw, hdr, hs⟩
  rw [Int.zero_add] at hdr
  have ha : Answers c.parent (entries parent) := hs.entries_eq ▸ MapReadView.answers hv.parent
  refine ⟨hsw ▸ MapReadView.answers (v := c) hv, ha, hs.destroyed_eq, ?_⟩
  have hb : c.burns ↔ 0 < Op.total ops ∧ flags.getD (ApplyView.flags parent) &&& dryRun = 0 := by
    rw [FlowSandbox.burns, FlowSandbox.applyFlags_eq hs, hdr, Bool.and_eq_true, decide_eq_true_eq, decide_eq_true_eq]
    rfl
  refine wp_mono (FlowSandbox.apply_spec hv) ?_ ?_ ?_
  · rintro _ after ⟨hw, he, hd⟩
    refine ⟨hsw ▸ he ▸ MapReadView.answers hw, ?_⟩
    rw [hd, hs.destroyed_eq, hdr]
    congr 1
    exact if_congr hb rfl rfl
  · rintro _ after ⟨hw, he, hd⟩
    exact ⟨hs.entries_eq ▸ he ▸ MapReadView.answers hw, hd.trans hs.destroyed_eq⟩
  · rintro fault ⟨hf, ht⟩
    exact ⟨hf, by rwa [hs.destroyed_eq, hdr] at ht⟩

/-- A key, an offer at it, and a ledger that has it. -/
def offerKey : Uint256 := .ofFirst 1

@[inherit_doc offerKey] def offerEntry : STLedgerEntry := .new ⟨.offer, offerKey⟩

@[inherit_doc offerKey] def offerLedger : Ledger := ⟨(∅ : ExtTreeMap Uint256 (LedgerEntryType × STObject)).insert offerKey (.offer, offerEntry.object)⟩

theorem handed_over_whole_offer : Wf (FlowSandbox.new (Sandbox.new offerLedger 0)) ∧
      Op.AllAllowed [.erase offerEntry, .insert offerEntry, .destroyXrp 5]
        (entries (FlowSandbox.new (Sandbox.new offerLedger 0))) ∧
      Answers (FlowSandbox.new (Sandbox.new offerLedger 0)) (entries (FlowSandbox.new (Sandbox.new offerLedger 0))) := by
  have hl : Wf offerLedger := by
    rfl
  have hp : Wf (FlowSandbox.new (Sandbox.new offerLedger 0)) := FlowSandbox.valid_new (Sandbox.valid_new hl 0) none
  have ho : Op.AllAllowed [.erase offerEntry, .insert offerEntry, .destroyXrp 5]
      (entries (FlowSandbox.new (new offerLedger 0))) := 
    ⟨rfl, rfl, trivial, trivial⟩
  exact ⟨hp, ho, (handed_over_whole hp none _ ho).1⟩

/-- What goes otherwise: a dry run and a negative total are not handed over, a total that leaves an `i64` panics, and a
look at an offer makes the parent find it under a keylet for an account. -/
theorem not_handed_over_whole :
    (∃ c, Op.runAll [.destroyXrp 5] (FlowSandbox.new (Sandbox.new offerLedger dryRun)) = .ok (.ok (), c) ∧
      ∃ after, c.apply c.parent = .ok (.ok (), after) ∧ destroyed after = 0) ∧
    (∃ c, Op.runAll [.destroyXrp (-5)] (FlowSandbox.new (Sandbox.new offerLedger 0)) = .ok (.ok (), c) ∧
      ∃ after, c.apply c.parent = .ok (.ok (), after) ∧ destroyed after = 0) ∧
    (∃ c, Op.runAll [.destroyXrp 1] (FlowSandbox.new (⟨offerLedger, ⟨∅, 2 ^ 63 - 1⟩, 0⟩ : Sandbox Ledger)) = .ok (.ok (), c) ∧
      c.apply c.parent = .error .overflow) ∧
    ∃ c, Op.runAll [.peek ⟨.offer, offerKey⟩] (FlowSandbox.new (Sandbox.new offerLedger 0)) = .ok (.ok (), c) ∧
      ReadView.read (Sandbox.new offerLedger 0) ⟨.accountRoot, offerKey⟩ = pure none ∧
      ReadView.read c.parent ⟨.accountRoot, offerKey⟩ = pure (some offerEntry) :=
  ⟨⟨_, rfl, _, rfl, rfl⟩, ⟨_, rfl, _, rfl, rfl⟩, ⟨_, rfl, rfl⟩, _, rfl, rfl, rfl⟩

end Xrpld.Views
