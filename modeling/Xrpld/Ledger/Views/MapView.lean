import Xrpld.Ledger.Views.FlowSandbox
import Xrpld.Lib.Overlay

/-!
# Views that behave like a map

What a view is for: it stands for a map from keys to entries. `MapReadView` says how such a view is read, `MapView`
how it is changed. A keylet that asks for another type than the entry at its key has is left open: a base ledger
finds nothing then, a table that holds the entry does not look at the type. What the type of a keylet cannot
spoil is said for all keylets.

Before an entry is updated or erased it has to be checked out (`Held`), which a `peek` that finds it does. Once it is,
it is found whatever type is asked for.

## What is proved

A base ledger is such a view (`MapReadView Ledger`), a sandbox over such a view is one, and so is a flow sandbox over
such a view; by instances this goes to any depth of flow sandboxes.
-/

namespace Xrpld.Views

open Protocol Std
open Function (update update_eq_self_iff)
open TreeMap ReadView

variable {V : Type} {key : Uint256} {e sle : STLedgerEntry} {act : Action}

/-- Whether an entry is one that a keylet asks for. -/
def Admits (k : Keylet) (e : STLedgerEntry) : Prop := k.checkLedgerEntry e.entryType e.key = true

/-- A keylet that does not ask for another type than the map has at its key. -/
def Suits (m : Uint256 → Option STLedgerEntry) (k : Keylet) : Prop := ∀ e, m k.key = some e → Admits k e

/-- A view that is read like a map from keys to entries. -/
class MapReadView (V : Type) [ReadView V] where
  /-- What holds of every view that is made and changed by its own operations. -/
  Wf : V → Prop
  entries : V → Uint256 → Option STLedgerEntry
  key_of_entries {v : V} {key : Uint256} {e : STLedgerEntry} : Wf v → entries v key = some e → e.key = key
  exists_eq {v : V} (k : Keylet) : Wf v → ReadView.exists_ v k = pure (entries v k.key).isSome
  succ_next {v : V} (key : Uint256) (last : Option Uint256) : Wf v →
    ∃ r, ReadView.succ v key last = pure r ∧ IsNext (fun n => (entries v n).isSome = true) key last r
  read_eq {v : V} {k : Keylet} : Wf v → Suits (entries v) k → ReadView.read v k = pure (entries v k.key)
  read_or {v : V} (k : Keylet) : Wf v → ReadView.read v k = pure none ∨ ReadView.read v k = pure (entries v k.key)

export MapReadView (Wf entries)

/-- **The answers of a map.** Whether a view answers as the map `m` would. -/
structure Answers {V : Type} [ReadView V] (v : V) (m : Uint256 → Option STLedgerEntry) : Prop where
  exists_ (k : Keylet) : ReadView.exists_ v k = pure (m k.key).isSome
  succ (key : Uint256) (last : Option Uint256) :
    ∃ r, ReadView.succ v key last = pure r ∧ IsNext (fun n => (m n).isSome = true) key last r
  read {k : Keylet} (h : Suits m k) : ReadView.read v k = pure (m k.key)

theorem MapReadView.answers [ReadView V] [MapReadView V] {v : V} (h : Wf v) : Answers v (entries v) :=
  ⟨fun k => exists_eq k h, fun key last => succ_next key last h, read_eq h⟩

/-- What a view has become: a map `m`, `d` destroyed drops, and the checked out entries of `held` still are. -/
structure Becomes {V : Type} [ApplyView V] (Wf : V → Prop) (entries : V → Uint256 → Option STLedgerEntry)
    (destroyed : V → ℤ) (Held : V → Uint256 → Prop) (m : Uint256 → Option STLedgerEntry) (d : ℤ)
    (held : Uint256 → Prop) (v v' : V) : Prop where
  wf : Wf v'
  entries_eq : entries v' = m
  destroyed_eq : destroyed v' = d
  flags_eq : ApplyView.flags v' = ApplyView.flags v
  held_of (key : Uint256) : held key → Held v' key

/-- A view that is changed like a map from keys to entries. -/
class MapView (V : Type) [ApplyView V] extends MapReadView V where
  /-- The drops that this view has recorded as destroyed. -/
  destroyed : V → ℤ
  /-- Whether the entry of a key is checked out. -/
  Held : V → Uint256 → Prop
  destroyed_fits {v : V} : Wf v → FitsI64 (destroyed v)
  read_held {v : V} {k : Keylet} : Wf v → Held v k.key → ReadView.read v k = pure (entries v k.key)
  peek_spec {v : V} (k : Keylet) : Wf v →
    wp (ApplyView.peek k) (fun r v' => ReadView.read v k = pure r ∧ (r.isSome = true → Held v' k.key) ∧
      Becomes Wf entries destroyed Held (entries v) (destroyed v) (Held v) v v') (fun _ _ => False) (fun _ => False) v
  insert_spec {v : V} (e : STLedgerEntry) : Wf v → entries v e.key = none →
    wp (ApplyView.insert e) (fun _ v' =>
      Becomes Wf entries destroyed Held (update (entries v) e.key (some e)) (destroyed v) (Held v) v v')
      (fun _ _ => False) (fun _ => False) v
  update_spec {v : V} (e : STLedgerEntry) : Wf v → (entries v e.key).isSome = true → Held v e.key →
    wp (ApplyView.update e) (fun _ v' =>
      Becomes Wf entries destroyed Held (update (entries v) e.key (some e)) (destroyed v) (Held v) v v')
      (fun _ _ => False) (fun _ => False) v
  erase_spec {v : V} (e : STLedgerEntry) : Wf v → (entries v e.key).isSome = true → Held v e.key →
    wp (ApplyView.erase e) (fun _ v' => Becomes Wf entries destroyed Held (update (entries v) e.key none)
      (destroyed v) (fun key => key ≠ e.key ∧ Held v key) v v') (fun _ _ => False) (fun _ => False) v
  destroyXrp_spec {v : V} (fee : ℤ) : Wf v →
    wp (ApplyView.destroyXrp fee) (fun _ v' =>
      Becomes Wf entries destroyed Held (entries v) (destroyed v + fee) (Held v) v v') (fun _ _ => False)
      (fun fault => fault = .overflow ∧ ¬ FitsI64 (destroyed v + fee)) v

export MapView (destroyed Held)

/-- What a view that behaves like a map has become. -/
abbrev Now {V : Type} [ApplyView V] [MapView V] (m : Uint256 → Option STLedgerEntry) (d : ℤ) (held : Uint256 → Prop)
    (v v' : V) : Prop := Becomes Wf entries destroyed Held m d held v v'

theorem now_refl [ApplyView V] [MapView V] {v : V} (h : Wf v) : Now (entries v) (destroyed v) (Held v) v v :=
  ⟨h, rfl, rfl, rfl, fun _ hk => hk⟩

/-- One change after another: what was checked out before the first one still is. -/
theorem Becomes.trans [ApplyView V] [MapView V] {m m' : Uint256 → Option STLedgerEntry} {d d' : ℤ}
    {held held' held'' : Uint256 → Prop} {v v1 v2 : V} (h : Now m d held v v1) (h' : Now m' d' held' v1 v2)
    (hh : ∀ key, held'' key → Held v1 key → held' key) (hs : ∀ key, held'' key → held key) : Now m' d' held'' v v2 :=
  ⟨h'.wf, h'.entries_eq, h'.destroyed_eq, h'.flags_eq.trans h.flags_eq,
    fun key hk => h'.held_of key (hh key hk (h.held_of key (hs key hk)))⟩

/-! ### A base ledger -/

namespace Ledger

variable {ledger : Ledger}

theorem key_of_entry (h : ledger.entry key = some e) : e.key = key := by
  obtain ⟨it, -, rfl⟩ := Option.map_eq_some_iff.mp h
  rfl

theorem isSome_entry : (ledger.entry key).isSome ↔ ∃ it, ledger.stateMap[key]? = some it := by
  rw [entry, Option.isSome_map, Option.isSome_iff_exists]

theorem upperBound_next : IsNext (fun n => (ledger.entry n).isSome) key none (ledger.upperBound key) := by
  have h := isNext_find? ledger.stateMap key fun _ => true
  simp only [Bool.and_true] at h
  exact h.congr fun n => by rw [isSome_entry]; simp

/-- A ledger without an entry at the zero key, which `read` never finds, is read like a map. -/
instance : MapReadView Ledger where
  Wf ledger := ledger.entry 0 = none
  entries := entry
  key_of_entries _ := key_of_entry
  exists_eq _ _ := rfl
  succ_next _ _ _ := ⟨_, rfl, upperBound_next.beforeLast⟩
  read_eq {ledger k} hz hsu := by
    change (pure _ : Answer _) = pure _
    congr 1
    split_ifs with hkey
    · rw [hkey, hz]
    · cases h : ledger.entry k.key with
      | none => rfl
      | some e =>
        exact if_pos (hsu e h)
  read_or {ledger} k _ := by
    change (pure _ : Answer _) = pure _ ∨ (pure _ : Answer _) = pure _
    split_ifs
    · exact .inl rfl
    · cases h : ledger.entry k.key with
      | none => exact .inl rfl
      | some e =>
        rw [Option.filter_some]
        split_ifs
        · exact .inr rfl
        · exact .inl rfl

end Ledger

/-! ### What a table shows -/

/-- The next key of a table over a base is the next key of what is visible. -/
theorem overlaySucc_next {A : Type} {items : ExtTreeMap Uint256 A} {shown : A → Option STLedgerEntry}
    {below : Uint256 → Option STLedgerEntry} {er : A → Bool} {base : Uint256 → Option Uint256 → Answer (Option Uint256)}
    (hs : ∀ a, (shown a).isSome ↔ er a = false) (key : Uint256) (last : Option Uint256)
    (hb : ∀ key, ∃ r, base key last = pure r ∧ IsNext (fun n => (below n).isSome) key last r) :
    ∃ r, overlaySucc items er base key last = pure r ∧
      IsNext (fun n => (overlay items shown below n).isSome) key last r := by
  obtain ⟨r, hr, hx⟩ := overlaySucc_spec items er key hb
  refine ⟨r, hr, hx.congr fun n => ?_⟩
  cases hn : items[n]? with
  | none => simp [overlay_none hn]
  | some a =>
    rw [overlay_some hn, hs]
    cases h : er a <;> simp [h]

/-! ### Sandboxes -/

variable {k : Keylet}

namespace Sandbox

variable {B : Type} [ReadView B] [MapReadView B] {s : Sandbox B}

/-- What holds of a sandbox that its operations made. -/
structure Valid (s : Sandbox B) : Prop where
  base : Wf s.base
  key {key : Uint256} {entry : StateEntry} : s.table.items[key]? = some entry → entry.sle.key = key
  inserted {key : Uint256} {entry : StateEntry} : s.table.items[key]? = some entry → entry.action = .insert →
    entries s.base key = none
  drops : FitsI64 s.table.dropsDestroyed

/-- What a sandbox shows. -/
def shows (s : Sandbox B) : Uint256 → Option STLedgerEntry := overlay s.table.items StateEntry.shown (entries s.base)

/-- The table has an entry that is not erased. -/
def Live (s : Sandbox B) (key : Uint256) : Prop := ∃ entry, s.table.items[key]? = some entry ∧ entry.action ≠ .erase

variable {entry : StateEntry}

theorem shown_of_live (h : entry.action ≠ .erase) : entry.shown = some entry.sle := if_neg h

theorem isSome_shown : entry.shown.isSome ↔ decide (entry.action = .erase) = false := by
  by_cases h : entry.action = .erase <;> simp [StateEntry.shown, h]

/-- The table after an entry is put in it. -/
def putEntry (action : Action) (sle : STLedgerEntry) (s : Sandbox B) : Sandbox B := { s with table := s.table.put action sle }

omit [ReadView B] [MapReadView B] in
theorem getElem?_putEntry (key : Uint256) :
    (s.putEntry act sle).table.items[key]? = if sle.key = key then some ⟨act, sle⟩ else s.table.items[key]? :=
  getElem?_insert

theorem Valid.putEntry (h : Valid s) (hi : act = .insert → entries s.base sle.key = none) :
    Valid (s.putEntry act sle) where
  base := h.base
  key {key entry} he := by
    rw [getElem?_putEntry] at he
    split_ifs at he with hk
    · cases he
      exact hk
    · exact h.key he
  inserted {key entry} he ha := by
    rw [getElem?_putEntry] at he
    split_ifs at he with hk
    · cases he
      exact hk ▸ hi ha
    · exact h.inserted he ha
  drops := h.drops

theorem shows_putEntry : shows (s.putEntry act sle) = update s.shows sle.key (StateEntry.shown ⟨act, sle⟩) :=
  overlay_insert

omit [ReadView B] [MapReadView B] in
theorem Live.putEntry (h : Live s key) (ha : act ≠ .erase ∨ key ≠ sle.key) : Live (s.putEntry act sle) key := by
  obtain ⟨entry, he, hl⟩ := h
  rw [Live, getElem?_putEntry]
  by_cases hk : sle.key = key
  · exact ⟨_, if_pos hk, ha.resolve_right (fun hn => hn hk.symm)⟩
  · exact ⟨entry, by rw [if_neg hk, he], hl⟩

/-- The operations that put an entry which is not erased in the table. -/
theorem becomes_putEntry (act : Action) (sle : STLedgerEntry) (h : Valid s) (hl : act ≠ .erase)
    (hi : act = .insert → entries s.base sle.key = none) :
    Becomes Valid shows (·.table.dropsDestroyed) Live (update s.shows sle.key (some sle)) s.table.dropsDestroyed
      (Live s) s (s.putEntry act sle) where
  wf := h.putEntry hi
  entries_eq := by rw [shows_putEntry, shown_of_live hl]
  destroyed_eq := rfl
  flags_eq := rfl
  held_of _ hk := hk.putEntry (.inl hl)

omit [MapReadView B] in
theorem read_eq_of_item (h : s.table.items[k.key]? = some entry) : ReadView.read s k = pure entry.shown := by
  change s.table.read s.base k = _
  rw [ApplyStateTable.read, h]

omit [MapReadView B] in
theorem read_eq_of_no_item (h : s.table.items[k.key]? = none) : ReadView.read s k = ReadView.read s.base k := by
  change s.table.read s.base k = _
  rw [ApplyStateTable.read, h]

variable (h : Valid s)

include h

theorem exists_shows (k : Keylet) : ReadView.exists_ s k = pure (s.shows k.key).isSome := by
  change s.table.exists_ s.base k = _
  rw [ApplyStateTable.exists_, shows, overlay]
  cases hi : s.table.items[k.key]? with
  | none => exact MapReadView.exists_eq k h.base
  | some entry => by_cases he : entry.action = .erase <;> simp [StateEntry.shown, he]

/-- Whatever a read finds is what is shown. -/
theorem read_shows_or (k : Keylet) : read s k = pure none ∨ read s k = pure (s.shows k.key) := by
  cases hi : s.table.items[k.key]? with
  | none =>
    rw [read_eq_of_no_item hi, shows, overlay_none hi]
    exact MapReadView.read_or k h.base
  | some entry => exact .inr (by rw [read_eq_of_item hi, shows, overlay_some hi])

omit h in
theorem read_of_live (h : Live s k.key) : read s k = pure (s.shows k.key) := by
  obtain ⟨entry, he, -⟩ := h
  rw [read_eq_of_item he, shows, overlay_some he]

theorem live_peek_spec (k : Keylet) :
    wp (peek k) (fun r s' => ReadView.read s k = pure r ∧ (r.isSome → Live s' k.key) ∧
      Becomes Valid shows (·.table.dropsDestroyed) Live s.shows s.table.dropsDestroyed (Live s) s s') ⊥ ⊥ s := by
  have hf : Becomes Valid shows (·.table.dropsDestroyed) Live s.shows s.table.dropsDestroyed (Live s) s s :=
    ⟨h, rfl, rfl, rfl, fun _ hk => hk⟩
  simp only [peek, onTable, ApplyStateTable.peek, wp_bind, wp_read, wp_zoom]
  cases hi : s.table.items[k.key]? with
  | some entry =>
    refine ⟨read_eq_of_item hi, fun hs => ⟨entry, hi, ?_⟩, hf⟩
    simpa using isSome_shown.mp hs
  | none =>
    obtain ⟨r, hr⟩ : ∃ r, ReadView.read s.base k = pure r := by
      rcases MapReadView.read_or k h.base with hr | hr <;> exact ⟨_, hr⟩
    rw [wp_bind]
    refine Edit.wp_ask hr ?_
    have hd : ReadView.read s k = pure r := by rw [read_eq_of_no_item hi, hr]
    cases r with
    | none => exact ⟨hd, (fun h => by cases h), hf⟩
    | some e =>
      -- what the base found is what is shown there, and it is now in the table
      have hw : entries s.base k.key = some e := by
        rcases MapReadView.read_or k h.base with hn | hs
        · exact absurd (Answer.pure_inj (hr.symm.trans hn)) (Option.some_ne_none e)
        · exact (Answer.pure_inj (hr.symm.trans hs)).symm
      have hk : e.key = k.key := MapReadView.key_of_entries h.base hw
      have hb := becomes_putEntry .cache e h (by simp) (by simp)
      have hm : update s.shows e.key (some e) = s.shows := by
        rw [hk, update_eq_self_iff, shows, overlay_none hi, hw]
      rw [hm] at hb
      have hp : s.putEntry .cache e = { s with table := { s.table with items := s.table.items.insert k.key ⟨.cache, e⟩ } } := by
        rw [← hk]; rfl
      rw [hp] at hb
      refine ⟨hd, fun _ => ⟨⟨.cache, e⟩, ?_, by simp⟩, hb⟩
      exact TreeMap.getElem?_insert.trans (if_pos rfl)

theorem live_insert_spec (ha : s.shows sle.key = none) :
    wp (onTable (ApplyStateTable.insert sle)) (fun _ s' => Becomes Valid shows (·.table.dropsDestroyed) Live
      (update s.shows sle.key (some sle)) s.table.dropsDestroyed (Live s) s s') ⊥ ⊥ s := by
  simp only [onTable, ApplyStateTable.insert, wp_bind, wp_read, wp_zoom]
  cases hi : s.table.items[sle.key]? with
  | none =>
    rw [shows, overlay_none hi] at ha
    exact becomes_putEntry _ _ h (by simp) fun _ => ha
  | some entry =>
    rw [shows, overlay_some hi] at ha
    obtain ⟨act, old⟩ := entry
    cases act with
    | erase => exact becomes_putEntry _ _ h (by simp) (by simp)
    | cache | insert | modify => cases ha

theorem live_update_spec (hl : Live s sle.key) :
    wp (onTable (ApplyStateTable.update sle)) (fun _ s' => Becomes Valid shows (·.table.dropsDestroyed) Live
      (update s.shows sle.key (some sle)) s.table.dropsDestroyed (Live s) s s') ⊥ ⊥ s := by
  obtain ⟨⟨act, old⟩, hi, hn⟩ := hl
  simp only [onTable, ApplyStateTable.update, wp_bind, wp_read, wp_zoom, hi]
  cases act with
  | erase => exact absurd rfl hn
  | cache | modify => exact becomes_putEntry _ _ h (by simp) (by simp)
  | insert => exact becomes_putEntry _ _ h (by simp) fun _ => h.inserted hi rfl

theorem live_erase_spec (hl : Live s sle.key) :
    wp (onTable (ApplyStateTable.erase sle)) (fun _ s' => Becomes Valid shows (·.table.dropsDestroyed) Live
      (update s.shows sle.key none) s.table.dropsDestroyed (fun key => key ≠ sle.key ∧ Live s key) s s') ⊥ ⊥ s := by
  obtain ⟨⟨act, old⟩, hi, hne⟩ := hl
  simp only [onTable, ApplyStateTable.erase, wp_bind, wp_read, wp_zoom, hi]
  have he : Becomes Valid shows (·.table.dropsDestroyed) Live (update s.shows sle.key none)
      s.table.dropsDestroyed (fun key => key ≠ sle.key ∧ Live s key) s (s.putEntry .erase sle) :=
    ⟨h.putEntry (by simp), shows_putEntry, rfl, rfl, fun _ hk => hk.2.putEntry (.inr hk.1)⟩
  cases act with
  | erase => exact absurd rfl hne
  | cache | modify => exact he
  | insert =>
    -- the base has no entry there, so that taking the item out hides it
    have hg {key : Uint256} {entry : StateEntry} (hen : (s.table.items.erase sle.key)[key]? = some entry) :
        s.table.items[key]? = some entry := by
      rw [TreeMap.getElem?_erase] at hen
      split_ifs at hen
      exact hen
    refine ⟨⟨h.base, fun hen => h.key (hg hen), fun hen => h.inserted (hg hen), h.drops⟩, ?_, rfl, rfl, ?_⟩
    · change overlay (s.table.items.erase sle.key) _ _ = _
      rw [overlay_erase, h.inserted hi rfl]
      rfl
    · rintro key ⟨hn, entry, hen, hl⟩
      exact ⟨entry, TreeMap.getElem?_erase.trans ((if_neg (Ne.symm hn)).trans hen), hl⟩

omit h

/-- **Sandboxes are maps.** A sandbox over a view that is read like a map behaves like a map. -/
instance : MapView (Sandbox B) where
  Wf := Valid
  entries := shows
  destroyed := (·.table.dropsDestroyed)
  Held := Live
  key_of_entries {s key e} h hsw := by
    rw [shows, overlay] at hsw
    split at hsw
    · next entry him =>
      rw [StateEntry.shown] at hsw
      split_ifs at hsw
      cases hsw
      exact h.key him
    · exact MapReadView.key_of_entries h.base hsw
  exists_eq k h := exists_shows h k
  succ_next key last h :=
    overlaySucc_next (fun _ => isSome_shown) key last fun key => MapReadView.succ_next key last h.base
  read_eq {s k} h hsu := by
    cases him : s.table.items[k.key]? with
    | none =>
      have hbl : s.shows k.key = entries s.base k.key := overlay_none him
      rw [read_eq_of_no_item him, hbl]
      exact MapReadView.read_eq h.base fun e he => hsu e (hbl.trans he)
    | some entry => rw [read_eq_of_item him, shows, overlay_some him]
  read_or k h := read_shows_or h k
  destroyed_fits h := h.drops
  read_held _ hlv := read_of_live hlv
  peek_spec k h := live_peek_spec h k
  insert_spec _ h hab := live_insert_spec h hab
  update_spec _ h _ hlv := live_update_spec h hlv
  erase_spec _ h _ hlv := live_erase_spec h hlv
  destroyXrp_spec {s} fee h := by
    change wp (onTable (ApplyStateTable.destroyXrp fee)) _ _ _ s
    simp only [onTable, ApplyStateTable.destroyXrp, wp_bind, wp_read, wp_zoom, addDrops]
    by_cases hft : FitsI64 (s.table.dropsDestroyed + fee)
    · rw [if_pos hft]
      exact ⟨⟨h.base, h.key, h.inserted, hft⟩, rfl, rfl, rfl, fun _ hkey => hkey⟩
    · rw [if_neg hft]
      exact ⟨rfl, hft⟩

end Sandbox

/-! ### Flow sandboxes -/

namespace FlowSandbox

variable [ApplyView V] [MapView V] {c : FlowSandbox V} {entry : Entry}

/-- What holds of a flow sandbox that its operations made. -/
structure Valid (c : FlowSandbox V) : Prop where
  parent : Wf c.parent
  key {key : Uint256} {entry : Entry} : c.items[key]? = some entry → entry.sle.key = key
  /-- An inserted entry is new to the parent, a modified or erased one is not. -/
  inserted {key : Uint256} {entry : Entry} : c.items[key]? = some entry →
    (entry.action = .insert ↔ entries c.parent key = none)
  drops : FitsI64 c.dropsDestroyed

/-- What a flow sandbox shows. -/
def shows (c : FlowSandbox V) : Uint256 → Option STLedgerEntry := overlay c.items Entry.shown (entries c.parent)

/-- The child has an entry, or the parent has it checked out. -/
def Live (c : FlowSandbox V) (key : Uint256) : Prop := (∃ entry, c.items[key]? = some entry) ∨ Held c.parent key

theorem shown_of_live (h : entry.action ≠ .erase) : entry.shown = some entry.sle := if_neg h

theorem isSome_shown : entry.shown.isSome ↔ decide (entry.action = .erase) = false := by
  by_cases h : entry.action = .erase <;> simp [Entry.shown, h]

omit [ApplyView V] [MapView V] in
theorem getElem?_put (key : Uint256) :
    (c.put act sle).items[key]? = if sle.key = key then some ⟨act, sle⟩ else c.items[key]? :=
  getElem?_insert

theorem shows_put : shows (c.put act sle) = update c.shows sle.key (Entry.shown ⟨act, sle⟩) := overlay_insert

theorem Valid.put (h : Valid c) (hi : act = .insert ↔ entries c.parent sle.key = none) : Valid (c.put act sle) where
  parent := h.parent
  key {key entry} he := by
    rw [getElem?_put] at he
    split_ifs at he with hk
    · cases he
      exact hk
    · exact h.key he
  inserted {key entry} he := by
    rw [getElem?_put] at he
    split_ifs at he with hk
    · cases he
      exact hk ▸ hi
    · exact h.inserted he
  drops := h.drops

theorem Live.put (h : Live c key) : Live (c.put act sle) key := by
  refine h.imp_left fun ⟨entry, he⟩ => ?_
  rw [getElem?_put]
  by_cases hk : sle.key = key
  · exact ⟨_, if_pos hk⟩
  · exact ⟨entry, by rw [if_neg hk, he]⟩

/-- The operations that put an entry in the child. -/
theorem becomes_put (act : Action) (sle : STLedgerEntry) (h : Valid c) (hi : act = .insert ↔ entries c.parent sle.key = none) :
    Becomes Valid shows dropsDestroyed Live (update c.shows sle.key (Entry.shown ⟨act, sle⟩)) c.dropsDestroyed
      (Live c) c (c.put act sle) :=
  ⟨h.put hi, shows_put, rfl, rfl, fun _ hk => hk.put⟩

omit [MapView V] in
theorem read_eq_of_item (h : c.items[k.key]? = some entry) : ReadView.read c k = pure entry.shown := by
  change c.read k = _
  rw [read, h]

omit [MapView V] in
theorem read_eq_of_no_item (h : c.items[k.key]? = none) : ReadView.read c k = ReadView.read c.parent k := by
  change c.read k = _
  rw [read, h]

variable (h : Valid c)

include h

theorem exists_shows (k : Keylet) : ReadView.exists_ c k = pure (c.shows k.key).isSome := by
  change c.exists_ k = _
  rw [exists_, shows, overlay]
  cases hi : c.items[k.key]? with
  | none => exact MapReadView.exists_eq k h.parent
  | some entry => by_cases he : entry.action = .erase <;> simp [Entry.shown, he]

theorem read_of_live (hl : Live c k.key) : ReadView.read c k = pure (c.shows k.key) := by
  cases hi : c.items[k.key]? with
  | some entry => rw [read_eq_of_item hi, shows, overlay_some hi]
  | none =>
    have hh : Held c.parent k.key := hl.resolve_left fun ⟨entry, he⟩ => by rw [hi] at he; cases he
    rw [read_eq_of_no_item hi, shows, overlay_none hi, MapView.read_held h.parent hh]

theorem live_peek_spec (k : Keylet) :
    wp (peek k) (fun r c' => ReadView.read c k = pure r ∧ (r.isSome → Live c' k.key) ∧
      Becomes Valid shows dropsDestroyed Live c.shows c.dropsDestroyed (Live c) c c') ⊥ ⊥ c := by
  simp only [peek, onParent, wp_bind, wp_read]
  cases hi : c.items[k.key]? with
  | some entry =>
    exact ⟨read_eq_of_item hi, fun _ => .inl ⟨entry, hi⟩, h, rfl, rfl, rfl, fun _ hk => hk⟩
  | none =>
    refine (wp_zoom _ _ _).mpr (wp_mono (MapView.peek_spec k h.parent) ?_ (fun _ _ hF => hF) fun _ hF => hF)
    rintro r parent ⟨hr, hh, hn⟩
    refine ⟨(read_eq_of_no_item hi).trans hr, fun hs => .inr (hh hs), ?_⟩
    refine ⟨⟨hn.wf, h.key, fun he => ?_, h.drops⟩, ?_, rfl, ?_, fun key => Or.imp_right (hn.held_of key)⟩
    · rw [hn.entries_eq]
      exact h.inserted he
    · change overlay c.items Entry.shown (entries parent) = _
      rw [hn.entries_eq]
      rfl
    · change Option.getD c.flags (ApplyView.flags parent) = _
      rw [hn.flags_eq]
      rfl

theorem live_insert_spec (ha : c.shows sle.key = none) :
    wp (rawInsert sle) (fun _ c' => Becomes Valid shows dropsDestroyed Live
      (update c.shows sle.key (some sle)) c.dropsDestroyed (Live c) c c') ⊥ ⊥ c := by
  simp only [rawInsert, wp_bind, wp_read]
  cases hm : c.items[sle.key]? with
  | none =>
    rw [shows, overlay_none hm] at ha
    exact becomes_put .insert sle h (iff_of_true rfl ha)
  | some entry =>
    rw [shows, overlay_some hm] at ha
    have hi := h.inserted hm
    obtain ⟨act, old⟩ := entry
    cases act with
    | erase => exact becomes_put .modify sle h (iff_of_false (by simp) fun hn => by cases hi.mpr hn)
    | insert | modify => cases ha

theorem live_update_spec (hp : (c.shows sle.key).isSome) :
    wp (rawReplace sle) (fun _ c' => Becomes Valid shows dropsDestroyed Live
      (update c.shows sle.key (some sle)) c.dropsDestroyed (Live c) c c') ⊥ ⊥ c := by
  simp only [rawReplace, wp_bind, wp_read]
  cases hm : c.items[sle.key]? with
  | none =>
    rw [shows, overlay_none hm] at hp
    exact becomes_put .modify sle h (iff_of_false (by simp) fun hn => by rw [hn] at hp; cases hp)
  | some entry =>
    have hi := h.inserted hm
    obtain ⟨act, old⟩ := entry
    cases act with
    | insert => exact becomes_put .insert sle h (iff_of_true rfl (hi.mp rfl))
    | erase | modify => exact becomes_put .modify sle h (iff_of_false (by simp) fun hn => by cases hi.mpr hn)

theorem live_erase_spec (hr : (c.shows sle.key).isSome) :
    wp (rawErase sle) (fun _ c' => Becomes Valid shows dropsDestroyed Live (update c.shows sle.key none)
      c.dropsDestroyed (fun key => key ≠ sle.key ∧ Live c key) c c') ⊥ ⊥ c := by
  simp only [rawErase, wp_bind, wp_read]
  have he (ha : entries c.parent sle.key ≠ none) : Becomes Valid shows dropsDestroyed Live
      (update c.shows sle.key none) c.dropsDestroyed (fun key => key ≠ sle.key ∧ Live c key) c (c.put .erase sle) :=
    have hp := becomes_put .erase sle h (iff_of_false (by simp) ha)
    ⟨hp.wf, hp.entries_eq, rfl, rfl, fun key hk => hp.held_of key hk.2⟩
  cases hm : c.items[sle.key]? with
  | none =>
    rw [shows, overlay_none hm] at hr
    exact he fun ho => by rw [ho] at hr; cases hr
  | some entry =>
    have hi := h.inserted hm
    obtain ⟨act, old⟩ := entry
    cases act with
    | erase | modify => exact he fun ho => by cases hi.mpr ho
    | insert =>
      have hg {key : Uint256} {entry : Entry} (hn : (c.items.erase sle.key)[key]? = some entry) :
          c.items[key]? = some entry := by
        rw [TreeMap.getElem?_erase] at hn
        split_ifs at hn
        exact hn
      refine ⟨⟨h.parent, fun hn => h.key (hg hn), fun hn => h.inserted (hg hn), h.drops⟩, ?_, rfl, rfl, ?_⟩
      · change overlay (c.items.erase sle.key) _ _ = _
        rw [overlay_erase, hi.mp rfl]
        rfl
      · rintro key ⟨hne, hl⟩
        exact hl.imp_left fun ⟨entry, hn⟩ => ⟨entry, getElem?_erase.trans ((if_neg (Ne.symm hne)).trans hn)⟩

omit h

/-- **Flow sandboxes are maps.** A flow sandbox over a view that behaves like a map behaves like a map, so that flow
sandboxes can be nested to any depth. -/
instance : MapView (FlowSandbox V) where
  Wf := Valid
  entries := shows
  destroyed := dropsDestroyed
  Held := Live
  key_of_entries {c key e} h hsw := by
    rw [shows, overlay] at hsw
    split at hsw
    · next entry him =>
      rw [Entry.shown] at hsw
      split_ifs at hsw
      cases hsw
      exact h.key him
    · exact MapReadView.key_of_entries h.parent hsw
  exists_eq k h := exists_shows h k
  succ_next key last h :=
    overlaySucc_next (fun _ => isSome_shown) key last fun key => MapReadView.succ_next key last h.parent
  read_eq {c k} h hsu := by
    cases him : c.items[k.key]? with
    | none =>
      have hbl : c.shows k.key = entries c.parent k.key := overlay_none him
      rw [read_eq_of_no_item him, hbl]
      exact MapReadView.read_eq h.parent fun e he => hsu e (hbl.trans he)
    | some entry => rw [read_eq_of_item him, shows, overlay_some him]
  read_or {c} k h := by
    cases him : c.items[k.key]? with
    | none =>
      rw [read_eq_of_no_item him, shows, overlay_none him]
      exact MapReadView.read_or k h.parent
    | some entry => exact .inr (by rw [read_eq_of_item him, shows, overlay_some him])
  destroyed_fits h := h.drops
  read_held h hlv := read_of_live h hlv
  peek_spec k h := live_peek_spec h k
  insert_spec _ h hab := live_insert_spec h hab
  update_spec _ h hpr _ := live_update_spec h hpr
  erase_spec _ h hpr _ := live_erase_spec h hpr
  destroyXrp_spec {c} fee h := by
    change wp (rawDestroyXrp fee) _ _ _ c
    simp only [rawDestroyXrp, wp_bind, wp_read, addDrops]
    by_cases hft : FitsI64 (c.dropsDestroyed + fee)
    · rw [if_pos hft]
      exact ⟨⟨h.parent, h.key, h.inserted, hft⟩, rfl, rfl, rfl, fun _ hkey => hkey⟩
    · rw [if_neg hft]
      exact ⟨rfl, hft⟩

end FlowSandbox

end Xrpld.Views
