import Xrpld.Ledger.Views.ApplyStateTable
import Xrpld.Protocol.Asset

/-!
# Payment sandboxes

`PaymentSandbox` and `DeferredCredits` of `xrpld/ledger/views/payment_sandbox.rs`, for issued amounts: a payment
must not spend what it credited on its own way, so a sandbox records what was credited and answers questions about
balances with what was there before.

## The model

Amounts are elements of an ordered group, that is, their arithmetic is exact; an amount comes with its currency. A
record stands for a line between two accounts in a currency, kept from the side of the lower account.

`History` has what was recorded on a sandbox, by itself or by merging another one; `Recorded` says which sandboxes have
which history.

## What is proved

* `history_tab`: the records of a sandbox are what its history says, as long as no merge meets a record that is equal
  to the merged one and has credits, which `DeferredCredits::apply` then does not add (`MergesApart`).
* `deferred_not_spendable`: a balance is reported as at most what there was before the first credit less what was sent
  since; against XRP, at most that or zero.
-/

namespace Xrpld.Views

open Protocol
open Std (ExtTreeMap)
open Option

variable {B : Type} {issuer account : AccountID} {senderIsLow : Bool}

def xrpAccount : AccountID := .zero

/-- The key of a record: the lower account, the higher one, and the currency. -/
abbrev Line := AccountID ×ₗ AccountID ×ₗ Currency

structure ValueIOU (α : Type) where
  lowAcctCredits : α
  highAcctCredits : α
  lowAcctOrigBalance : α
  deriving DecidableEq

/-- `DeferredCredits`, for issued amounts. -/
structure DeferredCredits (α : Type) where
  creditsIou : ExtTreeMap Line (ValueIOU α)

/-- A view with `balance_hook_iou`. -/
class BalanceHook (B α : Type) where
  balanceHookIou : B → (account issuer : AccountID) → Currency → α → α

/-- The default of `ReadView::balance_hook_iou`. -/
instance {α : Type} : BalanceHook Ledger α := ⟨fun _ _ _ _ amount => amount⟩

section

variable {α : Type} [AddCommGroup α] [LinearOrder α]

namespace DeferredCredits

def makeKeyIou (a1 a2 : AccountID) (currency : Currency) : Line :=
  if a1 < a2 then toLex (a1, toLex (a2, currency)) else toLex (a2, toLex (a1, currency))

/-- The record of a line that has none. -/
def newValue (senderIsLow : Bool) (preCreditSenderBalance : α) : ValueIOU α :=
  ⟨0, 0, if senderIsLow then preCreditSenderBalance else -preCreditSenderBalance⟩

/-- Add a credit to a record. -/
def addCredit (senderIsLow : Bool) (amount : α) (value : ValueIOU α) : ValueIOU α :=
  if senderIsLow then { value with lowAcctCredits := value.lowAcctCredits + amount }
  else { value with highAcctCredits := value.highAcctCredits + amount }

def creditIou (sender receiver : AccountID) (currency : Currency) (amount preCreditSenderBalance : α)
    (t : DeferredCredits α) : DeferredCredits α :=
  let senderIsLow := decide (sender < receiver)
  let key := makeKeyIou sender receiver currency
  let value := t.creditsIou[key]?.getD (newValue senderIsLow preCreditSenderBalance)
  ⟨t.creditsIou.insert key (addCredit senderIsLow amount value)⟩

/-- The turn of a record in `apply`: a record that is there is added to if it differs from the merged one. -/
def mergeValue (there : Option (ValueIOU α)) (value : ValueIOU α) : ValueIOU α :=
  let toEntry := there.getD value
  if toEntry ≠ value then
    { toEntry with
      lowAcctCredits := toEntry.lowAcctCredits + value.lowAcctCredits
      highAcctCredits := toEntry.highAcctCredits + value.highAcctCredits }
  else toEntry

def apply (t target : DeferredCredits α) : DeferredCredits α :=
  ⟨t.creditsIou.toList.foldl (fun m item => m.insert item.1 (mergeValue m[item.1]? item.2)) target.creditsIou⟩

end DeferredCredits

structure PaymentSandbox (B α : Type) where
  base : B
  table : ApplyStateTable
  tab : DeferredCredits α
  flags : ApplyFlags

namespace PaymentSandbox

variable [ReadView B]

omit [AddCommGroup α] [LinearOrder α] [ReadView B] in
def new (base : B) (flags : ApplyFlags) : PaymentSandbox B α := ⟨base, .new, ⟨∅⟩, flags⟩

/-- Run a program on the table. -/
def onTable {β : Type} (p : Edit ApplyStateTable β) : Edit (PaymentSandbox B α) β :=
  Prog.zoom (·.table) (fun table s => { s with table := table }) p

def peek (k : Keylet) : Edit (PaymentSandbox B α) (Option STLedgerEntry) := do
  let s ← Prog.read
  onTable (ApplyStateTable.peek s.base k)

instance : ApplyView (PaymentSandbox B α) where
  exists_ s := s.table.exists_ s.base
  succ s := s.table.succ s.base
  read s := s.table.read s.base
  flags := flags
  peek := peek
  insert sle := onTable (ApplyStateTable.insert sle)
  update sle := onTable (ApplyStateTable.update sle)
  erase sle := onTable (ApplyStateTable.erase sle)
  destroyXrp fee := onTable (ApplyStateTable.destroyXrp fee)

instance : RawView (PaymentSandbox B α) where
  rawErase sle := onTable (ApplyStateTable.erase sle)
  rawInsert sle := onTable (ApplyStateTable.insert sle)
  rawReplace sle := onTable (ApplyStateTable.replace sle)
  rawDestroyXrp fee := onTable (ApplyStateTable.destroyXrp fee)

def creditHookIou (sender receiver : AccountID) (currency : Currency) (amount preCreditBalance : α)
    (s : PaymentSandbox B α) : PaymentSandbox B α :=
  { s with tab := s.tab.creditIou sender receiver currency amount preCreditBalance }

/-- `apply_to_sandbox`, as a program over the sandbox that is merged into. -/
def applyToSandbox (s : PaymentSandbox B α) : Edit (PaymentSandbox B α) Unit := do
  s.table.apply
  Prog.update fun target => { target with tab := s.tab.apply target.tab }

/-- What the record of a line makes of an amount. -/
def limit (account issuer : AccountID) (entry : ValueIOU α) (amount : α) : α :=
  let debits := if account < issuer then entry.lowAcctCredits else entry.highAcctCredits
  let originalBalance := if account < issuer then entry.lowAcctOrigBalance else -entry.lowAcctOrigBalance
  let available := originalBalance - debits
  let amount := if available < amount then available else amount
  let amount := if originalBalance < amount then originalBalance else amount
  if issuer = xrpAccount ∧ amount < 0 then 0 else amount

def balanceHookIou [BalanceHook B α] (s : PaymentSandbox B α) (account issuer : AccountID) (currency : Currency) (amount : α) : α :=
  let amount :=
    match s.tab.creditsIou[DeferredCredits.makeKeyIou account issuer currency]? with
    | some entry => limit account issuer entry amount
    | none => amount
  BalanceHook.balanceHookIou s.base account issuer currency amount

instance [BalanceHook B α] : BalanceHook (PaymentSandbox B α) α := ⟨balanceHookIou⟩

end PaymentSandbox

/-! ### What was recorded -/

/-- What was recorded on a sandbox. -/
inductive History (α : Type) where
  | new
  | credit (h : History α) (sender receiver : AccountID) (currency : Currency) (amount preCreditBalance : α)
  | merge (h merged : History α)

namespace History

/-- The records that a history leaves. -/
def tab : History α → DeferredCredits α
  | new => ⟨∅⟩
  | credit h sender receiver currency amount preCreditBalance =>
    h.tab.creditIou sender receiver currency amount preCreditBalance
  | merge h merged => merged.tab.apply h.tab

/-- The balance of an account against an issuer before the first recorded credit on their line. -/
def origBalance (account issuer : AccountID) (currency : Currency) : History α → Option α
  | new => none
  | credit h sender receiver currency' _ preCreditBalance =>
    (h.origBalance account issuer currency).or
      (if DeferredCredits.makeKeyIou sender receiver currency' = DeferredCredits.makeKeyIou account issuer currency then
        some (if account = sender then preCreditBalance else -preCreditBalance)
      else none)
  | merge h merged => (h.origBalance account issuer currency).or (merged.origBalance account issuer currency)

/-- What an account was recorded as sending to an issuer; a merge has what both have. -/
def sent (account issuer : AccountID) (currency : Currency) : History α → α
  | new => 0
  | credit h sender receiver currency' amount _ =>
    h.sent account issuer currency + if sender = account ∧ receiver = issuer ∧ currency' = currency then amount else 0
  | merge h merged => h.sent account issuer currency + merged.sent account issuer currency

/-- No merge meets a record with credits that is equal to the merged one. -/
def MergesApart : History α → Prop
  | new => True
  | credit h .. => h.MergesApart
  | merge h merged => h.MergesApart ∧ merged.MergesApart ∧
    ∀ (line : Line) (value : ValueIOU α), h.tab.creditsIou[line]? = some value → merged.tab.creditsIou[line]? = some value →
      value.lowAcctCredits = 0 ∧ value.highAcctCredits = 0

end History

/-- Which sandboxes over a base have which history. Other calls on a sandbox change its table, never its records. -/
inductive Recorded {B : Type} [ReadView B] (base : B) : PaymentSandbox B α → History α → Prop
  | new (flags : ApplyFlags) : Recorded base (.new base flags) .new
  | other {s : PaymentSandbox B α} {h : History α} (table : ApplyStateTable) :
    Recorded base s h → Recorded base { s with table := table } h
  | credit {s : PaymentSandbox B α} {h : History α} (sender receiver : AccountID) (currency : Currency)
    (amount preCreditBalance : α) : Recorded base s h →
    Recorded base (s.creditHookIou sender receiver currency amount preCreditBalance)
      (h.credit sender receiver currency amount preCreditBalance)
  | merge {s merged s' : PaymentSandbox B α} {h hmerged : History α} : Recorded base s h → Recorded base merged hmerged →
    merged.applyToSandbox s = .ok (.ok (), s') → Recorded base s' (h.merge hmerged)

section Records

open DeferredCredits

variable {currency : Currency} {h : History α}

/-- What an account sent on a line, from its record. -/
def ValueIOU.debits (account issuer : AccountID) (value : ValueIOU α) : α :=
  if account < issuer then value.lowAcctCredits else value.highAcctCredits

/-- The balance of an account on a line before its record was made. -/
def ValueIOU.origBalance (account issuer : AccountID) (value : ValueIOU α) : α :=
  if account < issuer then value.lowAcctOrigBalance else -value.lowAcctOrigBalance

theorem makeKeyIou_eq_iff {a1 a2 b1 b2 : AccountID} {c c' : Currency} :
    makeKeyIou a1 a2 c = makeKeyIou b1 b2 c' ↔ (a1 = b1 ∧ a2 = b2 ∨ a1 = b2 ∧ a2 = b1) ∧ c = c' := by
  have hp (x1 x2 y1 y2 : AccountID) :
      (toLex (x1, toLex (x2, c)) : Line) = toLex (y1, toLex (y2, c')) ↔ x1 = y1 ∧ x2 = y2 ∧ c = c' := by
    rw [toLex_inj, Prod.mk.injEq, toLex_inj, Prod.mk.injEq]
  unfold makeKeyIou
  split_ifs with ha hb hb <;> rw [hp]
  · constructor
    · rintro ⟨rfl, rfl, rfl⟩
      exact ⟨.inl ⟨rfl, rfl⟩, rfl⟩
    · rintro ⟨⟨rfl, rfl⟩ | ⟨rfl, rfl⟩, rfl⟩
      · exact ⟨rfl, rfl, rfl⟩
      · exact absurd ha hb.asymm
  · constructor
    · rintro ⟨rfl, rfl, rfl⟩
      exact ⟨.inr ⟨rfl, rfl⟩, rfl⟩
    · rintro ⟨⟨rfl, rfl⟩ | ⟨rfl, rfl⟩, rfl⟩
      · exact absurd ha hb
      · exact ⟨rfl, rfl, rfl⟩
  · constructor
    · rintro ⟨rfl, rfl, rfl⟩
      exact ⟨.inr ⟨rfl, rfl⟩, rfl⟩
    · rintro ⟨⟨rfl, rfl⟩ | ⟨rfl, rfl⟩, rfl⟩
      · exact absurd hb ha
      · exact ⟨rfl, rfl, rfl⟩
  · constructor
    · rintro ⟨rfl, rfl, rfl⟩
      exact ⟨.inl ⟨rfl, rfl⟩, rfl⟩
    · rintro ⟨⟨rfl, rfl⟩ | ⟨rfl, rfl⟩, rfl⟩
      · exact ⟨rfl, rfl, rfl⟩
      · have he := le_antisymm (not_lt.mp hb) (not_lt.mp ha)
        exact ⟨he.symm ▸ rfl, he ▸ rfl, rfl⟩

variable {amount pre : α} {value : ValueIOU α}

/-! A credit of `account` to `issuer` is added to what `account` sent, one of `issuer` to `account` is not. -/

section

omit [LinearOrder α]

theorem debits_addCredit : (addCredit (decide (account < issuer)) amount value).debits account issuer =
    value.debits account issuer + amount := by
  by_cases h : account < issuer <;> simp [addCredit, ValueIOU.debits, h]

theorem debits_addCredit_other (hn : account ≠ issuer) :
    (addCredit (decide (issuer < account)) amount value).debits account issuer = value.debits account issuer := by
  rcases lt_or_gt_of_ne hn with h | h <;> simp [addCredit, ValueIOU.debits, h, h.not_gt]

theorem origBalance_addCredit :
    (addCredit senderIsLow amount value).origBalance account issuer = value.origBalance account issuer := by
  cases senderIsLow <;> rfl

theorem origBalance_newValue : (newValue (decide (account < issuer)) pre).origBalance account issuer = pre := by
  by_cases h : account < issuer <;> simp [newValue, ValueIOU.origBalance, h]

theorem origBalance_newValue_other (hn : account ≠ issuer) :
    (newValue (decide (issuer < account)) pre).origBalance account issuer = -pre := by
  rcases lt_or_gt_of_ne hn with h | h <;> simp [newValue, ValueIOU.origBalance, h, h.not_gt]

theorem debits_newValue : (newValue senderIsLow pre).debits account issuer = 0 := by
  rw [ValueIOU.debits, newValue, ite_self]

end

/-- The records say what the history says of a line. -/
def Agrees (h : History α) (account issuer : AccountID) (currency : Currency) : Prop :=
  match h.tab.creditsIou[makeKeyIou account issuer currency]? with
  | none => h.origBalance account issuer currency = none ∧ h.sent account issuer currency = 0
  | some value => h.origBalance account issuer currency = some (value.origBalance account issuer) ∧
    h.sent account issuer currency = value.debits account issuer

theorem agrees_credit (ih : Agrees h account issuer currency) (sd receiver : AccountID) (cu' : Currency)
    (amount pre : α) : Agrees (h.credit sd receiver cu' amount pre) account issuer currency := by
  rw [Agrees] at ih ⊢
  rw [History.tab, creditIou, TreeMap.getElem?_insert, History.origBalance, History.sent]
  by_cases hk : makeKeyIou sd receiver cu' = makeKeyIou account issuer currency
  · rw [if_pos hk, if_pos hk, hk]
    obtain ⟨he, rfl⟩ := makeKeyIou_eq_iff.mp hk
    by_cases hs : sd = account ∧ receiver = issuer
    · obtain ⟨rfl, rfl⟩ := hs
      rw [if_pos rfl, if_pos ⟨rfl, rfl, rfl⟩]
      simp only [origBalance_addCredit, debits_addCredit]
      cases ht : h.tab.creditsIou[makeKeyIou sd receiver cu']? with
      | none =>
        rw [ht] at ih
        simp only [ih.1, ih.2, getD_none, origBalance_newValue, debits_newValue, none_or, and_self]
      | some value =>
        rw [ht] at ih
        simp only [ih.1, ih.2, getD_some, some_or, and_self]
    · obtain ⟨rfl, rfl⟩ := he.resolve_left hs
      have hne : receiver ≠ sd := fun hq => hs ⟨hq.symm, hq⟩
      rw [if_neg hne, if_neg fun hc => hs ⟨hc.1, hc.2.1⟩, add_zero]
      simp only [origBalance_addCredit, debits_addCredit_other hne]
      cases ht : h.tab.creditsIou[makeKeyIou receiver sd cu']? with
      | none =>
        rw [ht] at ih
        simp only [ih.1, ih.2, getD_none, origBalance_newValue_other hne, debits_newValue, none_or, and_self]
      | some value =>
        rw [ht] at ih
        simp only [ih.1, ih.2, getD_some, some_or, and_self]
  · have hn : ¬ (sd = account ∧ receiver = issuer ∧ cu' = currency) := by
      rintro ⟨rfl, rfl, rfl⟩
      exact hk rfl
    rw [if_neg hk, if_neg hk, if_neg hn, add_zero, or_none]
    exact ih

theorem getElem?_apply (t target : DeferredCredits α) (line : Line) : (t.apply target).creditsIou[line]? =
      match t.creditsIou[line]? with
      | some value => some (mergeValue target.creditsIou[line]? value)
      | none => target.creditsIou[line]? := by
  rw [apply, TreeMap.getElem?_foldl_insert mergeValue (TreeMap.distinct_toList t.creditsIou), TreeMap.find?_toList]
  cases t.creditsIou[line]? <;> rfl

theorem mergeValue_none (value : ValueIOU α) : mergeValue none value = value := if_neg fun hn => hn rfl

theorem mergeValue_same (value : ValueIOU α) : mergeValue (some value) value = value := if_neg fun hn => hn rfl

theorem mergeValue_of_ne {th : ValueIOU α} (hn : th ≠ value) : mergeValue (some th) value =
    ⟨th.lowAcctCredits + value.lowAcctCredits, th.highAcctCredits + value.highAcctCredits, th.lowAcctOrigBalance⟩ :=
  if_pos hn

theorem debits_mergeValue {th : ValueIOU α} (hn : th ≠ value) :
    (mergeValue (some th) value).debits account issuer = th.debits account issuer + value.debits account issuer := by
  rw [mergeValue_of_ne hn]
  by_cases hl : account < issuer <;> simp [ValueIOU.debits, hl]

theorem origBalance_mergeValue (th : ValueIOU α) :
    (mergeValue (some th) value).origBalance account issuer = th.origBalance account issuer := by
  by_cases h : th = value
  · rw [h, mergeValue_same]
  · rw [mergeValue_of_ne h]
    rfl

theorem agrees_merge {mg : History α} (ih : Agrees h account issuer currency)
    (im : Agrees mg account issuer currency)
    (ha : ∀ (line : Line) (value : ValueIOU α), h.tab.creditsIou[line]? = some value →
      mg.tab.creditsIou[line]? = some value → value.lowAcctCredits = 0 ∧ value.highAcctCredits = 0) :
    Agrees (h.merge mg) account issuer currency := by
  rw [Agrees] at ih im ⊢
  rw [History.tab, getElem?_apply, History.origBalance, History.sent]
  cases hm : mg.tab.creditsIou[makeKeyIou account issuer currency]? with
  | none =>
    rw [hm] at im
    simp only [im.1, im.2, or_none, add_zero]
    exact ih
  | some value =>
    rw [hm] at im
    cases ht : h.tab.creditsIou[makeKeyIou account issuer currency]? with
    | none =>
      rw [ht] at ih
      simp only [ih.1, ih.2, none_or, zero_add, mergeValue_none]
      exact im
    | some th =>
      rw [ht] at ih
      simp only [ih.1, ih.2, im.2, some_or, origBalance_mergeValue, true_and]
      by_cases he : th = value
      · -- both have no credits, so that nothing is lost
        subst he
        obtain ⟨hl, hh⟩ := ha _ _ ht hm
        rw [mergeValue_same, ValueIOU.debits, hl, hh, ite_self, add_zero]
      · rw [debits_mergeValue he]

/-- **The records are the history.** -/
theorem history_tab (ha : h.MergesApart) (account issuer : AccountID) (currency : Currency) :
    Agrees h account issuer currency := by
  induction h with
  | new =>
    exact ⟨rfl, rfl⟩
  | credit h sd receiver cu' amount pre ih => exact agrees_credit (ih ha) sd receiver cu' amount pre
  | merge h mg ih im => exact agrees_merge (ih ha.1) (im ha.2.1) ha.2.2

end Records

/-! ### What can be spent -/

/-- A base whose hook does not raise a balance, but for a negative one against XRP, which it may report as zero. -/
class LawfulHook (B α : Type) [Zero α] [LinearOrder α] [BalanceHook B α] : Prop where
  le (base : B) (account issuer : AccountID) (currency : Currency) (amount : α) : issuer ≠ xrpAccount →
    BalanceHook.balanceHookIou base account issuer currency amount ≤ amount
  le_max (base : B) (account : AccountID) (currency : Currency) (amount : α) :
    BalanceHook.balanceHookIou base account xrpAccount currency amount ≤ max 0 amount

instance : LawfulHook Ledger α := ⟨fun _ _ _ _ _ _ => le_rfl, fun _ _ _ _ => le_max_right _ _⟩

namespace PaymentSandbox

variable [ReadView B] {entry : ValueIOU α} {amount : α}

theorem limit_eq : limit account issuer entry amount =
    let least := min (entry.origBalance account issuer)
      (min (entry.origBalance account issuer - entry.debits account issuer) amount)
    if issuer = xrpAccount ∧ least < 0 then 0 else least := by
  simp only [min_def_lt]
  rfl

theorem limit_le (hx : issuer ≠ xrpAccount) : limit account issuer entry amount ≤ amount ∧
      limit account issuer entry amount ≤ entry.origBalance account issuer - entry.debits account issuer := by
  rw [limit_eq]
  simp only [hx, false_and, if_false]
  exact ⟨(min_le_right _ _).trans (min_le_right _ _), (min_le_right _ _).trans (min_le_left _ _)⟩

theorem limit_le_max : limit account xrpAccount entry amount ≤ max 0 amount ∧
      limit account xrpAccount entry amount ≤ max 0 (entry.origBalance account xrpAccount - entry.debits account xrpAccount) := by
  rw [limit_eq]
  simp only [true_and]
  split_ifs
  · exact ⟨le_max_left _ _, le_max_left _ _⟩
  · exact ⟨((min_le_right _ _).trans (min_le_right _ _)).trans (le_max_right _ _),
      ((min_le_right _ _).trans (min_le_left _ _)).trans (le_max_right _ _)⟩

/-- Sandboxes over a lawful base are lawful bases, so that they can be nested. -/
instance [BalanceHook B α] [LawfulHook B α] : LawfulHook (PaymentSandbox B α) α where
  le s account issuer currency amount hxrp := by
    refine (LawfulHook.le s.base account issuer currency _ hxrp).trans ?_
    split
    · exact (limit_le hxrp).1
    · exact le_rfl
  le_max s account currency amount := by
    refine (LawfulHook.le_max s.base account currency _).trans (max_le (le_max_left _ _) ?_)
    split
    · exact limit_le_max.1
    · exact le_max_right _ _

end PaymentSandbox

section Spend

variable [ReadView B] {base : B} {s : PaymentSandbox B α}

omit [AddCommGroup α] [LinearOrder α] [ReadView B] in
/-- Handing the table over leaves the records of the sandbox that is merged into. -/
theorem tab_of_apply {t : ApplyStateTable} : wp t.apply (fun _ s' => s'.tab = s.tab ∧ s'.base = s.base) ⊤ ⊤ s := by
  have honTable (p : Edit ApplyStateTable Unit) (s' : PaymentSandbox B α) (hs : s'.tab = s.tab ∧ s'.base = s.base) :
      wp (PaymentSandbox.onTable p) (fun _ s'' => s''.tab = s.tab ∧ s''.base = s.base) ⊤ ⊤ s' :=
    (wp_zoom _ _ _).mpr (wp_mono (wp_true p) (fun _ _ _ => hs) (fun _ _ _ => trivial) fun _ _ => trivial)
  rw [ApplyStateTable.apply, wp_bind]
  refine wp_mono (wp_forEach (fun s' => s'.tab = s.tab ∧ s'.base = s.base) ⟨rfl, rfl⟩ ?_)
    (fun _ s' hs => honTable _ s' hs) (fun _ _ hE => hE) fun _ hF => hF
  intro it _ s' hs
  cases it.2.action with
  | erase | insert | modify => exact honTable _ s' hs
  | cache => exact hs

/-- The records of a sandbox are those of its history. -/
theorem Recorded.tab_eq {h : History α} (hs : Recorded base s h) : s.tab = h.tab ∧ s.base = base := by
  induction hs with
  | new flags => exact ⟨rfl, rfl⟩
  | other table _ ih => exact ih
  | credit sd receiver currency amount pre _ ih => exact ⟨congrArg (·.creditIou sd receiver currency amount pre) ih.1, ih.2⟩
  | @merge s mg s' h hm _ _ hr ih im =>
    have hw : wp mg.applyToSandbox (fun _ s' => s'.tab = mg.tab.apply s.tab ∧ s'.base = s.base) ⊤ ⊤ s := by
      refine (wp_bind _ _).mpr (wp_mono tab_of_apply ?_ (fun _ _ hE => hE) fun _ hF => hF)
      rintro _ s1 ⟨ht, hb⟩
      exact ⟨congrArg mg.tab.apply ht, hb⟩
    obtain ⟨ht, hb⟩ := post_of_run hw hr
    exact ⟨by rw [ht, ih.1, im.1]; rfl, hb.trans ih.2⟩

/-- **Deferred credits are not spendable.** Of a sandbox with a history in which merges add all that they bring, the balance
that is reported for an account against an issuer is at most what it was before the first credit on their line less
all that the account was since recorded as sending; against XRP it is at most that or zero. What the account is
recorded as sending is what the history, merges included, says. -/
theorem deferred_not_spendable [BalanceHook B α] [LawfulHook B α] {s : PaymentSandbox B α} {h : History α}
    (hs : Recorded base s h) (hapart : h.MergesApart) {account issuer : AccountID} {currency : Currency} {orig : α}
    (horig : h.origBalance account issuer currency = some orig) (amount : α) :
    (issuer ≠ xrpAccount → s.balanceHookIou account issuer currency amount ≤ orig - h.sent account issuer currency) ∧
    (issuer = xrpAccount → s.balanceHookIou account issuer currency amount ≤ max 0 (orig - h.sent account issuer currency)) ∧
    ∃ value, s.tab.creditsIou[DeferredCredits.makeKeyIou account issuer currency]? = some value ∧
      value.debits account issuer = h.sent account issuer currency := by
  have ha := history_tab hapart account issuer currency
  rw [Agrees, ← hs.tab_eq.1] at ha
  cases hv : s.tab.creditsIou[DeferredCredits.makeKeyIou account issuer currency]? with
  | none =>
    rw [hv] at ha
    rw [ha.1] at horig
    cases horig
  | some value =>
    rw [hv] at ha
    have ho : orig = value.origBalance account issuer := some.inj (horig.symm.trans ha.1)
    have hh : s.balanceHookIou account issuer currency amount =
        BalanceHook.balanceHookIou s.base account issuer currency (PaymentSandbox.limit account issuer value amount) := by
      rw [PaymentSandbox.balanceHookIou, hv]
    rw [hh, ho, ha.2]
    refine ⟨fun hx => ?_, ?_, value, rfl, rfl⟩
    · exact (LawfulHook.le s.base account issuer currency _ hx).trans (PaymentSandbox.limit_le hx).2
    · rintro rfl
      exact (LawfulHook.le_max s.base account currency _).trans (max_le (le_max_left _ _) PaymentSandbox.limit_le_max.2)

end Spend

end

/-- Two accounts that send to each other. -/
def alice : AccountID := .filled 1

@[inherit_doc alice] def bob : AccountID := .filled 2

/-- A ledger without entries. -/
def emptyLedger : Ledger := ⟨∅⟩

/-- A sandbox on which `alice`, who has 10, was recorded as sending an amount. -/
def sends (receiver : AccountID) (amount : ℤ) : PaymentSandbox Ledger ℤ :=
  (PaymentSandbox.new emptyLedger 0).creditHookIou alice receiver .zero amount 10

theorem recorded_sends (receiver : AccountID) (amount : ℤ) :
    Recorded emptyLedger (sends receiver amount) (History.new.credit alice receiver .zero amount 10) :=
  .credit alice receiver .zero amount 10 (.new 0)

theorem deferred_not_spendable_sends : Recorded emptyLedger (sends bob 6) (History.new.credit alice bob .zero 6 10) ∧
      (History.new.credit alice bob .zero 6 10 : History ℤ).origBalance alice bob .zero = some 10 ∧
      (sends bob 6).balanceHookIou alice bob .zero 9 ≤ 4 := by
  have ho : (History.new.credit alice bob .zero 6 10 : History ℤ).origBalance alice bob .zero = some 10 := rfl
  exact ⟨recorded_sends bob 6, ho, (deferred_not_spendable (recorded_sends bob 6) trivial ho 9).1 (by decide)⟩

/-- What goes otherwise: of two sandboxes with the same record the merged one does not count, so that 4 are reported of 10
of which 12 were sent; and against XRP, zero is reported of 10 of which 15 were sent. -/
theorem deferred_spendable : (∃ (s : PaymentSandbox Ledger ℤ) (h : History ℤ), Recorded emptyLedger s h ∧
      h.origBalance alice bob .zero = some 10 ∧ h.sent alice bob .zero = 12 ∧ s.balanceHookIou alice bob .zero 10 = 4) ∧
    ∃ h : History ℤ, Recorded emptyLedger (sends xrpAccount 15) h ∧ h.origBalance alice xrpAccount .zero = some 10 ∧
      h.sent alice xrpAccount .zero = 15 ∧ (sends xrpAccount 15).balanceHookIou alice xrpAccount .zero 10 = 0 :=
  ⟨⟨_, _, .merge (recorded_sends bob 6) (recorded_sends bob 6) rfl, rfl, rfl, rfl⟩,
    _, recorded_sends xrpAccount 15, rfl, rfl, rfl⟩

end Xrpld.Views
