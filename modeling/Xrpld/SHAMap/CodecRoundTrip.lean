import Xrpld.SHAMap.Codec

/-!
# Writing and reading nodes

A node that is written and read again is the same node: `codec_round_trip` starts from a node,
`decodedInner_reencodes` from bytes that somebody else wrote.

## Bytes from somebody else

The compressed form lists hashes with their branches in any order, and a branch may come more
than once. The last hash listed for a branch is the one that is kept, but the branch counts as
set as soon as one of its hashes is not zero. A list whose last hash for a branch is zero, after
one that is not (`Zeroes`), leaves a branch set with no hash; `set_child_hash`, the other writer of hashes,
clears the branch then.

An inner node without branches can be read, and is refused by both writers.
-/

namespace Xrpld.SHAMap

open List SHAMapTreeNode Except

/-! ### Pieces put together again -/

variable {slots sl' : Slots} {b c : Branch} {raw data chunk : List UInt8} {gen cowid : ℕ}
  {type : LeafType} {item : SHAMapItem}

theorem chunksExact_flatten {n : ℕ} (hn : 0 < n) (k : ℕ) (l : List UInt8) (hl : l.length = n * k) :
    (chunksExact n l).flatten = l := by
  induction k generalizing l with
  | zero =>
    obtain rfl : l = [] := length_eq_zero_iff.mp hl
    simp [chunksExact]
  | succ k ih =>
    have he : (l.take n).length = n := by
      rw [length_take, hl, Nat.mul_succ]
      omega
    have hr : (l.drop n).length = n * k := by
      rw [length_drop, hl, Nat.mul_succ]
      omega
    calc (chunksExact n l).flatten
        = (chunksExact n (l.take n ++ l.drop n)).flatten := by rw [take_append_drop]
      _ = l.take n ++ (chunksExact n (l.drop n)).flatten := by rw [chunksExact_append hn he, flatten_cons]
      _ = l := by rw [ih _ hr, take_append_drop]

/-- Any 512 bytes are 16 hashes. -/
theorem exists_hashes (hd : data.length = 16 * 32) :
    ∃ hash : Branch → SHAMapHash, data = (finRange 16).flatMap fun b => (hash b).data := by
  have hc : (chunksExact 32 data).length = 16 := by simp [chunksExact, hd]
  have hp : ∀ b : Branch, ((chunksExact 32 data).get ⟨b, by rw [hc]; exact b.isLt⟩).length = 32 :=
    fun b => length_of_mem_chunksExact (get_mem _ _)
  refine ⟨fun b => ⟨_, hp b⟩, ?_⟩
  calc data = (chunksExact 32 data).flatten := (chunksExact_flatten (by decide) 16 data (by rw [hd])).symm
    _ = (ofFn fun b : Branch => (chunksExact 32 data).get ⟨b, by rw [hc]; exact b.isLt⟩).flatten := by
      congr 1
      exact ext_get (by simp [hc]) fun i _ _ => by rw [get_ofFn]; rfl
    _ = _ := by rw [ofFn_eq_map]; rfl

/-! ### The full form -/

variable (hash : Branch → SHAMapHash)

/-- The slots that the full form of some hashes is read as. -/
def hashSlots : Branch → Option Slot := fun b =>
  if hash b = 0 then none else some ⟨hash b, none⟩

theorem hashSlots_hashesSet : HashesSet (hashSlots hash) := by
  intro b slot hb
  rw [hashSlots] at hb
  split at hb
  · cases hb
  · next h0 =>
    cases hb
    exact h0

theorem slotHash_hashSlots : slotHash (hashSlots hash) = hash := by
  funext b
  by_cases h0 : hash b = 0
  · rw [slotHash_none (by rw [hashSlots, if_pos h0]), h0]
  · rw [slotHash_some (by rw [hashSlots, if_neg h0])]

section

variable (sha : Sha)

/-- **Any 16 hashes are read from the full form.** -/
theorem makeFullInner_hashes (kn : Option SHAMapHash) :
    makeFullInner sha ((finRange 16).flatMap fun b => (hash b).data) kn =
      .ok (.ok (innerNode sha (hashSlots hash) kn)) := by
  have hr := makeFullInner_fullInnerBytes sha (hashSlots_hashesSet hash) kn
  rw [fullInnerBytes, slotHash_hashSlots] at hr
  rw [hr]
  congr 3
  funext b
  rw [bareSlots_eq (hashSlots_hashesSet hash), slotHash_hashSlots]
  rfl

variable {sha}

variable {n : SHAMapTreeNode} {kn : Option SHAMapHash}

/-- What `make_full_inner` makes of the bytes it accepts. -/
theorem makeFullInner_cases (h : makeFullInner sha data kn = .ok (.ok n)) :
    ∃ hash : Branch → SHAMapHash, data = ((finRange 16).flatMap fun b => (hash b).data) ∧
      n = innerNode sha (hashSlots hash) kn := by
  by_cases hl : data.length = 16 * 32
  · obtain ⟨hash, rfl⟩ := exists_hashes hl
    rw [makeFullInner_hashes] at h
    exact ⟨hash, rfl, (ok.inj (ok.inj h)).symm⟩
  · rw [makeFullInner, if_pos hl] at h
    cases h

/-! ### The compressed form -/

/-- A hash and its branch in the compressed form. -/
abbrev Entry := Branch × SHAMapHash

/-- The bytes of an entry. -/
def Entry.bytes (e : Entry) : List UInt8 := e.2.data ++ [UInt8.ofNat e.1.val]

theorem Entry.length_bytes (e : Entry) : e.bytes.length = 33 := by simp [Entry.bytes]

/-- The bytes of a compressed inner node on the wire. -/
def compressedBlob (entries : List Entry) : List UInt8 := entries.flatMap Entry.bytes ++ [wireTypeCompressedInner]

/-- The slots after the entries are written one after the other. -/
def entrySlots (entries : List Entry) (slots : Branch → Option Slot) : Branch → Option Slot :=
  entries.foldl (fun slots e => writeHash slots e.1 e.2) slots

/-- For some branch the last hash listed is zero, and one before it is not. -/
def Zeroes (entries : List Entry) : Prop :=
  ∃ b l1 l2, entries = l1 ++ (b, 0) :: l2 ∧ (∃ hash, (b, hash) ∈ l1 ∧ hash ≠ 0) ∧ ∀ e ∈ l2, e.1 ≠ b

/-- 33 bytes are an entry when the last of them is a branch. -/
theorem exists_entry {p : UInt8} (hl : chunk.length = 33) (hp : (chunk.drop 32)[0]? = some p) (hb : p.toNat < 16) :
    ∃ e : Entry, chunk = e.bytes ∧ e.1 = ⟨p.toNat, hb⟩ ∧ unwrapSlice (chunk.take 32) = .ok e.2 := by
  have ht : (chunk.take 32).length = 32 := by simp [hl]
  have hr : chunk.drop 32 = [p] := by
    have ho : (chunk.drop 32).length = 1 := by simp [hl]
    obtain ⟨x, hx⟩ := length_eq_one_iff.mp ho
    rw [hx] at hp
    rw [hx, ← Option.some.inj hp]
  refine ⟨(⟨p.toNat, hb⟩, ⟨chunk.take 32, ht⟩), ?_, rfl, unwrapSlice_data ⟨chunk.take 32, ht⟩⟩
  rw [Entry.bytes, UInt8.ofNat_toNat, ← hr, take_append_drop]

theorem readCompressedInner_cases {l : List (List UInt8)} (hl : ∀ c ∈ l, c.length = 33)
    (h : readCompressedInner l slots = .ok (.ok sl')) :
    ∃ entries : List Entry, l = entries.map Entry.bytes ∧ sl' = entrySlots entries slots := by
  induction l generalizing slots with
  | nil => exact ⟨[], rfl, (ok.inj (ok.inj h)).symm⟩
  | cons chunk l ih =>
    rw [readCompressedInner] at h
    split at h
    · cases h
    · next p hp =>
      split at h
      · next hb =>
        obtain ⟨e, hh, hr, ha⟩ := exists_entry (hl chunk (by simp)) hp hb
        rw [ha, ← hr] at h
        obtain ⟨entries, rfl, rfl⟩ := ih (fun c hc => hl c (by simp [hc])) h
        exact ⟨e :: entries, by rw [map_cons, hh], rfl⟩
      · cases h

/-- What `make_compressed_inner` makes of the bytes it accepts. -/
theorem makeCompressedInner_cases (h : makeCompressedInner sha data = .ok (.ok n)) :
    ∃ entries : List Entry, data = entries.flatMap Entry.bytes ∧
      n = innerNode sha (entrySlots entries fun _ => none) none := by
  rw [makeCompressedInner] at h
  split at h
  · cases h
  · next hl =>
    push Not at hl
    obtain ⟨r, hr⟩ := readCompressedInner_total (chunksExact 33 data)
      (fun c hc => length_of_mem_chunksExact hc) fun _ => none
    rw [hr] at h
    cases r with
    | error e => cases h
    | ok slots =>
      obtain ⟨entries, hh, rfl⟩ := readCompressedInner_cases (fun c hc => length_of_mem_chunksExact hc) hr
      refine ⟨entries, ?_, (ok.inj (ok.inj h)).symm⟩
      have hd : data.length = 33 * (data.length / 33) := (Nat.mul_div_cancel' (Nat.dvd_of_mod_eq_zero hl.1)).symm
      rw [← chunksExact_flatten (by decide) _ data hd, hh, flatMap_def]

variable {hash : SHAMapHash}

theorem writeHash_self :
    writeHash slots b hash b = if hash ≠ 0 then some ⟨hash, none⟩ else (slots b).map fun _ => ⟨0, none⟩ := by
  unfold writeHash
  split <;> rw [Function.update_self]

theorem writeHash_of_ne (h : c ≠ b) (hash : SHAMapHash) : writeHash slots b hash c = slots c := by
  unfold writeHash
  split <;> rw [Function.update_of_ne h]

variable {entries : List Entry}

/-- A branch is set once one of its entries is not zero. -/
theorem exists_entry_of_set (h : entrySlots entries (fun _ => none) b ≠ none) : ∃ hash,
    (b, hash) ∈ entries ∧ hash ≠ 0 := by
  induction entries using reverseRecOn with
  | nil => exact absurd rfl h
  | append_singleton entries e ih =>
    rw [entrySlots, foldl_append, foldl_cons, foldl_nil] at h
    by_cases hb : b = e.1
    · subst hb
      rw [writeHash_self] at h
      split at h
      · next h0 => exact ⟨e.2, by simp, h0⟩
      · have hs : entrySlots entries (fun _ => none) e.1 ≠ none := fun hn => h (by
          rw [← entrySlots, hn]
          rfl)
        obtain ⟨hash, hm, h0⟩ := ih hs
        exact ⟨hash, mem_append_left _ hm, h0⟩
    · rw [writeHash_of_ne hb] at h
      obtain ⟨hash, hm, h0⟩ := ih h
      exact ⟨hash, mem_append_left _ hm, h0⟩

/-- A branch that is set with the zero hash was zeroed. -/
theorem zeroes_of_zero_slot {slot : Slot} (h : entrySlots entries (fun _ => none) b = some slot) (h0 : slot.hash = 0) :
    ∃ l1 l2, entries = l1 ++ (b, 0) :: l2 ∧ (∃ hash, (b, hash) ∈ l1 ∧ hash ≠ 0) ∧ ∀ e ∈ l2, e.1 ≠ b := by
  induction entries using reverseRecOn with
  | nil => cases h
  | append_singleton entries e ih =>
    rw [entrySlots, foldl_append, foldl_cons, foldl_nil] at h
    by_cases hb : b = e.1
    · subst hb
      rw [writeHash_self] at h
      split at h
      · next hne =>
        cases h
        exact absurd h0 hne
      · next hz =>
        have hs : entrySlots entries (fun _ => none) e.1 ≠ none := fun hn => by
          rw [← entrySlots, hn] at h
          cases h
        refine ⟨entries, [], ?_, exists_entry_of_set hs, by simp⟩
        rw [← not_not.mp hz]
    · rw [writeHash_of_ne hb] at h
      obtain ⟨l1, l2, rfl, hf, ha⟩ := ih h
      refine ⟨l1, l2 ++ [e], by simp, hf, fun e' he => ?_⟩
      rcases mem_append.mp he with he | he
      · exact ha e' he
      · rw [mem_singleton.mp he]
        exact fun hq => hb hq.symm

/-- **Entries that zero no branch** set exactly the branches whose hash is not zero. -/
theorem entrySlots_hashesSet (h : ¬ Zeroes entries) : HashesSet (entrySlots entries fun _ => none) :=
  fun b _ hb h0 => h ⟨b, zeroes_of_zero_slot hb h0⟩

/-! ### An inner node that is read -/

/-- What the readers of a leaf make is a leaf. -/
theorem isInner_makeTransactionNode (h : makeTransactionNode sha data kn = .ok (.ok n)) : n.isInner = false := by
  rw [makeTransactionNode_eq] at h
  split_ifs at h <;> cases h
  rfl

theorem isInner_makeTransactionWithMetaNode
    (h : makeTransactionWithMetaNode sha data kn = .ok (.ok n)) : n.isInner = false := by
  by_cases hl : data.length < 32
  · rw [makeTransactionWithMetaNode, if_pos hl] at h
    cases h
  · obtain ⟨pl, key, rfl⟩ := exists_payload_key hl
    rw [makeTransactionWithMetaNode_eq] at h
    split_ifs at h <;> cases h
    rfl

theorem isInner_makeAccountStateNode (h : makeAccountStateNode sha data kn = .ok (.ok n)) : n.isInner = false := by
  by_cases hl : data.length < 32
  · rw [makeAccountStateNode, if_pos hl] at h
    cases h
  · obtain ⟨pl, key, rfl⟩ := exists_payload_key hl
    rw [makeAccountStateNode_eq] at h
    split_ifs at h <;> cases h
    rfl

/-- The inner nodes that `make_from_wire` accepts are those of the two inner forms. -/
theorem inner_of_makeFromWire (h : makeFromWire sha raw = .ok (.ok (some n))) (hn : n.isInner) :
    (∃ hash : Branch → SHAMapHash, n = innerNode sha (hashSlots hash) none) ∨
      ∃ entries : List Entry, raw = compressedBlob entries ∧
        n = innerNode sha (entrySlots entries fun _ => none) none := by
  rcases eq_nil_or_concat raw with rfl | ⟨data, type, rfl⟩
  · cases h
  rw [concat_eq_append] at h ⊢
  rw [makeFromWire_append] at h
  have hd : makeOfWireType sha type data = .ok (.ok n) := by
    cases hr : makeOfWireType sha type data with
    | error f => rw [hr] at h; cases h
    | ok r =>
      cases r with
      | error e => rw [hr] at h; cases h
      | ok m =>
        rw [hr] at h
        cases h
        rfl
  rw [makeOfWireType] at hd
  split_ifs at hd with h0 h1 h2 h3 h4
  · rw [isInner_makeTransactionNode hd] at hn
    cases hn
  · rw [isInner_makeAccountStateNode hd] at hn
    cases hn
  · obtain ⟨hash, -, rfl⟩ := makeFullInner_cases hd
    exact .inl ⟨hash, rfl⟩
  · obtain ⟨entries, rfl, rfl⟩ := makeCompressedInner_cases hd
    exact .inr ⟨entries, by rw [compressedBlob, h3], rfl⟩
  · rw [isInner_makeTransactionWithMetaNode hd] at hn
    cases hn
  · cases hd

/-- The inner nodes that `make_from_prefix` accepts are those of the full form. -/
theorem inner_of_makeFromPrefix (h : makeFromPrefix sha raw hash = .ok (.ok n)) (hn : n.isInner) :
    ∃ hashes : Branch → SHAMapHash, raw = innerBytes hashes ∧ n = innerNode sha (hashSlots hashes) (some hash) := by
  rw [makeFromPrefix] at h
  dsimp only at h
  split_ifs at h with hl h0 h1 h2 h3
  · cases h
  · rw [isInner_makeTransactionNode h] at hn
    cases hn
  · rw [isInner_makeAccountStateNode h] at hn
    cases hn
  · obtain ⟨hashes, hd, rfl⟩ := makeFullInner_cases h
    refine ⟨hashes, ?_, rfl⟩
    rw [innerBytes, ← hd, ← h2, take_append_drop]
  · rw [isInner_makeTransactionWithMetaNode h] at hn
    cases hn
  · cases h

/-! ### A node that is written -/

variable (sha)

/-- **An inner node is read back** from the store, without its children and with the hash it is asked for by. -/
theorem makeFromPrefix_inner (hs : HashesSet slots) (hn : setBranches slots ≠ []) (hash : SHAMapHash) :
    ∃ bytes, serializeInnerWithPrefix slots = .ok bytes ∧
      makeFromPrefix sha bytes hash = .ok (.ok (innerNode sha (bareSlots slots) (some hash))) := by
  have hl : (setBranches slots).length ≠ 0 := fun h => hn (length_eq_zero_iff.mp h)
  refine ⟨_, by rw [serializeInnerWithPrefix, if_neg hl], ?_⟩
  rw [makeFromPrefix, if_neg (by simp [hashPrefixInnerNode])]
  have ht : (hashPrefixInnerNode ++ fullInnerBytes slots).take 4 = hashPrefixInnerNode := rfl
  have hd : (hashPrefixInnerNode ++ fullInnerBytes slots).drop 4 = fullInnerBytes slots := rfl
  rw [ht, hd, if_neg (by decide), if_neg (by decide), if_pos rfl, makeFullInner_fullInnerBytes sha hs]

/-- A key fits the type of its leaf: a plain transaction's is the hash of its data, and an account state's is
not zero. -/
def KeyFits (type : LeafType) (item : SHAMapItem) : Prop :=
  match type with
  | .transactionNm => item.key = sha (LeafType.transactionNm.hashPrefix ++ item.data)
  | .transactionMd => True
  | .accountState => item.key ≠ 0

instance (type : LeafType) (item : SHAMapItem) : Decidable (KeyFits sha type item) :=
  match type with
  | .transactionNm => inferInstanceAs (Decidable (_ = _))
  | .transactionMd => inferInstanceAs (Decidable True)
  | .accountState => inferInstanceAs (Decidable (_ ≠ _))

/-- A node with its hashes up to date that can be written: an inner node with a branch, or a leaf whose payload is
long enough and whose key fits. -/
def Hashed (n : SHAMapTreeNode) : Prop :=
  match n.body with
  | .inner _ slots =>
    setBranches slots ≠ [] ∧ HashesSet slots ∧ n.hash = SHAMapTreeNode.computeInnerHash sha slots
  | .leaf type item =>
    minItemBytes ≤ item.size ∧ KeyFits sha type item ∧ n.hash = computeLeafHash sha type item

/-- Two nodes are of one kind and have the same branches, child hashes, item and hash. -/
structure SameNode (n m : SHAMapTreeNode) : Prop where
  type : m.getType = n.getType
  branches : ∀ b, m.isEmptyBranch b = n.isEmptyBranch b
  childHash : ∀ b, m.getChildHash b = n.getChildHash b
  item : m.peekItem = n.peekItem
  hash : m.hash = n.hash

theorem computeInnerHash_bareSlots (slots : Slots) :
    computeInnerHash sha (bareSlots slots) = computeInnerHash sha slots := by
  rw [computeInnerHash, computeInnerHash, setBranches_bareSlots, slotHash_bareSlots]

/-- A node that differs from an inner node only in what is loaded. -/
theorem sameNode_bare {cowid' gen' : ℕ} :
    SameNode ⟨hash, cowid, .inner gen slots⟩ ⟨hash, cowid', .inner gen' (bareSlots slots)⟩ where
  type := rfl
  branches b := by simp [SHAMapTreeNode.isEmptyBranch, SHAMapTreeNode.isInner, SHAMapTreeNode.slots, bareSlots]
  childHash b := by simp [SHAMapTreeNode.getChildHash, SHAMapTreeNode.slots, slotHash_bareSlots]
  item := rfl
  hash := rfl

/-- An item whose key fits is the item its bytes are read as. -/
theorem rereadItem_of_keyFits (h : KeyFits sha type item) : rereadItem sha type item = item := by
  cases type with
  | transactionNm =>
    obtain ⟨key, data, hs⟩ := item
    have hk : key = sha (LeafType.transactionNm.hashPrefix ++ data) := h
    rw [rereadItem, hk]
  | transactionMd => rfl
  | accountState => rfl

/-- **A leaf is read back** from the store, when its key fits. -/
theorem makeFromPrefix_leaf (hi : minItemBytes ≤ item.size) (hk : KeyFits sha type item) (hash : SHAMapHash) : makeFromPrefix sha (serializeLeafWithPrefix type item) hash =
      .ok (.ok ⟨hash, 0, .leaf type item⟩) := by
  have hm : ¬ item.data.length < minItemBytes := Nat.not_lt_of_le hi
  have hl : ¬ (serializeLeafWithPrefix type item).length < 4 := by
    cases type <;> simp [serializeLeafWithPrefix, LeafType.hashPrefix]
  have ht : (serializeLeafWithPrefix type item).take 4 = type.hashPrefix := by cases type <;> rfl
  have hd : (serializeLeafWithPrefix type item).drop 4 = leafPayload type item := by
    cases type <;> rfl
  rw [makeFromPrefix, if_neg hl, ht, hd]
  cases type with
  | transactionNm =>
    have him := rereadItem_of_keyFits sha hk
    rw [rereadItem] at him
    rw [if_pos rfl, leafPayload, makeTransactionNode_eq, if_neg hm, dif_pos item.size_le, him]
    rfl
  | transactionMd =>
    rw [if_neg (by decide), if_neg (by decide), if_neg (by decide), if_pos rfl, leafPayload,
      makeTransactionWithMetaNode_eq, if_neg hm, dif_pos item.size_le]
    rfl
  | accountState =>
    rw [if_neg (by decide), if_pos rfl, leafPayload, makeAccountStateNode_eq, if_neg hm, if_neg hk,
      dif_pos item.size_le]
    rfl

/-! ### Round trips -/

/-- **Writing and reading a node**: an inner node with its hashes up to date, or a leaf whose key fits its type, is
read back as it was, from the wire and from the store. -/
theorem codec_round_trip (n : SHAMapTreeNode) (hn : Hashed sha n) :
    (∃ bytes m, n.serializeForWire = .ok bytes ∧ makeFromWire sha bytes = .ok (.ok (some m)) ∧ SameNode n m) ∧
    ∃ bytes m, n.serializeWithPrefix = .ok bytes ∧ makeFromPrefix sha bytes n.hash = .ok (.ok m) ∧ SameNode n m := by
  obtain ⟨hash, cowid, body⟩ := n
  cases body with
  | inner gen slots =>
    obtain ⟨he, hs, rfl⟩ := hn
    obtain ⟨wire, hw, hrd⟩ := makeFromWire_inner sha hs he
    obtain ⟨stored, ht, hd⟩ :=
      makeFromPrefix_inner sha hs he (computeInnerHash sha slots)
    refine ⟨⟨wire, _, hw, hrd, ?_⟩, stored, _, ht, hd, sameNode_bare⟩
    rw [innerNode, computeInnerHash_bareSlots]
    exact sameNode_bare
  | leaf type item =>
    obtain ⟨hm, hk, rfl⟩ := hn
    have hr : Readable type item := ⟨hm, fun ⟨hy, h0⟩ => by subst hy; exact hk h0⟩
    have hrd := makeFromWire_serializeLeaf sha hr
    rw [rereadItem_of_keyFits sha hk] at hrd
    refine ⟨⟨_, _, rfl, hrd, ⟨rfl, fun _ => rfl, fun _ => rfl, rfl, rfl⟩⟩, _, _, rfl,
      makeFromPrefix_leaf sha hm hk _, ⟨rfl, fun _ => rfl, fun _ => rfl, rfl, rfl⟩⟩

end

/-- An account state leaf under its hash. -/
def sampleLeaf : SHAMapTreeNode where
  hash := sampleLeafHash
  cowid := 0
  body := .leaf .accountState (twelveBytes (.ofFirst 1))

/-- The leaf is read back; nothing but its bytes is hashed on the way. -/
theorem codec_round_trip_sampleLeaf : Hashed (fun _ => sampleLeaf.hash) sampleLeaf ∧
      (∃ bytes m, sampleLeaf.serializeForWire = .ok bytes ∧
        makeFromWire (fun _ => sampleLeaf.hash) bytes = .ok (.ok (some m)) ∧ SameNode sampleLeaf m) ∧
      ∃ bytes m, sampleLeaf.serializeWithPrefix = .ok bytes ∧
        makeFromPrefix (fun _ => sampleLeaf.hash) bytes sampleLeaf.hash = .ok (.ok m) ∧ SameNode sampleLeaf m := by
  have hh : Hashed (fun _ => sampleLeaf.hash) sampleLeaf := ⟨by decide, by decide, rfl⟩
  exact ⟨hh, codec_round_trip _ sampleLeaf hh⟩

/-! ### Reading and writing -/

section

variable (sha : Sha)

/-- A branch is reported as set exactly when its hash is not zero. -/
def BranchesMatch (n : SHAMapTreeNode) : Prop := ∀ b, n.isEmptyBranch b = false ↔ n.getChildHash b ≠ 0

/-- The node is written for the wire and read from there with the same child hashes and the same hash. -/
def RereadFromWire (n : SHAMapTreeNode) : Prop :=
  ∃ bytes m, n.serializeForWire = .ok bytes ∧ makeFromWire sha bytes = .ok (.ok (some m)) ∧
    m.isInner = true ∧ (∀ b, m.getChildHash b = n.getChildHash b) ∧ m.hash = n.hash

/-- The node is written for the store and read from there, by its hash, with the same child hashes and the same
hash. -/
def RereadFromStore (n : SHAMapTreeNode) : Prop :=
  ∃ bytes m, n.serializeWithPrefix = .ok bytes ∧ makeFromPrefix sha bytes n.hash = .ok (.ok m) ∧
    m.isInner = true ∧ (∀ b, m.getChildHash b = n.getChildHash b) ∧ m.hash = n.hash

/-- Neither writer takes the node. -/
def RefusedEmpty (n : SHAMapTreeNode) : Prop :=
  n.serializeForWire = .error .emptyInnerNodeSerialization ∧
    n.serializeWithPrefix = .error .emptyInnerNodeSerialization

variable {sha}
variable {hash : SHAMapHash}

theorem branchesMatch_of_hashesSet (hs : HashesSet slots) : BranchesMatch ⟨hash, cowid, .inner gen slots⟩ := by
  intro b
  cases hb : slots b with
  | none =>
    simp [SHAMapTreeNode.isEmptyBranch, SHAMapTreeNode.getChildHash, SHAMapTreeNode.isInner, SHAMapTreeNode.slots,
      hb, slotHash_none hb]
  | some slot =>
    simp [SHAMapTreeNode.isEmptyBranch, SHAMapTreeNode.getChildHash, SHAMapTreeNode.isInner, SHAMapTreeNode.slots,
      hb, slotHash_some hb, hs b slot hb]

theorem isEmpty_inner : (⟨hash, cowid, .inner gen slots⟩ : SHAMapTreeNode).isEmpty ↔ setBranches slots = [] := by
  simp [SHAMapTreeNode.isEmpty, SHAMapTreeNode.isInner, SHAMapTreeNode.branchCount, SHAMapTreeNode.slots]

theorem rereadFromStore_inner (hs : HashesSet slots) (hn : setBranches slots ≠ []) :
    RereadFromStore sha ⟨hash, cowid, .inner gen slots⟩ := by
  obtain ⟨bytes, hb, hr⟩ := makeFromPrefix_inner sha hs hn hash
  exact ⟨bytes, _, hb, hr, rfl, sameNode_bare.childHash, rfl⟩

theorem rereadFromWire_inner (hs : HashesSet slots) (hn : setBranches slots ≠ [])
    (hh : hash = computeInnerHash sha slots) :
    RereadFromWire sha ⟨hash, cowid, .inner gen slots⟩ := by
  obtain ⟨bytes, hb, hr⟩ := makeFromWire_inner sha hs hn
  refine ⟨bytes, _, hb, hr, rfl, congrFun (slotHash_bareSlots slots), ?_⟩
  rw [hh, innerNode, computeInnerHash_bareSlots]

theorem refusedEmpty_inner (he : setBranches slots = []) : RefusedEmpty ⟨hash, cowid, .inner gen slots⟩ := by
  have hl : (setBranches slots).length = 0 := length_eq_zero_iff.mpr he
  exact ⟨if_pos hl, if_pos hl⟩

variable (sha)

/-- **Reading and writing an inner node.** For bytes that leave no branch zeroed, the branches that are set are those
with a hash. A node that has one is written and read again as it was; a node from the store has its own hash on the
wire, which is the one it was asked for by when that is the hash of the bytes. A node that has none is refused. -/
theorem decodedInner_reencodes : (∀ raw n, makeFromWire sha raw = .ok (.ok (some n)) → n.isInner = true →
      (∀ entries, raw = compressedBlob entries → ¬ Zeroes entries) →
      BranchesMatch n ∧ (n.isEmpty = false → RereadFromWire sha n ∧ RereadFromStore sha n) ∧
        (n.isEmpty = true → RefusedEmpty n)) ∧
    ∀ raw hash n, makeFromPrefix sha raw hash = .ok (.ok n) → n.isInner = true → BranchesMatch n ∧
        (n.isEmpty = false → RereadFromStore sha n ∧ (hash = sha raw → RereadFromWire sha n)) ∧
        (n.isEmpty = true → RefusedEmpty n) := by
  refine ⟨fun raw n hd hi hz => ?_, fun raw hash n hd hi => ?_⟩
  · obtain ⟨slots, hs, rfl⟩ : ∃ slots, HashesSet slots ∧ n = innerNode sha slots none := by
      rcases inner_of_makeFromWire hd hi with ⟨hash, rfl⟩ | ⟨entries, hr, rfl⟩
      · exact ⟨_, hashSlots_hashesSet hash, rfl⟩
      · exact ⟨_, entrySlots_hashesSet (hz entries hr), rfl⟩
    refine ⟨branchesMatch_of_hashesSet hs, fun ho => ?_, fun he => refusedEmpty_inner (isEmpty_inner.mp he)⟩
    have hn : setBranches slots ≠ [] := fun h => by
      rw [innerNode, isEmpty_inner.mpr h] at ho
      cases ho
    exact ⟨rereadFromWire_inner hs hn rfl, rereadFromStore_inner hs hn⟩
  · obtain ⟨hashes, rfl, rfl⟩ := inner_of_makeFromPrefix hd hi
    have hs := hashSlots_hashesSet hashes
    refine ⟨branchesMatch_of_hashesSet hs, fun ho => ?_, fun he => refusedEmpty_inner (isEmpty_inner.mp he)⟩
    have hn : setBranches (hashSlots hashes) ≠ [] := fun h => by
      rw [innerNode, isEmpty_inner.mpr h] at ho
      cases ho
    refine ⟨rereadFromStore_inner hs hn, fun hh => rereadFromWire_inner hs hn ?_⟩
    rw [hh, computeInnerHash, if_neg (by simpa using hn), slotHash_hashSlots]

end

/-- The inner node that has only the sample leaf, read from the wire; nothing but its bytes is hashed on the way. -/
def sampleRoot : SHAMapTreeNode :=
  ⟨sampleRootHash, 0, .inner 0 (entrySlots [(0, sampleLeaf.hash)] fun _ => none)⟩

theorem decodedInner_reencodes_sampleRoot :
    makeFromWire (fun _ => sampleRootHash) (compressedBlob [(0, sampleLeaf.hash)]) = .ok (.ok (some sampleRoot)) ∧
      BranchesMatch sampleRoot ∧ RereadFromWire (fun _ => sampleRootHash) sampleRoot ∧
      RereadFromStore (fun _ => sampleRootHash) sampleRoot := by
  have hd : makeFromWire (fun _ => sampleRootHash) (compressedBlob [(0, sampleLeaf.hash)]) =
      .ok (.ok (some sampleRoot)) := by decide +kernel
  have hz : ∀ entries, compressedBlob [(0, sampleLeaf.hash)] = compressedBlob entries → ¬ Zeroes entries := by
    rintro entries hr ⟨b, l1, l2, rfl, ⟨hash, he, -⟩, -⟩
    have hl := congrArg length hr
    have hp : 0 < l1.length := length_pos_of_mem he
    simp only [compressedBlob, length_append, length_flatMap_const _ fun e _ => Entry.length_bytes e,
      length_cons, length_nil] at hl
    omega
  obtain ⟨hm, hn, -⟩ := (decodedInner_reencodes _).1 _ _ hd rfl hz
  exact ⟨hd, hm, hn (by decide +kernel)⟩

/-- The byte 3 alone is read as an inner node that cannot be written. -/
theorem not_reread_emptyBlob :
    ¬ ∀ raw n, makeFromWire (fun _ => sampleRootHash) raw = .ok (.ok (some n)) → n.isInner = true →
      BranchesMatch n ∧ RereadFromWire (fun _ => sampleRootHash) n := by
  intro hc
  have hr : makeFromWire (fun _ => sampleRootHash) [wireTypeCompressedInner] =
      .ok (.ok (some ⟨0, 0, .inner 0 fun _ => none⟩)) := by decide +kernel
  obtain ⟨-, bytes, m, hb, -⟩ := hc _ _ hr rfl
  cases hb

end Xrpld.SHAMap
