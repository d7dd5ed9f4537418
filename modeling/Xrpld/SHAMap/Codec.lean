import Xrpld.SHAMap.TreeNode

/-!
# The two encodings of a node

`xrpl/shamap/tree_node.rs`: a node on the wire ends with a byte that names its form, a
node in the store begins with the prefix of its hash. An inner node is written on the
wire as 16 hashes, or, when fewer than 12 branches are set, as the hashes that are set
each followed by its branch.

A node read back has hash-only branches. Reading a leaf whose payload is over the limit
of an item panics (`makeFromWire_panics_iff`); every other byte string is read or refused.
-/

namespace Xrpld.SHAMap

open Function (update update_self update_of_ne)
open List Except LeafType

variable {n : ℕ} {c l data : List UInt8} {β : Type}

inductive SHAMapCodecError where
  | shortPrefixNode
  | unknownPrefixType (bytes : List UInt8)
  | unknownWireType (type : UInt8)
  | invalidFullInnerSize (size : ℕ)
  | invalidCompressedInnerSize (size : ℕ)
  | invalidCompressedInnerBranch (branch : UInt8)
  | shortLeafNode (nodeType : LeafType) (len : ℕ)
  | shortTransactionWithMetaNode (len : ℕ)
  | shortAccountStateNode (len : ℕ)
  | invalidAccountStateNode
  | emptyInnerNodeSerialization
  deriving DecidableEq

/-! ### Writing -/

def wireTypeInner : UInt8 := 2

def wireTypeCompressedInner : UInt8 := 3

/-- `WIRE_TYPE_TRANSACTION`, `WIRE_TYPE_TRANSACTION_WITH_META` and `WIRE_TYPE_ACCOUNT_STATE`. -/
def LeafType.wireType : LeafType → UInt8
  | .transactionNm => 0
  | .transactionMd => 4
  | .accountState => 1

def serializeLeafForWire (type : LeafType) (item : SHAMapItem) : List UInt8 :=
  leafPayload type item ++ [type.wireType]

/-- The hashes of all branches. -/
def fullInnerBytes (slots : Branch → Option Slot) : List UInt8 :=
  (List.finRange 16).flatMap fun b => (slotHash slots b).data

/-- The hashes of the branches that are set, each with its branch. -/
def compressedInnerBytes (slots : Branch → Option Slot) : List UInt8 :=
  (setBranches slots).flatMap fun b => (slotHash slots b).data ++ [UInt8.ofNat b.val]

def serializeInnerForWire (slots : Branch → Option Slot) : Except SHAMapCodecError (List UInt8) :=
  if (setBranches slots).length = 0 then .error .emptyInnerNodeSerialization
  else if (setBranches slots).length < 12 then .ok (compressedInnerBytes slots ++ [wireTypeCompressedInner])
  else .ok (fullInnerBytes slots ++ [wireTypeInner])

def serializeInnerWithPrefix (slots : Branch → Option Slot) : Except SHAMapCodecError (List UInt8) :=
  if (setBranches slots).length = 0 then .error .emptyInnerNodeSerialization
  else .ok (hashPrefixInnerNode ++ fullInnerBytes slots)

def SHAMapTreeNode.serializeForWire (n : SHAMapTreeNode) : Except SHAMapCodecError (List UInt8) :=
  match n.body with
  | .inner _ slots => serializeInnerForWire slots
  | .leaf type item => .ok (serializeLeafForWire type item)

def SHAMapTreeNode.serializeWithPrefix (n : SHAMapTreeNode) : Except SHAMapCodecError (List UInt8) :=
  match n.body with
  | .inner _ slots => serializeInnerWithPrefix slots
  | .leaf type item => .ok (serializeLeafWithPrefix type item)

/-! ### Reading -/

/-- `chunks_exact`: the pieces of length `n`, without what is left over. -/
def chunksExact (n : ℕ) (l : List UInt8) : List (List UInt8) :=
  (List.range (l.length / n)).map fun i => (l.drop (n * i)).take n

/-- `Uint256::from_slice(..).unwrap()`. -/
def unwrapSlice (l : List UInt8) : Run Uint256 :=
  match Uint256.fromSlice l with
  | none => .error (.expect "unwrap")
  | some x => .ok x

/-- Write the hash of a branch; the branch is set once a hash written to it is not zero. -/
def writeHash (slots : Branch → Option Slot) (b : Branch) (hash : SHAMapHash) : Branch → Option Slot :=
  if hash ≠ 0 then update slots b (some ⟨hash, none⟩)
  else update slots b ((slots b).map fun _ => ⟨0, none⟩)

/-- The loop of `make_full_inner`. -/
def readFullInner : List (Branch × List UInt8) → (Branch → Option Slot) → Run (Branch → Option Slot)
  | [], slots => .ok slots
  | (b, chunk) :: rest, slots => do
    let hash ← unwrapSlice chunk
    readFullInner rest (writeHash slots b hash)

/-- The loop of `make_compressed_inner`. -/
def readCompressedInner : List (List UInt8) → (Branch → Option Slot) →
    Run (Except SHAMapCodecError (Branch → Option Slot))
  | [], slots => .ok (.ok slots)
  | chunk :: rest, slots =>
    match (chunk.drop 32)[0]? with
    | none => .error .indexOutOfBounds
    | some p =>
      if hb : p.toNat < 16 then do
        let hash ← unwrapSlice (chunk.take 32)
        readCompressedInner rest (writeHash slots ⟨p.toNat, hb⟩ hash)
      else .ok (.error (.invalidCompressedInnerBranch p))

section

variable (sha512Half : Sha)

/-- An inner node read back: with the hash it is known by, or with its own. -/
def innerNode (slots : Branch → Option Slot) (known : Option SHAMapHash) : SHAMapTreeNode :=
  match known with
  | some hash => ⟨hash, 0, .inner 0 slots⟩
  | none => ⟨SHAMapTreeNode.computeInnerHash sha512Half slots, 0, .inner 0 slots⟩

def makeFullInner (data : List UInt8) (known : Option SHAMapHash) : Run (Except SHAMapCodecError SHAMapTreeNode) :=
  if data.length ≠ 16 * 32 then .ok (.error (.invalidFullInnerSize data.length))
  else do
    let slots ← readFullInner ((List.finRange 16).zip (chunksExact 32 data)) fun _ => none
    return .ok (innerNode sha512Half slots known)

def makeCompressedInner (data : List UInt8) : Run (Except SHAMapCodecError SHAMapTreeNode) :=
  if data.length % 33 ≠ 0 ∨ 33 * 16 < data.length then .ok (.error (.invalidCompressedInnerSize data.length))
  else do
    let slots ← readCompressedInner (chunksExact 33 data) fun _ => none
    return slots.map (innerNode sha512Half · none)

/-- A leaf read back: with the hash it is known by, or with its own. -/
def leafNode (type : LeafType) (item : SHAMapItem) (known : Option SHAMapHash) : Run SHAMapTreeNode :=
  match known with
  | some hash => SHAMapTreeNode.newLeafWithHash type item 0 hash
  | none => SHAMapTreeNode.newLeaf sha512Half type item 0

/-- `make_transaction_node`: the key is the hash of the transaction. -/
def makeTransactionNode (data : List UInt8) (known : Option SHAMapHash) :
    Run (Except SHAMapCodecError SHAMapTreeNode) :=
  if data.length < minItemBytes then .ok (.error (.shortLeafNode .transactionNm data.length))
  else do
    let item ← SHAMapItem.new (sha512Half (LeafType.transactionNm.hashPrefix ++ data)) data
    return .ok (← leafNode sha512Half .transactionNm item known)

/-- `make_transaction_with_meta_node`: the key follows the payload. -/
def makeTransactionWithMetaNode (data : List UInt8) (known : Option SHAMapHash) :
    Run (Except SHAMapCodecError SHAMapTreeNode) :=
  if data.length < 32 then .ok (.error (.shortTransactionWithMetaNode data.length))
  else
    let payload := data.take (data.length - 32)
    if payload.length < minItemBytes then .ok (.error (.shortLeafNode .transactionMd payload.length))
    else do
      let key ← unwrapSlice (data.drop (data.length - 32))
      let item ← SHAMapItem.new key payload
      return .ok (← leafNode sha512Half .transactionMd item known)

/-- `make_account_state_node`: the key follows the payload and is not zero. -/
def makeAccountStateNode (data : List UInt8) (known : Option SHAMapHash) :
    Run (Except SHAMapCodecError SHAMapTreeNode) :=
  if data.length < 32 then .ok (.error (.shortAccountStateNode data.length))
  else
    let payload := data.take (data.length - 32)
    if payload.length < minItemBytes then .ok (.error (.shortLeafNode .accountState payload.length))
    else do
      let key ← unwrapSlice (data.drop (data.length - 32))
      if key = 0 then return .error .invalidAccountStateNode
      let item ← SHAMapItem.new key payload
      return .ok (← leafNode sha512Half .accountState item known)

/-- The reader of a form. -/
def makeOfWireType (type : UInt8) (data : List UInt8) : Run (Except SHAMapCodecError SHAMapTreeNode) :=
  if type = LeafType.transactionNm.wireType then makeTransactionNode sha512Half data none
  else if type = LeafType.accountState.wireType then makeAccountStateNode sha512Half data none
  else if type = wireTypeInner then makeFullInner sha512Half data none
  else if type = wireTypeCompressedInner then makeCompressedInner sha512Half data
  else if type = LeafType.transactionMd.wireType then makeTransactionWithMetaNode sha512Half data none
  else .ok (.error (.unknownWireType type))

/-- `make_from_wire`: the last byte is the form, and no byte is no node. -/
def makeFromWire (raw : List UInt8) : Run (Except SHAMapCodecError (Option SHAMapTreeNode)) :=
  match raw.getLast? with
  | none => .ok (.ok none)
  | some type => do
    let node ← makeOfWireType sha512Half type raw.dropLast
    return node.map some

/-- `make_from_prefix`: the first four bytes are the form. -/
def makeFromPrefix (raw : List UInt8) (hash : SHAMapHash) : Run (Except SHAMapCodecError SHAMapTreeNode) :=
  if raw.length < 4 then .ok (.error .shortPrefixNode)
  else
    let p := raw.take 4
    let data := raw.drop 4
    if p = LeafType.transactionNm.hashPrefix then makeTransactionNode sha512Half data (some hash)
    else if p = LeafType.accountState.hashPrefix then makeAccountStateNode sha512Half data (some hash)
    else if p = hashPrefixInnerNode then makeFullInner sha512Half data (some hash)
    else if p = LeafType.transactionMd.hashPrefix then makeTransactionWithMetaNode sha512Half data (some hash)
    else .ok (.error (.unknownPrefixType p))

end

/-! ### Pieces -/

theorem length_of_mem_chunksExact (h : c ∈ chunksExact n l) : c.length = n := by
  simp only [chunksExact, mem_map, mem_range] at h
  obtain ⟨i, hi, rfl⟩ := h
  have hn : n * (i + 1) ≤ l.length := (Nat.mul_le_mul_left n hi).trans (Nat.mul_div_le l.length n)
  have hs : n * (i + 1) = n * i + n := Nat.mul_succ n i
  rw [length_take, length_drop]
  omega

theorem chunksExact_append (hn : 0 < n) (hc : c.length = n) (l : List UInt8) :
    chunksExact n (c ++ l) = c :: chunksExact n l := by
  have hl : (c ++ l).length / n = l.length / n + 1 := by
    rw [List.length_append, hc, Nat.add_comm, Nat.add_div_right _ hn]
  simp only [chunksExact, hl, range_succ_eq_map, map_cons, map_map]
  congr 1
  · simp [← hc]
  · refine map_congr_left fun i _ => ?_
    have hi : n * (i + 1) = c.length + n * i := by rw [hc, Nat.mul_succ, Nat.add_comm]
    simp [hi, drop_append, drop_eq_nil_of_le]

/-- Cutting pieces of one length that were put together gives the pieces. -/
theorem chunksExact_flatMap (hn : 0 < n) {f : β → List UInt8} (bs : List β) (hf : ∀ b ∈ bs, (f b).length = n) : chunksExact n (bs.flatMap f) = bs.map f := by
  induction bs with
  | nil => simp [chunksExact]
  | cons b bs ih =>
    rw [flatMap_cons, chunksExact_append hn (hf b (by simp)), ih fun c hc => hf c (by simp [hc]), map_cons]

theorem length_flatMap_const {f : β → List UInt8} (bs : List β) (hf : ∀ b ∈ bs, (f b).length = n) : (bs.flatMap f).length = n * bs.length := by
  induction bs with
  | nil => simp
  | cons b bs ih =>
    rw [flatMap_cons, length_append, hf b (by simp), ih fun c hc => hf c (by simp [hc]),
      List.length_cons, Nat.mul_succ, Nat.add_comm]

/-- The bytes under an inner node's hash determine the hashes of its branches. -/
theorem innerBytes_injective : Function.Injective innerBytes := by
  intro f g h
  have hb := append_cancel_left h
  have hc := congrArg (chunksExact 32) hb
  rw [chunksExact_flatMap (by decide) _ fun b _ => (f b).length_data,
    chunksExact_flatMap (by decide) _ fun b _ => (g b).length_data] at hc
  funext b
  exact Uint256.data_injective (map_inj_left.mp hc b (mem_finRange b))

theorem unwrapSlice_data (x : Uint256) : unwrapSlice x.data = .ok x := by
  rw [unwrapSlice, Uint256.fromSlice_data]

theorem unwrapSlice_ok (h : l.length = 32) : ∃ x, unwrapSlice l = .ok x := by
  obtain ⟨x, hx⟩ := Uint256.fromSlice_isSome h
  exact ⟨x, by rw [unwrapSlice, hx]⟩

/-! ### Reading inner nodes -/

/-- The slots of a node that is read back: nothing is loaded. -/
def bareSlots (slots : Branch → Option Slot) : Branch → Option Slot := fun b =>
  (slots b).map fun slot => ⟨slot.hash, none⟩

/-- A branch is set exactly when its hash is not zero. -/
def HashesSet (slots : Branch → Option Slot) : Prop := ∀ b slot, slots b = some slot → slot.hash ≠ 0

theorem slotHash_bareSlots (sl : Slots) : slotHash (bareSlots sl) = slotHash sl := by
  funext b
  cases hb : sl b with
  | none => rw [slotHash_none hb, slotHash_none (by rw [bareSlots, hb]; rfl)]
  | some slot => rw [slotHash_some hb, @slotHash_some _ b ⟨slot.hash, none⟩ (by rw [bareSlots, hb]; rfl)]

theorem setBranches_bareSlots (sl : Slots) : setBranches (bareSlots sl) = setBranches sl := by
  simp [setBranches, bareSlots]

theorem readFullInner_total (l : List (Branch × List UInt8)) (hl : ∀ p ∈ l, p.2.length = 32)
    (sl : Slots) : ∃ sl', readFullInner l sl = .ok sl' := by
  induction l generalizing sl with
  | nil => exact ⟨sl, rfl⟩
  | cons p l ih =>
    obtain ⟨b, chunk⟩ := p
    obtain ⟨x, hx⟩ := unwrapSlice_ok (hl (b, chunk) (by simp))
    obtain ⟨sl', h'⟩ := ih (fun p hp => hl p (by simp [hp])) (writeHash sl b x)
    exact ⟨sl', by rw [readFullInner, hx]; exact h'⟩

theorem readCompressedInner_total (l : List (List UInt8)) (hl : ∀ c ∈ l, c.length = 33)
    (sl : Slots) : ∃ r, readCompressedInner l sl = .ok r := by
  induction l generalizing sl with
  | nil => exact ⟨_, rfl⟩
  | cons chunk l ih =>
    have he := hl chunk (by simp)
    obtain ⟨x, hx⟩ := unwrapSlice_ok (l := chunk.take 32) (by rw [length_take, he]; rfl)
    have hp : ∃ p, (chunk.drop 32)[0]? = some p :=
      ⟨_, getElem?_eq_getElem (by rw [length_drop, he]; decide)⟩
    obtain ⟨p, hp⟩ := hp
    simp only [readCompressedInner, hp]
    split
    · next hb =>
      obtain ⟨r, hr⟩ := ih (fun c hc => hl c (by simp [hc])) (writeHash sl ⟨p.toNat, hb⟩ x)
      exact ⟨r, by rw [hx]; exact hr⟩
    · exact ⟨_, rfl⟩

/-- What the full form of some hashes is read as. -/
theorem readFullInner_hashes (hash : Branch → SHAMapHash) (bs : List Branch) (hn : bs.Nodup)
    (sl : Slots) (hs : ∀ b ∈ bs, sl b = none) :
    readFullInner (bs.map fun b => (b, (hash b).data)) sl =
      .ok fun b => if b ∈ bs then (if hash b = 0 then none else some ⟨hash b, none⟩) else sl b := by
  induction bs generalizing sl with
  | nil => simp [readFullInner]
  | cons c bs ih =>
    obtain ⟨hc, hn⟩ := nodup_cons.mp hn
    have hw : ∀ b ∈ bs, writeHash sl c (hash c) b = none := by
      intro b hb
      have hbc : b ≠ c := fun e => hc (e ▸ hb)
      unfold writeHash
      split <;> rw [update_of_ne hbc, hs b (by simp [hb])]
    rw [map_cons, readFullInner, unwrapSlice_data]
    refine (ih hn _ hw).trans (congrArg ok (funext fun b => ?_))
    by_cases hbc : b = c
    · subst hbc
      rw [if_neg hc, if_pos mem_cons_self]
      by_cases h0 : hash b = 0
      · rw [writeHash, if_neg (not_not.mpr h0), if_pos h0, update_self, hs b mem_cons_self]
        rfl
      · rw [writeHash, if_pos h0, if_neg h0, update_self]
    · have ho : b ∈ c :: bs ↔ b ∈ bs := by simp [hbc]
      have hwb : writeHash sl c (hash c) b = sl b := by
        unfold writeHash
        split <;> rw [update_of_ne hbc]
      simp only [ho, hwb]

/-- What the compressed form of some hashes that are not zero is read as. -/
theorem readCompressedInner_hashes (hash : Branch → SHAMapHash) (bs : List Branch) (h0 : ∀ b ∈ bs, hash b ≠ 0)
    (sl : Slots) : readCompressedInner (bs.map fun b => (hash b).data ++ [UInt8.ofNat b.val]) sl =
      .ok (.ok fun b => if b ∈ bs then some ⟨hash b, none⟩ else sl b) := by
  induction bs generalizing sl with
  | nil => simp [readCompressedInner]
  | cons c bs ih =>
    have hd : (((hash c).data ++ [UInt8.ofNat c.val]).drop 32)[0]? = some (UInt8.ofNat c.val) := by
      rw [drop_append_of_le_length (by simp), drop_eq_nil_of_le (by simp)]
      rfl
    have ht : ((hash c).data ++ [UInt8.ofNat c.val]).take 32 = (hash c).data := by
      rw [take_append_of_le_length (by simp), take_of_length_le (by simp)]
    have hc : (UInt8.ofNat c.val).toNat = c.val := by
      exact Nat.mod_eq_of_lt (by have := c.isLt; omega)
    simp only [List.map_cons, readCompressedInner, hd, ht, unwrapSlice_data, hc, c.isLt, dite_true]
    refine (ih (fun b hb => h0 b (by simp [hb])) _).trans ?_
    refine congrArg (ok ∘ ok) (funext fun b => ?_)
    have hn := h0 c (by simp)
    by_cases hbc : b = c
    · subst hbc
      simp [writeHash, hn]
    · have ho : b ∈ c :: bs ↔ b ∈ bs := by simp [hbc]
      simp [ho, writeHash, hn, update_of_ne hbc]

/-! ### Reading what was written -/

section

variable (sha512Half : Sha)

variable {sl : Slots}

/-- Slots whose branches are set exactly where the hash is not zero are read back from their hashes. -/
theorem bareSlots_eq (hs : HashesSet sl) (b : Branch) :
    bareSlots sl b = if slotHash sl b = 0 then none else some ⟨slotHash sl b, none⟩ := by
  cases hb : sl b with
  | none => rw [slotHash_none hb, if_pos rfl, bareSlots, hb]; rfl
  | some slot => rw [slotHash_some hb, if_neg (hs b slot hb), bareSlots, hb]; rfl

theorem makeFullInner_fullInnerBytes (hs : HashesSet sl) (kn : Option SHAMapHash) :
    makeFullInner sha512Half (fullInnerBytes sl) kn = .ok (.ok (innerNode sha512Half (bareSlots sl) kn)) := by
  have hf : ∀ b ∈ finRange 16, (slotHash sl b).data.length = 32 := fun b _ => (slotHash sl b).length_data
  have hl : (fullInnerBytes sl).length = 16 * 32 := by
    rw [fullInnerBytes, length_flatMap_const _ hf, length_finRange]
  have hr : readFullInner ((finRange 16).zip (chunksExact 32 (fullInnerBytes sl))) (fun _ => none) =
      .ok (bareSlots sl) := by
    have hz : (finRange 16).zip ((finRange 16).map fun b => (slotHash sl b).data) =
        (finRange 16).map fun b => (b, (slotHash sl b).data) :=
      (zip_of_prod (by rw [map_map]; exact map_id _) (by rw [map_map]; rfl)).symm
    rw [fullInnerBytes, chunksExact_flatMap (by decide) _ hf, hz,
      readFullInner_hashes _ _ (nodup_finRange 16) _ fun _ _ => rfl]
    exact congrArg ok (funext fun b => by rw [if_pos (mem_finRange b), bareSlots_eq hs])
  rw [makeFullInner, if_neg (not_not.mpr hl), hr]
  rfl

theorem makeCompressedInner_compressedInnerBytes (hs : HashesSet sl) :
    makeCompressedInner sha512Half (compressedInnerBytes sl) =
      .ok (.ok (innerNode sha512Half (bareSlots sl) none)) := by
  have hf : ∀ b ∈ setBranches sl, ((slotHash sl b).data ++ [UInt8.ofNat b.val]).length = 33 := fun b _ => by simp
  have hl := length_flatMap_const _ hf
  have h16 : (setBranches sl).length ≤ 16 := by
    have := length_filter_le (fun b => (sl b).isSome) (finRange 16)
    rwa [length_finRange] at this
  have h0 : ∀ b ∈ setBranches sl, slotHash sl b ≠ 0 := by
    intro b hb
    obtain ⟨slot, hsl⟩ := Option.ne_none_iff_exists'.mp (mem_setBranches.mp hb)
    simpa [slotHash, hsl] using hs b slot hsl
  have hr : readCompressedInner (chunksExact 33 (compressedInnerBytes sl)) (fun _ => none) =
      .ok (.ok (bareSlots sl)) := by
    rw [compressedInnerBytes, chunksExact_flatMap (by decide) _ hf, readCompressedInner_hashes _ _ h0]
    refine congrArg (ok ∘ ok) (funext fun b => ?_)
    cases hb : sl b with
    | none => rw [if_neg (by simp [mem_setBranches, hb]), bareSlots, hb]; rfl
    | some slot => rw [if_pos (by simp [mem_setBranches, hb]), bareSlots, hb, slotHash_some hb]; rfl
  rw [makeCompressedInner, if_neg, hr]
  · rfl
  · rw [compressedInnerBytes, hl]
    omega

/-- What `make_from_wire` does with the form's byte split off. -/
theorem makeFromWire_append (data : List UInt8) (type : UInt8) : makeFromWire sha512Half (data ++ [type]) = (do
      let node ← makeOfWireType sha512Half type data
      return node.map some) := by
  simp only [makeFromWire, getLast?_concat, dropLast_concat]

/-- **An inner node is read back** from what is written for it, without its children. -/
theorem makeFromWire_inner (hs : HashesSet sl) (hn : setBranches sl ≠ []) :
    ∃ bytes, serializeInnerForWire sl = .ok bytes ∧
      makeFromWire sha512Half bytes = .ok (.ok (some (innerNode sha512Half (bareSlots sl) none))) := by
  have hl : (setBranches sl).length ≠ 0 := fun h => hn (length_eq_zero_iff.mp h)
  by_cases h12 : (setBranches sl).length < 12
  · refine ⟨_, by rw [serializeInnerForWire, if_neg hl, if_pos h12], ?_⟩
    rw [makeFromWire_append, makeOfWireType, if_neg (by decide), if_neg (by decide), if_neg (by decide), if_pos rfl,
      makeCompressedInner_compressedInnerBytes sha512Half hs]
    rfl
  · refine ⟨_, by rw [serializeInnerForWire, if_neg hl, if_neg h12], ?_⟩
    rw [makeFromWire_append, makeOfWireType, if_neg (by decide), if_neg (by decide), if_pos rfl,
      makeFullInner_fullInnerBytes sha512Half hs]
    rfl

/-! ### Reading leaves -/

/-- A leaf with the hash of its item, as reading makes it. -/
def freshLeaf (type : LeafType) (item : SHAMapItem) : SHAMapTreeNode :=
  ⟨computeLeafHash sha512Half type item, 0, .leaf type item⟩

/-- A leaf as reading makes it: with the hash it is known by, or with its own. -/
def readLeaf (type : LeafType) (item : SHAMapItem) (known : Option SHAMapHash) : SHAMapTreeNode :=
  ⟨known.getD (computeLeafHash sha512Half type item), 0, .leaf type item⟩

theorem leafNode_eq (type : LeafType) (it : SHAMapItem) (kn : Option SHAMapHash) (h : minItemBytes ≤ it.size) :
    leafNode sha512Half type it kn = .ok (readLeaf sha512Half type it kn) := by
  cases kn <;>
    simp only [leafNode, SHAMapTreeNode.newLeaf, SHAMapTreeNode.newLeafWithHash, if_pos h, readLeaf, Option.getD]

/-- `make_transaction_node`, case by case. -/
theorem makeTransactionNode_eq (data : List UInt8) (kn : Option SHAMapHash) :
    makeTransactionNode sha512Half data kn =
      if data.length < minItemBytes then .ok (.error (.shortLeafNode .transactionNm data.length))
      else if h : data.length ≤ maxItemBytes then .ok (.ok (readLeaf sha512Half .transactionNm
          ⟨sha512Half (LeafType.transactionNm.hashPrefix ++ data), data, h⟩ kn))
      else .error (.assertion "SHAMapItem data must not exceed 16 MB") := by
  simp only [makeTransactionNode, bind, Except.bind, SHAMapItem.new]
  split_ifs with hm ha
  · rfl
  · simp only [leafNode_eq sha512Half _ ⟨_, data, ha⟩ kn (Nat.le_of_not_lt hm)]
    rfl
  · rfl

variable (pl : List UInt8)

/-- `make_transaction_with_meta_node` on a payload and a key. -/
theorem makeTransactionWithMetaNode_eq (key : Uint256) (kn : Option SHAMapHash) :
    makeTransactionWithMetaNode sha512Half (pl ++ key.data) kn =
      if pl.length < minItemBytes then .ok (.error (.shortLeafNode .transactionMd pl.length))
      else if h : pl.length ≤ maxItemBytes then
        .ok (.ok (readLeaf sha512Half .transactionMd ⟨key, pl, h⟩ kn))
      else .error (.assertion "SHAMapItem data must not exceed 16 MB") := by
  have hs : (pl ++ key.data).length - 32 = pl.length := by simp
  rw [makeTransactionWithMetaNode, if_neg (by simp), hs, List.take_left, List.drop_left]
  simp only [unwrapSlice_data, bind, Except.bind, SHAMapItem.new]
  split_ifs with hm ha
  · rfl
  · simp only [leafNode_eq sha512Half _ ⟨_, pl, ha⟩ kn (Nat.le_of_not_lt hm)]
    rfl
  · rfl

/-- `make_account_state_node` on a payload and a key. -/
theorem makeAccountStateNode_eq (key : Uint256) (kn : Option SHAMapHash) :
    makeAccountStateNode sha512Half (pl ++ key.data) kn =
      if pl.length < minItemBytes then .ok (.error (.shortLeafNode .accountState pl.length))
      else if key = 0 then .ok (.error .invalidAccountStateNode) else if h : pl.length ≤ maxItemBytes then
        .ok (.ok (readLeaf sha512Half .accountState ⟨key, pl, h⟩ kn))
      else .error (.assertion "SHAMapItem data must not exceed 16 MB") := by
  have hs : (pl ++ key.data).length - 32 = pl.length := by simp
  rw [makeAccountStateNode, if_neg (by simp), hs, List.take_left, List.drop_left]
  simp only [unwrapSlice_data, bind, Except.bind, SHAMapItem.new]
  split_ifs with hi hk hm
  · rfl
  · rfl
  · simp only [leafNode_eq sha512Half _ ⟨_, pl, hm⟩ kn (Nat.le_of_not_lt hi)]
    rfl
  · rfl

/-- Bytes that are long enough end in a key. -/
theorem exists_payload_key (h : ¬ data.length < 32) : ∃ pl, ∃ key : Uint256, data = pl ++ key.data := by
  obtain ⟨key, hk⟩ := Uint256.fromSlice_isSome (l := data.drop (data.length - 32)) (by simp; omega)
  exact ⟨data.take (data.length - 32), key, by rw [Uint256.data_of_fromSlice hk, take_append_drop]⟩

/-- An item that can be written and read again: not too short, and not a zero account-state key. -/
def Readable (type : LeafType) (item : SHAMapItem) : Prop :=
  minItemBytes ≤ item.size ∧ ¬ (type = .accountState ∧ item.key = 0)

instance (type : LeafType) (item : SHAMapItem) : Decidable (Readable type item) :=
  inferInstanceAs (Decidable (_ ∧ _))

/-- The item that the bytes of an item are read as: the key of a plain transaction is its own hash. -/
def rereadItem (type : LeafType) (item : SHAMapItem) : SHAMapItem :=
  match type with
  | .transactionNm => ⟨sha512Half (LeafType.transactionNm.hashPrefix ++ item.data), item.data, item.size_le⟩
  | .transactionMd | .accountState => item

variable {it : SHAMapItem} {type : LeafType}

/-- **A leaf is read back** from what is written for it, a plain transaction under its own hash. -/
theorem makeFromWire_serializeLeaf (h : Readable type it) : makeFromWire sha512Half (serializeLeafForWire type it) =
      .ok (.ok (some (freshLeaf sha512Half type (rereadItem sha512Half type it)))) := by
  obtain ⟨hi, hk⟩ := h
  have hm : ¬ it.data.length < minItemBytes := Nat.not_lt_of_le hi
  cases type with
  | transactionNm =>
    rw [serializeLeafForWire, makeFromWire_append, makeOfWireType, if_pos rfl, leafPayload, makeTransactionNode_eq,
      if_neg hm, dif_pos it.size_le]
    rfl
  | transactionMd =>
    rw [serializeLeafForWire, makeFromWire_append, makeOfWireType, if_neg (by decide), if_neg (by decide), if_neg (by decide),
      if_neg (by decide), if_pos rfl, leafPayload, makeTransactionWithMetaNode_eq, if_neg hm,
      dif_pos it.size_le]
    rfl
  | accountState =>
    rw [serializeLeafForWire, makeFromWire_append, makeOfWireType, if_neg (by decide), if_pos rfl, leafPayload,
      makeAccountStateNode_eq, if_neg hm, if_neg fun h0 => hk ⟨rfl, h0⟩, dif_pos it.size_le]
    rfl

theorem makeFromWire_leaf (h : Readable type it) : ∃ item', makeFromWire sha512Half (serializeLeafForWire type it) =
        .ok (.ok (some (freshLeaf sha512Half type item'))) ∧
      serializeLeafWithPrefix type item' = serializeLeafWithPrefix type it :=
  ⟨rereadItem sha512Half type it, makeFromWire_serializeLeaf sha512Half h, by cases type <;> rfl⟩

/-- A leaf that is not readable is refused. -/
theorem makeFromWire_leaf_refused (h : ¬ Readable type it) :
    ∃ e, makeFromWire sha512Half (serializeLeafForWire type it) = .ok (.error e) := by
  have hs : it.data.length < minItemBytes ∨ type = .accountState ∧ it.key = 0 := by
    by_contra hn
    push Not at hn
    exact h ⟨hn.1, fun hk => hn.2 hk.1 hk.2⟩
  cases type with
  | transactionNm =>
    have hm := hs.resolve_right (by simp)
    refine ⟨.shortLeafNode .transactionNm it.data.length, ?_⟩
    rw [serializeLeafForWire, makeFromWire_append, makeOfWireType, if_pos rfl, leafPayload, makeTransactionNode_eq, if_pos hm]
    rfl
  | transactionMd =>
    have hm := hs.resolve_right (by simp)
    refine ⟨.shortLeafNode .transactionMd it.data.length, ?_⟩
    rw [serializeLeafForWire, makeFromWire_append, makeOfWireType, if_neg (by decide), if_neg (by decide), if_neg (by decide),
      if_neg (by decide), if_pos rfl, leafPayload, makeTransactionWithMetaNode_eq, if_pos hm]
    rfl
  | accountState =>
    rw [serializeLeafForWire, makeFromWire_append, makeOfWireType, if_neg (by decide), if_pos rfl, leafPayload,
      makeAccountStateNode_eq]
    rcases hs with hm | ⟨-, he⟩
    · exact ⟨_, by rw [if_pos hm]; rfl⟩
    · by_cases hm : it.data.length < minItemBytes
      · exact ⟨_, by rw [if_pos hm]; rfl⟩
      · exact ⟨_, by rw [if_neg hm, if_pos he]; rfl⟩

/-! ### What is read -/

/-- The nodes that reading makes: every hash is the node's own, nothing is loaded. -/
inductive Fresh : SHAMapTreeNode → Prop where
  | inner (slots : Branch → Option Slot) : Fresh (innerNode sha512Half slots none)
  | leaf (type : LeafType) (item : SHAMapItem) : Fresh (freshLeaf sha512Half type item)

/-- A leaf blob that is over the limit of an item and passes every check before it. -/
def Oversized (raw : List UInt8) : Prop :=
  (∃ data, raw = data ++ [LeafType.transactionNm.wireType] ∧ maxItemBytes < data.length) ∨
  (∃ payload, ∃ key : Uint256, raw = payload ++ key.data ++ [LeafType.transactionMd.wireType] ∧
    maxItemBytes < payload.length) ∨
  (∃ payload, ∃ key : Uint256, raw = payload ++ key.data ++ [LeafType.accountState.wireType] ∧
    maxItemBytes < payload.length ∧ key ≠ 0)

/-- What a call of one of the readers comes to: a node, a refusal, or a panic when `big` holds. -/
def ReadsOr (big : Prop) (r : Run (Except SHAMapCodecError SHAMapTreeNode)) : Prop :=
  (∃ n, r = .ok (.ok n) ∧ Fresh sha512Half n ∧ ¬ big) ∨ (∃ e, r = .ok (.error e) ∧ ¬ big) ∨ ∃ f, r = .error f ∧ big

theorem reads_makeFullInner (data : List UInt8) : ReadsOr sha512Half False (makeFullInner sha512Half data none) := by
  rw [makeFullInner]
  split_ifs with hl
  · exact .inr (.inl ⟨_, rfl, id⟩)
  · obtain ⟨sl, hs⟩ := readFullInner_total ((finRange 16).zip (chunksExact 32 data))
      (fun p hp => length_of_mem_chunksExact (of_mem_zip hp).2) fun _ => none
    exact .inl ⟨innerNode sha512Half sl none, by rw [hs]; rfl, .inner sl, id⟩

theorem reads_makeCompressedInner (data : List UInt8) :
    ReadsOr sha512Half False (makeCompressedInner sha512Half data) := by
  rw [makeCompressedInner]
  split_ifs with hl
  · exact .inr (.inl ⟨_, rfl, id⟩)
  · obtain ⟨r, hr⟩ := readCompressedInner_total (chunksExact 33 data)
      (fun c hc => length_of_mem_chunksExact hc) fun _ => none
    cases r with
    | error e => exact .inr (.inl ⟨e, by rw [hr]; rfl, id⟩)
    | ok sl => exact .inl ⟨innerNode sha512Half sl none, by rw [hr]; rfl, .inner sl, id⟩

theorem reads_makeTransactionNode (data : List UInt8) :
    ReadsOr sha512Half (maxItemBytes < data.length) (makeTransactionNode sha512Half data none) := by
  rw [makeTransactionNode_eq]
  split_ifs with hi hm
  · exact .inr (.inl ⟨_, rfl, by unfold minItemBytes at hi; unfold maxItemBytes; omega⟩)
  · exact .inl ⟨_, rfl, .leaf .., Nat.not_lt_of_le hm⟩
  · exact .inr (.inr ⟨_, rfl, Nat.lt_of_not_le hm⟩)

theorem reads_makeTransactionWithMetaNode (key : Uint256) : ReadsOr sha512Half (maxItemBytes < pl.length)
      (makeTransactionWithMetaNode sha512Half (pl ++ key.data) none) := by
  rw [makeTransactionWithMetaNode_eq]
  split_ifs with hi hm
  · exact .inr (.inl ⟨_, rfl, by unfold minItemBytes at hi; unfold maxItemBytes; omega⟩)
  · exact .inl ⟨_, rfl, .leaf .., Nat.not_lt_of_le hm⟩
  · exact .inr (.inr ⟨_, rfl, Nat.lt_of_not_le hm⟩)

theorem reads_makeAccountStateNode (key : Uint256) : ReadsOr sha512Half (maxItemBytes < pl.length ∧ key ≠ 0)
      (makeAccountStateNode sha512Half (pl ++ key.data) none) := by
  rw [makeAccountStateNode_eq]
  split_ifs with hi hk hm
  · exact .inr (.inl ⟨_, rfl, by unfold minItemBytes at hi; unfold maxItemBytes; omega⟩)
  · exact .inr (.inl ⟨_, rfl, fun h => h.2 hk⟩)
  · exact .inl ⟨_, rfl, .leaf .., fun h => Nat.not_lt_of_le hm h.1⟩
  · exact .inr (.inr ⟨_, rfl, Nat.lt_of_not_le hm, hk⟩)

variable {sha512Half} in
theorem ReadsOr.congr {big big' : Prop} {r : Run (Except SHAMapCodecError SHAMapTreeNode)}
    (h : ReadsOr sha512Half big r) (hb : big ↔ big') : ReadsOr sha512Half big' r := (propext hb) ▸ h

theorem oversized_append {type : UInt8} : Oversized (data ++ [type]) ↔
      type = transactionNm.wireType ∧ maxItemBytes < data.length ∨ type = transactionMd.wireType ∧
        (∃ pl, ∃ key : Uint256, data = pl ++ key.data ∧ maxItemBytes < pl.length) ∨
      type = accountState.wireType ∧
        ∃ pl, ∃ key : Uint256, data = pl ++ key.data ∧ maxItemBytes < pl.length ∧ key ≠ 0 := by
  simp only [Oversized, append_singleton_inj]
  grind

/-- The payload and the key of bytes are determined by the bytes. -/
theorem payload_key_inj {p q : List UInt8} {x y : Uint256} (h : p ++ x.data = q ++ y.data) : p = q ∧ x = y := by
  obtain ⟨hp, hx⟩ := append_inj' h (by simp)
  exact ⟨hp, Uint256.data_injective hx⟩

/-- Every form is read, refused, or panics on a leaf that is too long. -/
theorem reads_makeOfWireType (type : UInt8) (data : List UInt8) :
    ReadsOr sha512Half (Oversized (data ++ [type])) (makeOfWireType sha512Half type data) := by
  rw [oversized_append, makeOfWireType]
  split_ifs with h0 h1 h2 h3 h4
  · subst h0
    exact (reads_makeTransactionNode sha512Half data).congr (by simp [wireType])
  · subst h1
    by_cases hl : data.length < 32
    · refine .inr (.inl ⟨_, by rw [makeAccountStateNode, if_pos hl], ?_⟩)
      rintro (⟨h, -⟩ | ⟨h, -⟩ | ⟨-, p, k, rfl, -⟩)
      · exact h0 h
      · exact absurd h (by decide)
      · exact absurd hl (by simp)
    · obtain ⟨pl, key, rfl⟩ := exists_payload_key hl
      refine (reads_makeAccountStateNode sha512Half pl key).congr ⟨fun h => ?_, ?_⟩
      · exact .inr (.inr ⟨rfl, pl, key, rfl, h⟩)
      · rintro (⟨h, -⟩ | ⟨h, -⟩ | ⟨-, p, k, hp, h⟩)
        · exact absurd h h0
        · exact absurd h (by decide)
        · obtain ⟨rfl, rfl⟩ := payload_key_inj hp
          exact h
  · subst h2
    exact (reads_makeFullInner sha512Half data).congr (by simp [wireType, wireTypeInner])
  · subst h3
    exact (reads_makeCompressedInner sha512Half data).congr (by simp [wireType, wireTypeCompressedInner])
  · subst h4
    by_cases hl : data.length < 32
    · refine .inr (.inl ⟨_, by rw [makeTransactionWithMetaNode, if_pos hl], ?_⟩)
      rintro (⟨h, -⟩ | ⟨-, p, k, rfl, -⟩ | ⟨h, -⟩)
      · exact h0 h
      · exact absurd hl (by simp)
      · exact absurd h (by decide)
    · obtain ⟨pl, key, rfl⟩ := exists_payload_key hl
      refine (reads_makeTransactionWithMetaNode sha512Half pl key).congr ⟨fun h => ?_, ?_⟩
      · exact .inr (.inl ⟨rfl, pl, key, rfl, h⟩)
      · rintro (⟨h, -⟩ | ⟨-, p, k, hp, h⟩ | ⟨h, -⟩)
        · exact absurd h h0
        · obtain ⟨rfl, rfl⟩ := payload_key_inj hp
          exact h
        · exact absurd h (by decide)
  · refine .inr (.inl ⟨_, rfl, ?_⟩)
    rintro (⟨h, -⟩ | ⟨h, -⟩ | ⟨h, -⟩)
    · exact h0 h
    · exact h4 h
    · exact h1 h

theorem makeFromWire_cases (raw : List UInt8) :
    (∃ n, makeFromWire sha512Half raw = .ok (.ok (some n)) ∧ Fresh sha512Half n ∧ ¬ Oversized raw) ∨
    ((makeFromWire sha512Half raw = .ok (.ok none) ∨ ∃ e, makeFromWire sha512Half raw = .ok (.error e)) ∧
      ¬ Oversized raw) ∨ ∃ f, makeFromWire sha512Half raw = .error f ∧ Oversized raw := by
  rcases eq_nil_or_concat raw with rfl | ⟨data, type, rfl⟩
  · exact .inr (.inl ⟨.inl rfl, by simp [Oversized]⟩)
  rw [concat_eq_append, makeFromWire_append]
  rcases reads_makeOfWireType sha512Half type data with ⟨n, hr, hn, hb⟩ | ⟨e, hr, hb⟩ | ⟨f, hr, hb⟩
  · exact .inl ⟨n, by rw [hr]; rfl, hn, hb⟩
  · exact .inr (.inl ⟨.inr ⟨e, by rw [hr]; rfl⟩, hb⟩)
  · exact .inr (.inr ⟨f, by rw [hr]; rfl, hb⟩)

/-- **Reading a blob panics exactly when it is an oversized leaf.** -/
theorem makeFromWire_panics_iff (raw : List UInt8) : (∃ f, makeFromWire sha512Half raw = .error f) ↔ Oversized raw := by
  rcases makeFromWire_cases sha512Half raw with ⟨n, h, -, hb⟩ | ⟨h, hb⟩ | ⟨f, h, hb⟩
  · exact ⟨fun ⟨f, hf⟩ => (by rw [h] at hf; cases hf), fun h' => absurd h' hb⟩
  · refine ⟨fun ⟨f, hf⟩ => ?_, fun h' => absurd h' hb⟩
    rcases h with h | ⟨e, h⟩ <;> (rw [h] at hf; cases hf)
  · exact ⟨fun _ => hb, fun _ => ⟨f, h⟩⟩

end

/-- The hash of an account state leaf. -/
def sampleLeafHash : SHAMapHash :=
  ⟨[0x5B, 0x70, 0xB0, 0x3A, 0xFC, 0x9F, 0x1B, 0x41, 0x52, 0x55, 0x2E, 0x2F, 0xD3, 0x4F, 0xDE, 0x04,
    0x3C, 0x5A, 0x9D, 0x2A, 0x25, 0x4B, 0xFB, 0xF2, 0xDC, 0x28, 0x26, 0x91, 0x56, 0x10, 0xFB, 0x4C], rfl⟩

/-- The hash of the inner node that has only that leaf, under its first branch. -/
def sampleRootHash : SHAMapHash :=
  ⟨[0xBF, 0xFE, 0x8E, 0x65, 0x68, 0xBF, 0xF5, 0x9F, 0xA2, 0x2D, 0x4E, 0x9A, 0x60, 0x40, 0x1C, 0x0D,
    0x51, 0x3B, 0xB7, 0x1B, 0x1F, 0x2F, 0x22, 0xD9, 0x51, 0x37, 0x64, 0xDE, 0xB2, 0x76, 0xCE, 0x97], rfl⟩

end Xrpld.SHAMap
