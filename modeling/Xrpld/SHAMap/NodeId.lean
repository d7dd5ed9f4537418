import Xrpld.Basics.Uint256

/-!
# Positions in a map

`xrpl/shamap/node_id.rs`. A position is a depth and the half bytes that lead to it;
the rest of the identifier is zero. `SHAMapNodeId::new` is the only way to make a
position and checks this, so here it is part of the type.

The branch taken at a position is half byte `depth` of the key. At depth 64 there is
no such half byte and `select_branch` reads past the end of the array: the model
says so (`selectBranch`), and `selectBranch_eq` says it does not happen higher up.
-/

namespace Xrpld.SHAMap

open UInt8

/-- `SHAMAP_LEAF_DEPTH`. -/
def leafDepth : ℕ := 64

inductive SHAMapNodeIdError where
  | invalidDepth
  | hashDoesNotMatchDepth
  | invalidBranch
  | leafHasNoChildren
  deriving DecidableEq

/-- Set some bits of byte `i`: `bytes[i] |= bits`. -/
def orByte (x : Uint256) (i : ℕ) (bits : UInt8) : Uint256 :=
  ⟨x.data.modify i (· ||| bits), by simp⟩

/-- `depth_mask`: the half bytes above `depth`, one after the other. -/
def depthMask : ℕ → Uint256
  | 0 => 0
  | nibble + 1 => orByte (depthMask nibble) (nibble / 2) (if nibble % 2 = 0 then 0xF0 else 0x0F)

theorem getD_orByte (x : Uint256) (i : ℕ) (bits : UInt8) (j : ℕ) (hj : j < 32) :
    (orByte x i bits).data.getD j 0 = if i = j then x.data.getD j 0 ||| bits else x.data.getD j 0 := by
  simp only [orByte, List.getD_eq_getElem?_getD, List.getElem?_modify]
  rw [Uint256.getElem?_data x hj]
  split <;> rfl

/-- Byte `j` of the mask. -/
theorem getD_depthMask (d j : ℕ) (hj : j < 32) :
    (depthMask d).data.getD j 0 = if 2 * j + 2 ≤ d then 0xFF else if 2 * j + 1 ≤ d then 0xF0 else 0 := by
  induction d with
  | zero =>
    have hz : (depthMask 0).data.getD j 0 = 0 := by
      show (List.replicate 32 (0 : UInt8)).getD j 0 = 0
      rw [List.getD_eq_getElem?_getD, List.getElem?_replicate]
      split <;> rfl
    rw [hz, if_neg (by omega), if_neg (by omega)]
  | succ d ih =>
    rw [depthMask, getD_orByte _ _ _ _ hj, ih]
    by_cases hd : d / 2 = j
    · rw [if_pos hd, if_neg (show ¬ 2 * j + 2 ≤ d by omega)]
      rcases Nat.mod_two_eq_zero_or_one d with h0 | h1
      · rw [if_pos h0, if_neg (show ¬ 2 * j + 1 ≤ d by omega), if_neg (show ¬ 2 * j + 2 ≤ d + 1 by omega),
          if_pos (show 2 * j + 1 ≤ d + 1 by omega)]
        decide
      · rw [if_neg (show ¬ d % 2 = 0 by omega), if_pos (show 2 * j + 1 ≤ d by omega),
          if_pos (show 2 * j + 2 ≤ d + 1 by omega)]
        decide
    · rw [if_neg hd]
      by_cases h2 : 2 * j + 2 ≤ d
      · rw [if_pos h2, if_pos (by omega)]
      · rw [if_neg h2, if_neg (show ¬ 2 * j + 1 ≤ d by omega), if_neg (show ¬ 2 * j + 2 ≤ d + 1 by omega),
          if_neg (show ¬ 2 * j + 1 ≤ d + 1 by omega)]

/-- A position: the half bytes of `id` from `depth` on are zero. -/
structure SHAMapNodeId where
  /-- The half bytes that lead here. -/
  id : Uint256
  /-- How many they are. -/
  depth : ℕ
  depth_le : depth ≤ leafDepth
  masked : id &&& depthMask depth = id
  deriving DecidableEq

variable (n : SHAMapNodeId)

namespace SHAMapNodeId

def new (depth : ℕ) (hash : Uint256) : Except SHAMapNodeIdError SHAMapNodeId :=
  if hd : depth ≤ leafDepth then
    if hm : hash &&& depthMask depth = hash then .ok ⟨hash, depth, hd, hm⟩
    else .error .hashDoesNotMatchDepth
  else .error .invalidDepth

/-- `SHAMapNodeId::default()`: the root's position. -/
def root : SHAMapNodeId := ⟨0, 0, Nat.zero_le _, by decide⟩

def isRoot : Bool := n.depth == 0

def getChildNodeId (branch : Fin 16) : Except SHAMapNodeIdError SHAMapNodeId :=
  if leafDepth ≤ n.depth then .error .leafHasNoChildren
  else
    new (n.depth + 1) (orByte n.id (n.depth / 2)
      (if n.depth % 2 = 1 then UInt8.ofNat branch.val else UInt8.ofNat branch.val <<< 4))

def createId (depth : ℕ) (key : Uint256) : Except SHAMapNodeIdError SHAMapNodeId :=
  if leafDepth < depth then .error .invalidDepth
  else new depth (key &&& depthMask depth)

end SHAMapNodeId

/-- `select_branch`: half byte `depth` of the key. -/
def selectBranch (hash : Uint256) : Run (Fin 16) :=
  match hash.data[n.depth / 2]? with
  | none => .error .indexOutOfBounds
  | some b => .ok (if n.depth % 2 = 1 then lowNibble b else highNibble b)

/-- Above depth 64 the branch is the key's half byte at that depth. -/
theorem selectBranch_eq {n : SHAMapNodeId} (hn : n.depth < leafDepth) (key : Uint256) :
    selectBranch n key = .ok (key.nibble n.depth) := by
  have hl : n.depth / 2 < 32 := by unfold leafDepth at hn; omega
  simp only [selectBranch, Uint256.nibble, Uint256.getElem?_data _ hl]

/-- At depth 64 there is no branch to select. -/
theorem selectBranch_leafDepth {n : SHAMapNodeId} (hn : n.depth = leafDepth) (key : Uint256) :
    selectBranch n key = .error .indexOutOfBounds := by
  have h32 : n.depth / 2 = 32 := by rw [hn]; decide
  simp [selectBranch, h32]

theorem and_mask_byte {x : Uint256} {d : ℕ} (hx : x &&& depthMask d = x) (j : ℕ) (hj : j < 32) :
    x.data.getD j 0 &&& (depthMask d).data.getD j 0 = x.data.getD j 0 := by
  rw [← Uint256.getD_and x (depthMask d) j hj, hx]

/-- `a & mask = a` is a statement about each byte. -/
theorem and_mask_of_bytes {x : Uint256} {d : ℕ}
    (h : ∀ j < 32, x.data.getD j 0 &&& (depthMask d).data.getD j 0 = x.data.getD j 0) : x &&& depthMask d = x :=
  Uint256.ext_byte fun j hj => (Uint256.getD_and x (depthMask d) j hj).trans (h j hj)

theorem shiftLeft_masked (b : Fin 16) : ofNat b.val <<< (4 : UInt8) &&& 0xF0 = ofNat b.val <<< (4 : UInt8) := by
  revert b
  decide

/-- Writing half byte `depth` of a position leaves the half bytes below it zero. -/
theorem child_masked (branch : Fin 16) :
    let id := orByte n.id (n.depth / 2) (if n.depth % 2 = 1 then ofNat branch.val else ofNat branch.val <<< 4)
    id &&& depthMask (n.depth + 1) = id := by
  refine and_mask_of_bytes fun j hj => ?_
  have hm := and_mask_byte n.masked j hj
  rw [getD_depthMask _ _ hj] at hm ⊢
  rw [getD_orByte _ _ _ _ hj]
  by_cases hd : n.depth / 2 = j
  · rw [if_pos hd]
    rcases Nat.mod_two_eq_zero_or_one n.depth with h0 | h1
    · -- the byte is still empty: the branch goes into its high half
      rw [if_neg (by omega), if_neg (by omega)] at hm
      rw [if_neg (by omega : ¬ n.depth % 2 = 1), if_neg (by omega), if_pos (by omega)]
      have hz : n.id.data.getD j 0 = 0 := by simpa using hm.symm
      rw [hz, UInt8.zero_or]
      exact shiftLeft_masked branch
    · rw [if_pos (by omega : 2 * j + 2 ≤ n.depth + 1)]
      exact and_neg_one
  · rw [if_neg hd]
    by_cases h2 : 2 * j + 2 ≤ n.depth
    · rw [if_pos (by omega)]
      exact and_neg_one
    · rw [if_neg h2, if_neg (by omega)] at hm
      rw [if_neg (by omega), if_neg (by omega)]
      exact hm

/-- Above depth 64 every branch has a position, one deeper. -/
theorem getChildNodeId_ok {n : SHAMapNodeId} (hn : n.depth < leafDepth) (branch : Fin 16) :
    ∃ c, n.getChildNodeId branch = .ok c ∧ c.depth = n.depth + 1 := by
  unfold SHAMapNodeId.getChildNodeId SHAMapNodeId.new
  rw [if_neg (Nat.not_le_of_lt hn), dif_pos (show n.depth + 1 ≤ leafDepth from hn), dif_pos (child_masked n branch)]
  exact ⟨_, rfl, rfl⟩

/-- A position made is one deeper than the one it was made from. -/
theorem depth_of_getChildNodeId {n c : SHAMapNodeId} {branch : Fin 16}
    (h : n.getChildNodeId branch = .ok c) : n.depth < leafDepth ∧ c.depth = n.depth + 1 := by
  by_cases hn : n.depth < leafDepth
  · obtain ⟨c', hc, hd⟩ := getChildNodeId_ok hn branch
    rw [hc] at h
    cases h
    exact ⟨hn, hd⟩
  · unfold SHAMapNodeId.getChildNodeId at h
    rw [if_pos (Nat.le_of_not_lt hn)] at h
    cases h

theorem and_self_mask (key : Uint256) (d : ℕ) : (key &&& depthMask d) &&& depthMask d = key &&& depthMask d := by
  refine and_mask_of_bytes fun j hj => ?_
  rw [Uint256.getD_and _ _ _ hj, UInt8.and_assoc, UInt8.and_self]

/-- The position of a key at a depth of the map. -/
theorem createId_ok {depth : ℕ} (hd : depth ≤ leafDepth) (key : Uint256) :
    ∃ n, SHAMapNodeId.createId depth key = .ok n ∧ n.depth = depth := by
  unfold SHAMapNodeId.createId SHAMapNodeId.new
  rw [if_neg (Nat.not_lt_of_le hd), dif_pos hd, dif_pos (and_self_mask key depth)]
  exact ⟨_, rfl, rfl⟩

end Xrpld.SHAMap
