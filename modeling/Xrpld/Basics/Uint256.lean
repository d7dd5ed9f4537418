import Mathlib

/-!
# 256-bit identifiers

`BaseUInt<32>` of `xrpl/basics/base_uint.rs`: an array of 32 bytes, compared byte
by byte from the front. A key of a map is read four bits at a time, so this module
also says what the 64 half bytes (`nibble`) of an identifier are and that they
determine it.

A Rust function that panics, or that loops without a bound the caller knows, is a
Lean function into `Run`: it returns a value or says why it does not.
-/

namespace Xrpld

open List

variable {l : List UInt8} {i j : ℕ}

/-- Why a call does not return. -/
inductive Fault where
  /-- An index past the end of an array. -/
  | indexOutOfBounds
  /-- An `assert!` that fails. -/
  | assertion (msg : String)
  /-- An `expect` or `unwrap` of nothing. -/
  | expect (msg : String)
  /-- An addition or a subtraction that leaves its machine type. -/
  | overflow
  /-- A loop that has not ended within the steps it was given. -/
  | outOfFuel
  deriving DecidableEq

/-- What a call that may panic gives. -/
abbrev Run (α : Type) := Except Fault α

/-- An identifier: a key, or a hash. -/
structure Uint256 where
  /-- `data()`: the bytes, the most significant first. -/
  data : List UInt8
  length_data : data.length = 32
  deriving DecidableEq

/-- The low half of a byte. -/
def lowNibble (b : UInt8) : Fin 16 :=
  ⟨(b &&& 0x0F).toNat, by rw [UInt8.toNat_and]; exact Nat.lt_of_le_of_lt Nat.and_le_right (by decide)⟩

/-- The high half of a byte. -/
def highNibble (b : UInt8) : Fin 16 :=
  ⟨(b >>> 4).toNat, by have := b.toNat_lt; simp [Nat.shiftRight_eq_div_pow]; omega⟩

theorem lowNibble_val (b : UInt8) : (lowNibble b).val = b.toNat % 16 := by
  show (b &&& 0x0F).toNat = _
  rw [UInt8.toNat_and]
  exact Nat.and_two_pow_sub_one_eq_mod b.toNat 4

theorem highNibble_val (b : UInt8) : (highNibble b).val = b.toNat / 16 := by
  show (b >>> 4).toNat = _
  simp [Nat.shiftRight_eq_div_pow]

/-- A byte is its two halves. -/
theorem eq_of_nibbles_eq {a b : UInt8} (hl : lowNibble a = lowNibble b) (hh : highNibble a = highNibble b) : a = b := by
  have hl' := congrArg Fin.val hl
  have hh' := congrArg Fin.val hh
  rw [lowNibble_val, lowNibble_val] at hl'
  rw [highNibble_val, highNibble_val] at hh'
  apply UInt8.toNat_inj.mp
  omega

namespace Uint256

attribute [simp] length_data

def zero : Uint256 := ⟨List.replicate 32 0, rfl⟩

instance : Zero Uint256 := ⟨zero⟩

instance : Inhabited Uint256 := ⟨zero⟩

theorem data_injective : Function.Injective data := by
  rintro ⟨a, _⟩ ⟨b, _⟩ h
  cases h
  rfl

/-- `from_slice`: exactly 32 bytes make an identifier. -/
def fromSlice (l : List UInt8) : Option Uint256 :=
  if h : l.length = 32 then some ⟨l, h⟩ else none

variable (x : Uint256) {a b : Uint256}

theorem fromSlice_data : fromSlice x.data = some x := dif_pos x.length_data

theorem data_of_fromSlice {x : Uint256} (h : fromSlice l = some x) : x.data = l := by
  unfold fromSlice at h
  split at h
  · cases h
    rfl
  · cases h

theorem fromSlice_isSome (h : l.length = 32) : ∃ x, fromSlice l = some x :=
  ⟨⟨l, h⟩, dif_pos h⟩

/-- Byte `i`, for an index of the array. -/
theorem getElem?_data (h : i < 32) : x.data[i]? = some (x.data.getD i 0) := by
  rw [getD_eq_getElem?_getD, getElem?_eq_getElem (by simpa using h)]
  rfl

/-- Two identifiers with the same bytes are the same. -/
theorem ext_byte (h : ∀ i < 32, a.data.getD i 0 = b.data.getD i 0) : a = b := by
  refine data_injective (ext_getElem? fun i => ?_)
  by_cases hi : i < 32
  · rw [getElem?_data a hi, getElem?_data b hi, h i hi]
  · rw [getElem?_eq_none (by simpa using hi), getElem?_eq_none (by simpa using hi)]

/-- `a & b`. -/
def and (a b : Uint256) : Uint256 := ⟨List.zipWith (· &&& ·) a.data b.data, by simp⟩

instance : AndOp Uint256 := ⟨and⟩

theorem getD_and (a b : Uint256) (i : ℕ) (h : i < 32) :
    (a &&& b).data.getD i 0 = a.data.getD i 0 &&& b.data.getD i 0 := by
  show (zipWith (· &&& ·) a.data b.data).getD i 0 = _
  rw [getD_eq_getElem?_getD, getElem?_zipWith, getElem?_data a h, getElem?_data b h]
  rfl

/-- Identifiers are compared byte by byte, as arrays are. -/
instance : LinearOrder Uint256 :=
  LinearOrder.lift' (fun x => x.data.map UInt8.toNat) fun _ _ h =>
    data_injective (List.map_injective_iff.mpr (fun _ _ h => UInt8.toNat_inj.mp h) h)

instance : Std.LawfulEqOrd Uint256 := ⟨fun h => compare_eq_iff_eq.mp h⟩

/-- The identifier with one byte and zeros after it. -/
def ofFirst (b : UInt8) : Uint256 := ⟨b :: List.replicate 31 0, rfl⟩

instance neZeroSixteen : NeZero 16 := ⟨by decide⟩

/-- Half byte `i` of an identifier, `0` past the last. -/
def nibble (i : ℕ) : Fin 16 :=
  match x.data[i / 2]? with
  | none => 0
  | some b => if i % 2 = 1 then lowNibble b else highNibble b

/-- The half bytes determine an identifier. -/
theorem ext_nibble (h : ∀ i < 64, a.nibble i = b.nibble i) : a = b := by
  refine ext_byte fun i hi => ?_
  have hh := h (2 * i) (by omega)
  have hl := h (2 * i + 1) (by omega)
  have hd0 : 2 * i / 2 = i := by omega
  have hd : (2 * i + 1) / 2 = i := by omega
  have hm : (2 * i + 1) % 2 = 1 := by omega
  simp only [nibble, hd0, hd, hm, getElem?_data _ hi, if_true] at hh hl
  rw [if_neg (by omega), if_neg (by omega)] at hh
  exact eq_of_nibbles_eq hl hh

/-- A half byte of an identifier is half of a byte. -/
theorem nibble_eq (h : i < 64) :
    (x.nibble i).val = if i % 2 = 1 then (x.data.getD (i / 2) 0).toNat % 16 else (x.data.getD (i / 2) 0).toNat / 16 := by
  simp only [nibble, getElem?_data x (show i / 2 < 32 by omega)]
  split
  · exact lowNibble_val _
  · exact highNibble_val _

/-- A byte is its two half bytes. -/
theorem toNat_byte (h : j < 32) :
    (x.data.getD j 0).toNat = (x.nibble (2 * j)).val * 16 + (x.nibble (2 * j + 1)).val := by
  rw [nibble_eq x (show 2 * j < 64 by omega), nibble_eq x (show 2 * j + 1 < 64 by omega), if_neg (by omega),
    if_pos (by omega), show 2 * j / 2 = j by omega, show (2 * j + 1) / 2 = j by omega]
  omega

/-- An identifier with a smaller byte after the same bytes is smaller. -/
theorem lt_of_byte (hj : j < 32) (he : ∀ i < j, a.data.getD i 0 = b.data.getD i 0)
    (hl : (a.data.getD j 0).toNat < (b.data.getD j 0).toNat) : a < b := by
  show a.data.map UInt8.toNat < b.data.map UInt8.toNat
  have hg : ∀ (x : Uint256) (i : ℕ) (hi : i < (x.data.map UInt8.toNat).length),
      (x.data.map UInt8.toNat)[i] = (x.data.getD i 0).toNat := by
    intro x i hi
    rw [List.getElem_map, List.getD_eq_getElem?_getD, List.getElem?_eq_getElem (by simpa using hi)]
    rfl
  refine List.lt_iff_exists.mpr (.inr ⟨j, by simpa using hj, by simpa using hj, fun i hi => ?_, ?_⟩)
  · rw [hg, hg, he i hi]
  · rw [hg, hg]
    exact hl

/-- **Identifiers are compared by their first different half byte.** -/
theorem lt_of_nibble {d : ℕ} (he : ∀ i < d, a.nibble i = b.nibble i) (hl : a.nibble d < b.nibble d) : a < b := by
  have hd : d < 64 := by
    by_contra hd
    have hn : b.data[d / 2]? = none := List.getElem?_eq_none (by rw [b.length_data]; omega)
    have hz : b.nibble d = 0 := by rw [nibble, hn]
    rw [hz] at hl
    exact absurd hl (Fin.not_lt_zero _)
  refine lt_of_byte (j := d / 2) (by omega) (fun i hi => ?_) ?_
  · apply UInt8.toNat_inj.mp
    rw [toNat_byte a (by omega), toNat_byte b (by omega), he (2 * i) (by omega), he (2 * i + 1) (by omega)]
  · rw [toNat_byte a (by omega), toNat_byte b (by omega)]
    rcases Nat.mod_two_eq_zero_or_one d with h0 | h1
    · have h2 : 2 * (d / 2) = d := by omega
      rw [h2]
      omega
    · have h2 : 2 * (d / 2) + 1 = d := by omega
      rw [h2, he (2 * (d / 2)) (by omega)]
      omega

end Uint256

/-- A hash of a node of a map. -/
abbrev SHAMapHash := Uint256

/-- A function to hash bytes with. -/
abbrev Sha := List UInt8 → Uint256

end Xrpld
