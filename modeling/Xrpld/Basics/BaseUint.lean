import Mathlib

/-!
# Identifiers of a fixed width

`BaseUInt<BYTES>` of `xrpl/basics/base_uint.rs`: an array of bytes, the most significant first. The
width is a parameter, so that a value of another width cannot be built.
-/

namespace Xrpld

structure BaseUint (n : ℕ) where
  /-- `data()`. -/
  data : List UInt8
  length_data : data.length = n
  deriving DecidableEq

namespace BaseUint

variable {n : ℕ}

attribute [simp] length_data

@[ext] theorem ext {a b : BaseUint n} (h : a.data = b.data) : a = b := by
  cases a
  cases b
  subst h
  rfl

/-- Identifiers are compared byte by byte, as arrays are. -/
instance : LinearOrder (BaseUint n) :=
  LinearOrder.lift' (fun x => x.data.map UInt8.toNat) fun _ _ h =>
    ext (List.map_injective_iff.mpr (fun _ _ h => UInt8.toNat_inj.mp h) h)

/-- `zero()`, which is also `default()`. -/
def zero : BaseUint n := ⟨List.replicate n 0, List.length_replicate⟩

/-- The identifier with the same byte throughout. -/
def filled (b : UInt8) : BaseUint n := ⟨List.replicate n b, List.length_replicate⟩

def isZero (a : BaseUint n) : Bool := a.data.all (· == 0)

def fromSlice (n : ℕ) (bytes : List UInt8) : Option (BaseUint n) :=
  if h : bytes.length = n then some ⟨bytes, h⟩ else none

end BaseUint

end Xrpld
