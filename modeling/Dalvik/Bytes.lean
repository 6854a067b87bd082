/-!
# Words in bytes

Everything is stored with the low byte first. Encoders give the bytes they stand for as a list, so
that the encoding of a whole is the concatenation of the encodings of its parts; `Stands` says that
such a list lies at a position of a longer sequence.
-/
namespace Dalvik

abbrev Bytes := List UInt8

namespace Bytes

def u1 (value : UInt8) : Bytes := [value]

def u2 (value : UInt16) : Bytes := [value.toUInt8, (value >>> 8).toUInt8]

def u4 (value : UInt32) : Bytes :=
  [value.toUInt8, (value >>> 8).toUInt8, (value >>> 16).toUInt8, (value >>> 24).toUInt8]

def u8 (value : UInt64) : Bytes := u4 value.toUInt32 ++ u4 (value >>> 32).toUInt32

@[simp] theorem length_u1 (v : UInt8) : (u1 v).length = 1 := rfl

@[simp] theorem length_u2 (v : UInt16) : (u2 v).length = 2 := rfl

@[simp] theorem length_u4 (v : UInt32) : (u4 v).length = 4 := rfl

@[simp] theorem length_u8 (v : UInt64) : (u8 v).length = 8 := rfl

/-- Adds a part to a buffer, and counts it. -/
def put (part : Bytes) : StateM Bytes Nat := fun buffer => (part.length, buffer ++ part)

/-- The bytes with `part` in place of what stood at `position`. -/
def overwrite (bytes : Bytes) (position : Nat) (part : Bytes) : Bytes :=
  bytes.take position ++ part ++ bytes.drop (position + part.length)

/-- The word whose bytes these are. -/
def toWord16 (b0 b1 : UInt8) : UInt16 := b0.toUInt16 ||| b1.toUInt16 <<< 8

def toWord32 (b0 b1 b2 b3 : UInt8) : UInt32 :=
  b0.toUInt32 ||| b1.toUInt32 <<< 8 ||| b2.toUInt32 <<< 16 ||| b3.toUInt32 <<< 24

def toWord64 (low high : UInt32) : UInt64 := low.toUInt64 ||| high.toUInt64 <<< 32

end Bytes

/-- The least multiple of `alignment`, a power of two, that is not below `value`. -/
def alignUp (value alignment : Nat) : Nat :=
  let mask := alignment - 1
  value + mask - (value + mask &&& mask)

/-- The zeros that bring position `value` to a multiple of `alignment`. -/
def padding (value alignment : Nat) : Bytes :=
  List.replicate (alignUp value alignment - value) 0

theorem le_alignUp (value alignment : Nat) : value ≤ alignUp value alignment := by
  have : value + (alignment - 1) &&& alignment - 1 ≤ alignment - 1 := Nat.and_le_right
  simp only [alignUp]
  omega

theorem alignUp_le (value alignment : Nat) : alignUp value alignment ≤ value + (alignment - 1) :=
  Nat.sub_le _ _

theorem length_padding (value alignment : Nat) :
    value + (padding value alignment).length = alignUp value alignment := by
  have := le_alignUp value alignment
  simp only [padding, List.length_replicate]
  omega

end Dalvik
