import Dalvik.Decoder

/-!
# LEB128 numbers

A number is cut into groups of seven bits, low group first, and every byte but the last carries a
continuation bit. Encodings are the shortest ones; decoding takes at most ten bytes. Signed numbers
extend the sign from bit 6 of the last group. Both directions work on words of 64 bits.
-/
namespace Dalvik.Leb128

/-- No number of 64 bits needs more bytes. -/
def maxLength : Nat := 10

theorem toNat_shiftRight7 (n : UInt64) : (n >>> 7).toNat = n.toNat / 128 := by
  rw [UInt64.toNat_shiftRight]
  exact Nat.shiftRight_eq_div_pow n.toNat 7

def encodeUnsigned (n : UInt64) : Bytes :=
  let low := (n &&& 0x7F).toUInt8
  if n >>> 7 = 0 then [low] else (low ||| 0x80) :: encodeUnsigned (n >>> 7)
termination_by n.toNat
decreasing_by
  rename_i h
  have hne : (n >>> 7).toNat ≠ 0 := fun heq => h (UInt64.toNat_inj.mp heq)
  rw [toNat_shiftRight7] at hne ⊢
  omega

theorem toInt_shiftRight7 (n : Int64) : (n >>> 7).toInt = n.toInt / 128 := by
  rw [← Int64.toInt_toBitVec, Int64.toBitVec_shiftRight,
    show (7 : Int64).toBitVec.smod 64 = 7#64 by decide, BitVec.toInt_sshiftRight']
  exact Int.shiftRight_eq_div_pow n.toInt 7

/-- Shifting comes to rest at 0 and -1. -/
theorem natAbs_shiftRight7_lt {n : Int64} (h0 : n ≠ 0) (h1 : n ≠ -1) :
    (n >>> 7).toInt.natAbs < n.toInt.natAbs := by
  have hzero : n.toInt ≠ 0 := fun h => h0 (Int64.toInt_inj.mp h)
  have hone : n.toInt ≠ -1 := fun h => h1 (Int64.toInt_inj.mp h)
  rw [toInt_shiftRight7]
  omega

/-- The last byte is the first one whose bit 6 agrees with all the bits above. -/
def encodeSigned (n : Int64) : Bytes :=
  let low := (n &&& 0x7F).toUInt64.toUInt8
  if n >>> 7 = 0 ∧ low &&& 0x40 = 0 ∨ n >>> 7 = -1 ∧ low &&& 0x40 ≠ 0 then [low]
  else (low ||| 0x80) :: encodeSigned (n >>> 7)
termination_by n.toInt.natAbs
decreasing_by
  rename_i h
  apply natAbs_shiftRight7_lt
  · rintro rfl
    exact h (by decide)
  · rintro rfl
    exact h (by decide)

/-- One is added to the number modulo 2^32, so that -1 takes a single zero byte. -/
def encodePlusOne (n : Int32) : Bytes := encodeUnsigned (n.toUInt32 + 1).toUInt64

/-- The seven bits of a byte that belong to the number. -/
def group (b : UInt8) : UInt64 := (b &&& 0x7F).toUInt64

def continues (b : UInt8) : Bool := b &&& 0x80 != 0

/-- The word with one more group, number `count`, above the groups in it. -/
def addGroup (count : Nat) (value : UInt64) (b : UInt8) : UInt64 :=
  value ||| group b <<< (7 * count).toUInt64

def decodeUnsignedFrom (count : Nat) (value : UInt64) : Bytes → Result (UInt64 × Nat)
  | [] =>
    Result.malformed (if count < maxLength then .lebPastEnd .unsigned else .lebTooLong .unsigned)
  | b :: rest =>
    if maxLength ≤ count then Result.malformed (.lebTooLong .unsigned)
    else if 7 * count = 63 ∧ 1 < group b then Result.malformed .lebOverflow
    else if continues b then decodeUnsignedFrom (count + 1) (addGroup count value b) rest
    else .ok (addGroup count value b, count + 1)

/-- The number at the front of the bytes, and how many bytes it takes. -/
def decodeUnsigned (bytes : Bytes) : Result (UInt64 × Nat) := decodeUnsignedFrom 0 0 bytes

/-- The word with the sign in bit 6 of its last group copied to all the bits above, if there are any. -/
def extendSign (count : Nat) (value : UInt64) (b : UInt8) : UInt64 :=
  if b &&& 0x40 ≠ 0 ∧ 7 * count < 64 then value ||| (-1) <<< (7 * count).toUInt64 else value

/-- As `decodeUnsignedFrom`, for a two's complement number that ends with its last group. -/
def decodeSignedFrom (count : Nat) (value : UInt64) : Bytes → Result (Int64 × Nat)
  | [] => Result.malformed (if count < maxLength then .lebPastEnd .signed else .lebTooLong .signed)
  | b :: rest =>
    if maxLength ≤ count then Result.malformed (.lebTooLong .signed)
    else if continues b then decodeSignedFrom (count + 1) (addGroup count value b) rest
    else .ok ((extendSign (count + 1) (addGroup count value b) b).toInt64, count + 1)

/-- The signed number at the front of the bytes, and how many bytes it takes. -/
def decodeSigned (bytes : Bytes) : Result (Int64 × Nat) := decodeSignedFrom 0 0 bytes

/-- Only the low 32 bits of the stored number count. -/
def decodePlusOne (bytes : Bytes) : Result (Int32 × Nat) := do
  let (n, size) ← decodeUnsigned bytes
  .ok ((n.toUInt32 - 1).toInt32, size)

end Dalvik.Leb128

namespace Dalvik

namespace Decoder
open Leb128

/-- The bytes from the cursor on, as far as a LEB128 number can reach. -/
def lebWindow : Decoder Bytes := fun bytes index =>
  if index ≤ bytes.size then .ok (bytes.extract index (index + maxLength)).toList index
  else fail (.pastEnd index) bytes index

def advance (size : Nat) : Decoder Unit := fun _ index => .ok () (index + size)

/-- An unsigned number that has to fit 32 bits, as every count and index does. -/
def uleb : Decoder UInt32 := do
  let (n, size) ← decodeUnsigned (← lebWindow)
  if n.toNat < UInt32.size then
    advance size
    pure n.toUInt32
  else fail (.lebTooWide .unsigned n.toNat (← position))

/-- A signed number that has to fit 32 bits. -/
def sleb : Decoder Int32 := do
  let (n, size) ← decodeSigned (← lebWindow)
  if Int32.minValue.toInt ≤ n.toInt ∧ n.toInt ≤ Int32.maxValue.toInt then
    advance size
    pure n.toInt32
  else fail (.lebTooWide .signed n.toInt (← position))

def ulebPlusOne : Decoder Int32 := do
  let (n, size) ← decodePlusOne (← lebWindow)
  advance size
  pure n

end Decoder

namespace Bytes

def uleb (n : UInt32) : Bytes := Leb128.encodeUnsigned n.toUInt64

/-- The encoding of a count. -/
def ulebNat (n : Nat) : Bytes := uleb (UInt32.ofNat n)

def sleb (n : Int32) : Bytes := Leb128.encodeSigned n.toInt64

def ulebPlusOne (n : Int32) : Bytes := Leb128.encodePlusOne n

end Bytes

end Dalvik
