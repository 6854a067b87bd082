import Dalvik.Leb128
import Dalvik.Pools

/-!
# The table of debug information

Compact files say for every method where its debug information is. Methods are taken in blocks; a
block holds a bit for each of its methods, then the offsets of those that have some, each as the
difference to the one before. An index in front of the blocks says where each of them is.
-/
namespace Dalvik.DebugTable

/-- How many methods a block is for. -/
def blockSize : Nat := 16

/-- The least offset, from which the first difference in a block counts. -/
def base (offsets : List UInt32) : UInt32 :=
  let present := offsets.filter (· != 0)
  present.foldl min (present.headD 0)

/-- The offsets in blocks; `count` is at least the number of blocks. -/
def blocks : (count : Nat) → List UInt32 → List (List UInt32)
  | 0, _ => []
  | _ + 1, [] => []
  | count + 1, offsets => offsets.take blockSize :: blocks count (offsets.drop blockSize)

/-- A bit for each method that has an offset, the lowest one for the first. -/
def mask : List UInt32 → Nat
  | [] => 0
  | offset :: rest => (if offset = 0 then 0 else 1) + 2 * mask rest

/-- The offsets that are present as differences. -/
def differences (previous : UInt32) : List UInt32 → Bytes
  | [] => []
  | offset :: rest =>
    if offset = 0 then differences previous rest
    else Bytes.uleb (offset - previous) ++ differences offset rest

/-- The bits, high byte first, and the differences. -/
def encodeBlock (base : UInt32) (block : List UInt32) : Bytes :=
  let bits := mask block
  (bits / 256).toUInt8 :: bits.toUInt8 :: differences base block

/-- Where parts that follow each other from `next` on begin. -/
def starts (next : Nat) : List Bytes → List UInt32
  | [] => []
  | part :: rest => UInt32.ofNat next :: starts (next + part.length) rest

/-- The index and the blocks. -/
def encode (offsets : List UInt32) : Bytes :=
  let parts := (blocks offsets.length offsets).map (encodeBlock (base offsets))
  (starts (4 * parts.length) parts).flatMap Bytes.u4 ++ parts.flatten

/-- The sum of the next `count` differences and `offset`. -/
def accumulate (offset : UInt32) : (count : Nat) → Decoder UInt32
  | 0 => return offset
  | count + 1 => do accumulate (offset + (← Decoder.uleb)) count

/-- The number of bits that are set among the lowest `count`. -/
def bitsBelow (bits count : Nat) : Nat := (List.range count).countP bits.testBit

/-- The offset for a method out of `methods`, 0 if it has none, from the table at `table` with its
index `index` bytes behind that. -/
def lookup (table index : Nat) (base : UInt32) (methods : Nat) (method : UInt32) :
    Decoder UInt32 := do
  if table = 0 then return 0
  let size := (methods + blockSize - 1) / blockSize
  let block ← checkIndex "debug info table" (method / UInt32.ofNat blockSize) size
  let bit := method.toNat % blockSize
  Decoder.seek (table + index + block * 4)
  let start := (← Decoder.u4).toNat
  Decoder.seek (table + start)
  let high := (← Decoder.u1).toNat
  let bits := high * 256 + (← Decoder.u1).toNat
  if bits.testBit bit then accumulate base (bitsBelow bits bit + 1) else return 0

end Dalvik.DebugTable
