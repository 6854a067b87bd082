import Dalvik.Access
import Dalvik.Bytes

/-!
# Decoders

A decoder reads bytes at a cursor. It gives a value with the cursor after it, or an error with the
cursor where the read that failed began. Nothing else is kept, so what a decoder gives depends on
the bytes and the position alone.
-/
namespace Dalvik

abbrev Decoder (α : Type) := ReaderT ByteArray (EStateM Error Nat) α

namespace Decoder
variable {α : Type}

/-- The outcome at position `index` of `bytes` together with the cursor it leaves. -/
def runAt (d : Decoder α) (bytes : ByteArray) (index : Nat) : Result α × Nat :=
  match d bytes index with
  | .ok value after => (.ok value, after)
  | .error e after => (.error e, after)

/-- The value at position `index` of `bytes` and the position after it. -/
def decodeAt (d : Decoder α) (bytes : ByteArray) (index : Nat) : Result (α × Nat) :=
  match d bytes index with
  | .ok value after => .ok (value, after)
  | .error e _ => .error e

/-- The value at position `index` of `bytes`. -/
def valueAt (d : Decoder α) (bytes : ByteArray) (index : Nat) : Result α :=
  match d bytes index with
  | .ok value _ => .ok value
  | .error e _ => .error e

def ofResult (r : Result α) : Decoder α := fun _ index =>
  match r with
  | .ok value => .ok value index
  | .error e => .error e index

instance : MonadLift (Except Error) Decoder := ⟨ofResult⟩

def fail (reason : Malformed) : Decoder α := ofResult (Result.malformed reason)

/-- The cursor. -/
def position : Decoder Nat := fun _ index => .ok index index

def seek (index : Nat) : Decoder Unit := fun _ _ => .ok () index

/-- All the bytes that are being read. -/
def input : Decoder ByteArray := fun bytes index => .ok bytes index

/-- The number of bytes from the cursor to the end. -/
def available : Decoder Nat := fun bytes index => .ok (bytes.size - index) index

/-- Names the place in which a failing decoder failed. -/
@[macro_inline] def within (place : String) (d : Decoder α) : Decoder α := fun bytes index =>
  match d bytes index with
  | .ok value after => .ok value after
  | .error e after => .error (e.within place) after

/-- Runs a decoder on the slice of the bytes before position `limit`. -/
def upTo (limit : Nat) (d : Decoder α) : Decoder α := fun bytes index =>
  match Access.slice bytes 0 limit with
  | .ok part => d part index
  | .error e => .error e index

/-- `count` values in a row. -/
def repeated (d : Decoder α) (count : Nat) : Decoder (List α) :=
  go count []
where
  go : Nat → List α → Decoder (List α)
  | 0, acc => pure acc.reverse
  | n + 1, acc => do
    let a ← d
    go n (a :: acc)

/-! ## Words -/

def u1 : Decoder UInt8 := do
  let bytes ← input
  let index ← position
  if bytes.size < index + 1 then fail (.wordPastEnd 1 index)
  let b ← Access.byte bytes index
  seek (index + 1)
  return b

def u2 : Decoder UInt16 := do
  let bytes ← input
  let index ← position
  if bytes.size < index + 2 then fail (.wordPastEnd 2 index)
  let b1 ← Access.byte bytes (index + 1)
  let b0 ← Access.byte bytes index
  seek (index + 2)
  return Bytes.toWord16 b0 b1

def u4 : Decoder UInt32 := do
  let bytes ← input
  let index ← position
  if bytes.size < index + 4 then fail (.wordPastEnd 4 index)
  let b3 ← Access.byte bytes (index + 3)
  let b2 ← Access.byte bytes (index + 2)
  let b1 ← Access.byte bytes (index + 1)
  let b0 ← Access.byte bytes index
  seek (index + 4)
  return Bytes.toWord32 b0 b1 b2 b3

/-- A word of eight bytes is read as two of four; if the second is missing the first is consumed. -/
def u8 : Decoder UInt64 := do
  let low ← u4
  let high ← u4
  pure (Bytes.toWord64 low high)

/-- `length` bytes as they are. -/
def raw (length : Nat) : Decoder Bytes := do
  let bytes ← input
  let index ← position
  if bytes.size < index + length then fail (.rawPastEnd length index)
  let part ← Access.slice bytes index (index + length)
  seek (index + length)
  return part.toList

end Decoder

/-- The bytes `part` lie at position `index` of `bytes`. -/
def Bytes.Stands (part : Bytes) (bytes : ByteArray) (index : Nat) : Prop :=
  part <+: bytes.data.toList.drop index

end Dalvik
