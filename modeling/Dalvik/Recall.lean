import Dalvik.AnnotationItem
import Std.Data.DHashMap

/-!
# Reading with a memory

What has been read once is kept: the entries of the pools by their indices, the lists of types and
the sets of annotations by their offsets. A reading looks there before it turns to the bytes and
adds what it has found. A reading that fails adds nothing for what it was asked, but what it found
on its way there stays.
-/
namespace Dalvik

/-- What can be kept. -/
inductive Key where
  | string (index : UInt32)
  | type (index : UInt32)
  | proto (index : UInt32)
  | field (index : UInt32)
  | method (index : UInt32)
  | methodHandle (index : UInt32)
  | callSite (index : UInt32)
  | typeList (offset : UInt32)
  | annotationSet (offset : UInt32)
  deriving DecidableEq, Hashable, Repr

/-- The type of what is kept for a key. -/
def Key.Value : Key → Type
  | string _ => String
  | type _ => TypeId
  | proto _ => ProtoId
  | field _ => FieldId
  | method _ => MethodId
  | methodHandle _ => MethodHandle
  | callSite _ => CallSite
  | typeList _ => List TypeId
  | annotationSet _ => List AnnotationItem

/-- What has been found so far. -/
abbrev Memory := Std.DHashMap Key Key.Value

/-- A result that is found with the help of the memory, which stays also if there is none. -/
abbrev Recall := ExceptT Error (StateM Memory)

namespace Recall
variable {α : Type}

/-- The value that is kept for the key. If there is none yet it is found by `find`, and kept. -/
def remembered (key : Key) (find : Recall key.Value) : Recall key.Value := do
  match (← get).get? key with
  | some value => return value
  | none =>
    let value ← find
    modify (·.insert key value)
    return value

/-- Names the place in which a failing reading failed. -/
def within (place : String) (x : Recall α) : Recall α :=
  ExceptT.mk (Result.within place <$> x.run)

end Recall

/-- Gives the value at an index with the help of the memory. -/
structure RecallSource where
  string : UInt32 → Recall String
  type : UInt32 → Recall TypeId
  proto : UInt32 → Recall ProtoId
  field : UInt32 → Recall FieldId
  method : UInt32 → Recall MethodId
  methodHandle : UInt32 → Recall MethodHandle
  callSite : UInt32 → Recall CallSite

/-! ## Decoders -/

/-- Reads bytes at a cursor with the help of the memory. -/
abbrev RecallDecoder := ReaderT ByteArray (StateT Nat Recall)

namespace RecallDecoder
variable {α : Type}

/-- A decoder that needs no memory. -/
def ofDecoder (d : Decoder α) : RecallDecoder α := fun bytes index =>
  (liftM (d.decodeAt bytes index) : Recall (α × Nat))

instance : MonadLift Decoder RecallDecoder := ⟨ofDecoder⟩

/-- The value at position `index` of `bytes`. -/
def valueAt (d : RecallDecoder α) (bytes : ByteArray) (index : Nat) : Recall α := do
  return (← d bytes index).1

/-- Names the place in which a failing decoder failed. -/
def within (place : String) (d : RecallDecoder α) : RecallDecoder α := fun bytes index =>
  Recall.within place (d bytes index)

/-- Runs a decoder on the slice of the bytes before position `limit`. -/
def upTo (limit : Nat) (d : RecallDecoder α) : RecallDecoder α := fun bytes index => do
  let part ← Access.slice bytes 0 limit
  d part index

/-- `count` values in a row. -/
def repeated (d : RecallDecoder α) (count : Nat) : RecallDecoder (List α) :=
  go count []
where
  go : Nat → List α → RecallDecoder (List α)
  | 0, found => pure found.reverse
  | n + 1, found => do
    let a ← d
    go n (a :: found)

end RecallDecoder

end Dalvik
