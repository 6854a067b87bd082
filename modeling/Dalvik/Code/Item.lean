import Dalvik.Code.Handlers
import Dalvik.Code.Header
import Dalvik.Instruction.Decode
import Dalvik.Instruction.Encode
import Dalvik.Section

/-!
# Code items

The code of a method as a file stores it: the counts, the instructions and the try blocks. Debug
events are stored elsewhere; a standard item says where.
-/
namespace Dalvik

structure CodeItem where
  registers : UInt16
  incoming : UInt16
  outgoing : UInt16
  debugOffset : UInt32
  instructions : List Instruction
  tries : List TryBlock
  deriving DecidableEq

namespace CodeItem

def alignment (compact : Bool) : Nat := if compact then 2 else 4

/-- The counts of the item with the given blocks. -/
def header (i : CodeItem) (tries : List TryBlock) : Result CodeHeader := do
  if 0xffff < tries.length then Result.violation (.tooManyTries tries.length)
  let units := Instruction.unitsOf i.instructions
  if 0xffffffff < units then Result.violation (.tooManyUnits units)
  return {
    registers := i.registers
    incoming := i.incoming
    outgoing := i.outgoing
    tries := tries.length
    units := UInt32.ofNat units
    debugOffset := i.debugOffset }

/-- What stands before the instructions: the units before the header and the header. -/
def encodeHeader (compact : Bool) (position : Nat) (i : CodeItem) (tries : List TryBlock) :
    Result (Bytes × Bytes) := do
  let h ← i.header tries
  if compact then h.encodeCompact position (i.instructions.any Instruction.isPayload)
  else return ([], h.encode)

/-- The item behind the padding that it needs at `position`. -/
def encode (compact : Bool) (table : OpcodeTable) (r : Resolver) (position : Nat)
    (i : CodeItem) : Result Placed := do
  let pad := padding position (alignment compact)
  let tries ← TryBlock.sorted i.tries
  let (front, header) ← i.encodeHeader compact (position + pad.length) tries
  let head := pad ++ front ++ header
  let code ← Instruction.encodeAll table r (position + head.length) i.instructions
  let expected := 2 * Instruction.unitsOf i.instructions
  if code.length ≠ expected then Result.violation (.writtenUnits expected code.length)
  let blocks ← TryBlock.encodeAll r tries
  let gap := if tries.isEmpty then []
    else padding (position + head.length + code.length) TryBlock.alignment
  return ⟨head ++ code ++ gap ++ blocks, position + pad.length + front.length⟩

/-- The item at the cursor. -/
def decode (compact : Bool) (table : OpcodeTable) (s : Source) : Decoder CodeItem := do
  let start ← Decoder.position
  let h ← if compact then CodeHeader.decodeCompact else CodeHeader.decode
  let instructions ← Instruction.decodeAll table s h.units.toNat
  return {
    registers := h.registers
    incoming := h.incoming
    outgoing := h.outgoing
    debugOffset := h.debugOffset
    instructions
    tries := ← TryBlock.decodeAll s start h.tries }

/-- The code with its debug events. -/
def toCode (i : CodeItem) (debug : List DebugItem) : Code :=
  ⟨i.registers, i.instructions, i.tries, debug⟩

end CodeItem

end Dalvik
