import Dalvik.Arithmetic
import Dalvik.Debug
import Dalvik.Leb128
import Dalvik.Pools

/-!
# Writing debug information

Events become instructions of a small machine with two registers, the address in the code and the
line in the source. Only a special instruction makes a position: it adds to both registers and
records them. Advances are collected until an event needs them.
-/
namespace Dalvik
namespace DebugOp

def endSequence : UInt8 := 0x00
def advanceAddress : UInt8 := 0x01
def advanceLine : UInt8 := 0x02
def startLocal : UInt8 := 0x03
def startLocalExtended : UInt8 := 0x04
def endLocal : UInt8 := 0x05
def restartLocal : UInt8 := 0x06
def prologueEnd : UInt8 := 0x07
def epilogueBegin : UInt8 := 0x08
def setFile : UInt8 := 0x09

/-- From here on all instructions are special ones. -/
def firstSpecial : UInt8 := 0x0a

def lastSpecial : UInt8 := 0xff

/-- The least line step of a special instruction. -/
def lineBase : Int := -4

/-- How many line steps the special instructions have. -/
def lineRange : Int := 15

/-- An index that may be absent is stored plus one. -/
def optionalIndex : Option UInt32 → Bytes
  | some index => Bytes.uleb (index + 1)
  | none => Bytes.uleb 0

/-- The move of the address by `gap` code units, if it is one. -/
def advance (gap : Nat) : Bytes :=
  if gap = 0 then [] else advanceAddress :: Bytes.uleb (UInt32.ofNat gap)

/-- The parts of a step that a special instruction leaves over, and the instruction. -/
structure Step where
  address : Nat
  line : Int
  special : UInt8
  deriving DecidableEq, Repr

/-- Splits a step so that its special instruction covers as much of it as one can. -/
def split (address : Nat) (line : Int) : Step :=
  let adjusted := max lineBase (min line (lineBase + lineRange - 1)) - lineBase
  let most := (lastSpecial.toNat - firstSpecial.toNat - adjusted.toNat) / lineRange.toNat
  let covered := min most address
  { address := address - covered
    line := line - (adjusted + lineBase)
    special := UInt8.ofNat (adjusted.toNat + covered * lineRange.toNat + firstSpecial.toNat) }

def Step.encode (s : Step) : Bytes :=
  advance s.address ++
    (if s.line = 0 then [] else advanceLine :: Bytes.sleb (Int32.ofInt s.line)) ++ [s.special]

end DebugOp

namespace DebugItem
open DebugOp

/-- How far writing has come. -/
structure Progress where
  /-- The code units that the address has still to be moved by. -/
  gap : Nat := 0
  /-- The line of the last position, 0 before the first one. -/
  line : Int32 := 0
  /-- The line that the machine starts with. -/
  lineStart : Int32 := 1
  deriving DecidableEq, Repr

/-- The instructions for one event. A line that is the current one already needs none; the first
line that is not 0 becomes the line to start with. The step to a line may leave its word. -/
def encode (r : Resolver) (p : Progress) : DebugItem → Result (Bytes × Progress)
  | advance units => .ok ([], { p with gap := p.gap + units.toNat })
  | startLocal register name type signature => do
    let name ← name.mapM r.string
    let type ← type.mapM r.type
    let (op, extension) ← match signature with
      | some signature => pure (startLocalExtended, optionalIndex (some (← r.string signature)))
      | none => pure (DebugOp.startLocal, [])
    return (DebugOp.advance p.gap ++ op :: Bytes.uleb register ++ optionalIndex name ++
      optionalIndex type ++ extension, { p with gap := 0 })
  | endLocal register =>
    .ok (DebugOp.advance p.gap ++ DebugOp.endLocal :: Bytes.uleb register, { p with gap := 0 })
  | restartLocal register =>
    .ok (DebugOp.advance p.gap ++ DebugOp.restartLocal :: Bytes.uleb register, { p with gap := 0 })
  | prologueEnd => .ok (DebugOp.advance p.gap ++ [DebugOp.prologueEnd], { p with gap := 0 })
  | epilogueBegin => .ok (DebugOp.advance p.gap ++ [DebugOp.epilogueBegin], { p with gap := 0 })
  | setFile name => do
    let index ← name.mapM r.string
    return (DebugOp.advance p.gap ++ DebugOp.setFile :: optionalIndex index, { p with gap := 0 })
  | line number =>
    if number = p.line then .ok ([], p)
    else do
      let p := if p.line = 0 then { p with lineStart := number, line := number } else p
      let step ← Arithmetic.subtract32 number p.line
      return ((split p.gap step.toInt).encode, { p with gap := 0, line := number })

/-- The instructions for a list of events, and the line that the machine has to start with. -/
def encodeAll (r : Resolver) (p : Progress) : List DebugItem → Result (Bytes × Int32)
  | [] => .ok ([endSequence], p.lineStart)
  | item :: items => do
    let (part, p) ← item.encode r p
    let (rest, lineStart) ← encodeAll r p items
    return (part ++ rest, lineStart)

end DebugItem

/-- The line to start with, the names of the parameters, then the instructions. -/
def DebugInfo.encode (r : Resolver) (d : DebugInfo) : Result Bytes := do
  let (program, lineStart) ← DebugItem.encodeAll r {} d.items
  let names ← d.parameters.mapM fun name => return DebugOp.optionalIndex (← name.mapM r.string)
  return Bytes.uleb lineStart.toUInt32 ++ Bytes.ulebNat names.length ++ names.flatten ++ program

end Dalvik
