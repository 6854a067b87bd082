import Dalvik.Code.Item
import Dalvik.Debug.Decode
import Dalvik.Recall.Value

/-!
# Code with a memory

Instructions, try blocks and debug information are read as without a memory; the entries of the
pools that they refer to are looked up with its help.
-/
namespace Dalvik.RecallSource
variable (s : RecallSource)

/-! ## Instructions -/

/-- The value at an index into the pool of the given kind. -/
def resolve (kind : ReferenceKind) (index : UInt32) : Recall Reference :=
  match kind with
  | .none => Result.malformed (.noReference index.toNat)
  | .string => return .string (← s.string index)
  | .type => return .type (← s.type index)
  | .field => return .field (← s.field index)
  | .method => return .method (← s.method index)
  | .proto => return .proto (← s.proto index)
  | .callSite => return .callSite (← s.callSite index)
  | .methodHandle => return .methodHandle (← s.methodHandle index)
  | .raw => return .raw index

/-- The operands of an instruction behind its first unit, which held `argument`. Where the format
holds no reference, nothing is asked of a source. -/
def decodeOperands (o : Opcode) (argument : Nat) : RecallDecoder Operands :=
  let a := (argument % 16).toUInt8
  let b := (argument / 16).toUInt8
  let aa := argument.toUInt8
  let indexUnit : Decoder UInt32 := return UInt32.ofNat (← Instruction.unit)
  match o.format with
  | .f21c => return .f21c aa (← s.resolve o.reference (← indexUnit))
  | .f22c => return .f22c a b (← s.resolve o.reference (← indexUnit))
  | .f31c => return .f31c aa (← s.resolve o.reference (← Instruction.unitPair))
  | .f35c => do
    let index ← indexUnit
    let fedc ← Instruction.unit
    let registers ← Instruction.unpackRegisters o (argument / 16) (argument % 16) fedc
    return .f35c registers (← s.resolve o.reference index)
  | .f3rc => do
    let index ← indexUnit
    let start ← Decoder.u2
    return .f3rc start aa (← s.resolve o.reference index)
  | .f45cc => do
    let index ← indexUnit
    let fedc ← Instruction.unit
    let index2 ← indexUnit
    let registers ← Instruction.unpackRegisters o (argument / 16) (argument % 16) fedc
    let reference ← s.resolve o.reference index
    return .f45cc registers reference (← s.resolve o.reference2 index2)
  | .f4rcc => do
    let index ← indexUnit
    let start ← Decoder.u2
    let index2 ← indexUnit
    let reference ← s.resolve o.reference index
    return .f4rcc start aa reference (← s.resolve o.reference2 index2)
  | _ => Instruction.decodeOperands ({} : Pools).source o argument

/-- The instruction at the cursor. -/
def decodeInstruction (table : OpcodeTable) : RecallDecoder Instruction := do
  let first ← Instruction.unit
  let isTable := first % 256 = 0
  let opcode ← table.opcode (if isTable then first else first % 256).toUInt16
  return ⟨opcode, ← s.decodeOperands opcode (if isTable then 0 else first / 256)⟩

/-- Instructions from the cursor on that begin before `limit`, at most `room` of them. -/
def decodeUpTo (table : OpcodeTable) (start limit : Nat) :
    (room : Nat) → List Instruction → RecallDecoder (List Instruction)
  | 0, found => pure found.reverse
  | room + 1, found => do
    let position ← Decoder.position
    if limit ≤ position then pure found.reverse
    else
      let i ← (s.decodeInstruction table).within s!"instruction at unit {(position - start) / 2}"
      decodeUpTo table start limit room (i :: found)

/-- The instructions that take exactly `count` code units. -/
def decodeInstructions (table : OpcodeTable) (count : Nat) :
    RecallDecoder (List Instruction) := do
  let start ← Decoder.position
  let limit := start + 2 * count
  if (← Decoder.input).size < limit then Decoder.fail (.instructionsPastEnd start)
  let instructions ← (s.decodeUpTo table start limit count []).upTo limit
  let after ← Decoder.position
  if after ≠ limit then Decoder.fail (.unitCount ((after - start) / 2) count)
  return instructions

/-! ## Try blocks -/

def decodeHandler : RecallDecoder CatchHandler := do
  let size ← Decoder.sleb
  let count := size.toInt.natAbs
  if (← Decoder.available) < count then Decoder.fail (.handlerSize count)
  let handler : RecallDecoder ExceptionHandler := do
    let type ← s.type (← Decoder.uleb)
    return ⟨type, ← Decoder.uleb⟩
  let handlers ← handler.repeated count
  if size ≤ 0 then return ⟨handlers, some (← Decoder.uleb)⟩
  return ⟨handlers, none⟩

/-- `count` handlers from the cursor on with their offsets from `base`. -/
def decodeHandlers (base count : Nat) : RecallDecoder (List (Nat × CatchHandler)) :=
  RecallDecoder.repeated (do return ((← Decoder.position) - base, ← s.decodeHandler)) count

/-- The blocks whose table is at the cursor, for a code item at `item`. -/
def decodeTries (item count : Nat) : RecallDecoder (List TryBlock) := do
  if count = 0 then return []
  let table := alignUp (← Decoder.position) TryBlock.alignment
  let base := table + count * TryBlock.size
  Decoder.seek base
  let handlerCount := (← Decoder.uleb).toNat
  if (← Decoder.available) < handlerCount then
    Decoder.fail (.handlerListSize item handlerCount)
  let handlers ← s.decodeHandlers base handlerCount
  let after ← Decoder.position
  Decoder.seek table
  let tries ← (TryBlock.decode handlers).repeated count
  Decoder.seek after
  return tries

/-! ## Code items -/

/-- The code item at the cursor. -/
def decodeCode (compact : Bool) (table : OpcodeTable) : RecallDecoder CodeItem := do
  let start ← Decoder.position
  let h ← if compact then CodeHeader.decodeCompact else CodeHeader.decode
  let instructions ← s.decodeInstructions table h.units.toNat
  return {
    registers := h.registers
    incoming := h.incoming
    outgoing := h.outgoing
    debugOffset := h.debugOffset
    instructions
    tries := ← s.decodeTries start h.tries }

/-! ## Debug information -/

/-- A name by its index, absent if that is negative. -/
def optionalAt {α : Type} (fetch : UInt32 → Recall α) (index : Int32) : Recall (Option α) :=
  if index < 0 then return none else return some (← fetch index.toUInt32)

/-- The events that one instruction reports, and the machine after it. -/
def step (m : DebugItem.Machine) (op : UInt8) :
    RecallDecoder (List DebugItem × DebugItem.Machine) := do
  let optionalString : RecallDecoder (Option String) := do
    optionalAt s.string (← Decoder.ulebPlusOne)
  match op.toNat with
  | 0x01 => return ([], { m with gap := m.gap + (← Decoder.uleb) })
  | 0x02 => return ([], { m with line := m.line + (← Decoder.sleb) })
  | 0x03 => do
    let register ← Decoder.uleb
    let name ← optionalString
    let type ← optionalAt s.type (← Decoder.ulebPlusOne)
    return m.report (.startLocal register name type none)
  | 0x04 => do
    let register ← Decoder.uleb
    let name ← optionalString
    let type ← optionalAt s.type (← Decoder.ulebPlusOne)
    return m.report (.startLocal register name type (← optionalString))
  | 0x05 => return m.report (.endLocal (← Decoder.uleb))
  | 0x06 => return m.report (.restartLocal (← Decoder.uleb))
  | 0x07 => return m.report .prologueEnd
  | 0x08 => return m.report .epilogueBegin
  | 0x09 => return m.report (.setFile (← optionalString))
  | _ => return m.special op

/-- Runs the machine to the end of its program, which has at most `room` instructions. -/
def run : (room : Nat) → DebugItem.Machine → List DebugItem → RecallDecoder (List DebugItem)
  | 0, _, found => return found.reverse
  | room + 1, m, found => do
    let op ← Decoder.u1
    if op = DebugOp.endSequence then return found.reverse
    let (items, m) ← s.step m op
    run room m (items.reverse ++ found)

/-- The events of the program at the cursor. -/
def decodeItems (lineStart : Int32) : RecallDecoder (List DebugItem) := do
  s.run ((← Decoder.available) + 1) { line := lineStart } []

def decodeDebug : RecallDecoder DebugInfo := do
  let start ← Decoder.position
  let lineStart := (← Decoder.uleb).toInt32
  let count := (← Decoder.uleb).toNat
  if (← Decoder.available) < count then Decoder.fail (.debugParameters start count)
  let name : RecallDecoder (Option String) := do
    optionalAt s.string (← Decoder.ulebPlusOne)
  let parameters ← name.repeated count
  return ⟨parameters, ← s.decodeItems lineStart⟩

end Dalvik.RecallSource
