import Dalvik.Instruction
import Dalvik.Packed

/-!
# Reading instructions

The first code unit of an instruction holds the number of its opcode and eight bits of operands; the
tables in the code are told apart by the whole unit. The format of the opcode decides the rest.
-/
namespace Dalvik.Instruction

/-- The number with `width` bits as a signed one. -/
def extendSign (width n : Nat) : Int32 :=
  Int32.ofInt (if n < 1 <<< (width - 1) then n else n - (1 <<< width : Nat))

/-- The value at an index into the pool of the given kind. -/
def resolve (s : Source) (kind : ReferenceKind) (index : UInt32) : Result Reference :=
  match kind with
  | .none => Result.malformed (.noReference index.toNat)
  | .string => return .string (← s.string index)
  | .type => return .type (← s.type index)
  | .field => return .field (← s.field index)
  | .method => return .method (← s.method index)
  | .proto => return .proto (← s.proto index)
  | .callSite => return .callSite (← s.callSite index)
  | .methodHandle => return .methodHandle (← s.methodHandle index)
  | .raw => return .raw index

/-- The next code unit. -/
def unit : Decoder Nat := return (← Decoder.u2).toNat

def signedUnit : Decoder Int32 := return extendSign 16 (← unit)

/-- Two code units, the low one first. -/
def unitPair : Decoder UInt32 := do
  let low ← unit
  let high ← unit
  pure (UInt32.ofNat (low + 0x10000 * high))

/-- A word of 32 bits in a table, as a signed number. -/
def word : Decoder Int32 := return (← Decoder.u4).toInt32

/-- The first `count` of up to five registers; `g` is the fifth. -/
def unpackRegisters (o : Opcode) (count g fedc : Nat) : Result (List UInt8) :=
  let all := [fedc % 16, fedc / 16 % 16, fedc / 256 % 16, fedc / 4096, g]
  if 5 < count then Result.malformed (.registerCount o.name count)
  else do
    Access.range 0 count all.length
    return (all.take count).map Nat.toUInt8

/-- A number of `width` bytes, which fill the beginning of a word of eight. -/
def element (width : Nat) : Decoder Int64 := do
  let chunk ← Decoder.raw width
  Access.range 0 width 8
  return Int64.ofInt (Packed.ofSigned chunk)

/-- The operands of an instruction behind its first unit, which held `argument`. -/
def decodeOperands (s : Source) (o : Opcode) (argument : Nat) : Decoder Operands :=
  let a := (argument % 16).toUInt8
  let b := (argument / 16).toUInt8
  let aa := argument.toUInt8
  let noArgument : Decoder Unit :=
    if argument = 0 then pure () else Decoder.fail (.nonzeroArgument o.name argument)
  let indexUnit : Decoder UInt32 := return UInt32.ofNat (← unit)
  let size : Decoder Nat := do
    noArgument
    unit
  match o.format with
  | .f10x => do
    noArgument
    return .f10x
  | .f12x => return .f12x a b
  | .f11n => return .f11n a (extendSign 4 (argument / 16))
  | .f11x => return .f11x aa
  | .f10t => return .f10t (extendSign 8 argument)
  | .f20t => do
    noArgument
    return .f20t (← signedUnit)
  | .f22x => return .f22x aa (← Decoder.u2)
  | .f21t => return .f21t aa (← signedUnit)
  | .f21s => return .f21s aa (← signedUnit)
  | .f21ih => return .f21ih aa (UInt32.ofNat ((← unit) * 0x10000)).toInt32
  | .f21lh => return .f21lh aa (UInt64.ofNat ((← unit) * 0x1000000000000)).toInt64
  | .f21c => return .f21c aa (← resolve s o.reference (← indexUnit))
  | .f22c => return .f22c a b (← resolve s o.reference (← indexUnit))
  | .f23x => do
    let ccbb ← unit
    return .f23x aa (ccbb % 256).toUInt8 (ccbb / 256).toUInt8
  | .f22b => do
    let ccbb ← unit
    return .f22b aa (ccbb % 256).toUInt8 (extendSign 8 (ccbb / 256))
  | .f22t => return .f22t a b (← signedUnit)
  | .f22s => return .f22s a b (← signedUnit)
  | .f30t => do
    noArgument
    return .f30t (← unitPair).toInt32
  | .f32x => do
    noArgument
    let first ← Decoder.u2
    return .f32x first (← Decoder.u2)
  | .f31i => return .f31i aa (← unitPair).toInt32
  | .f31t => return .f31t aa (← unitPair).toInt32
  | .f31c => return .f31c aa (← resolve s o.reference (← unitPair))
  | .f35c => do
    let index ← indexUnit
    let fedc ← unit
    let registers ← unpackRegisters o (argument / 16) (argument % 16) fedc
    return .f35c registers (← resolve s o.reference index)
  | .f3rc => do
    let index ← indexUnit
    let start ← Decoder.u2
    return .f3rc start aa (← resolve s o.reference index)
  | .f45cc => do
    let index ← indexUnit
    let fedc ← unit
    let index2 ← indexUnit
    let registers ← unpackRegisters o (argument / 16) (argument % 16) fedc
    let reference ← resolve s o.reference index
    return .f45cc registers reference (← resolve s o.reference2 index2)
  | .f4rcc => do
    let index ← indexUnit
    let start ← Decoder.u2
    let index2 ← indexUnit
    let reference ← resolve s o.reference index
    return .f4rcc start aa reference (← resolve s o.reference2 index2)
  | .f51l => do
    let low ← unitPair
    let high ← unitPair
    return .f51l aa (Bytes.toWord64 low high).toInt64
  | .packedSwitchPayload => do
    let count ← size
    let firstKey ← word
    return .packedSwitchPayload firstKey (← word.repeated count)
  | .sparseSwitchPayload => do
    let count ← size
    let keys ← word.repeated count
    let offsets ← word.repeated count
    return .sparseSwitchPayload (List.zipWith SwitchCase.mk keys offsets)
  | .arrayPayload => do
    noArgument
    let width ← Decoder.u2
    let count := (← Decoder.u4).toNat
    if width ∉ elementWidths then Decoder.fail (.elementWidth width.toNat)
    if (← Decoder.available) < count * width.toNat then Decoder.fail (.arrayPayloadSize count)
    let start ← Decoder.position
    let after := start + count * width.toNat
    let payload ← Access.slice (← Decoder.input) start after
    let elements ← ((element width.toNat).repeated count).valueAt payload 0
    -- back to the start of a code unit
    Decoder.seek (after + after % 2)
    return .arrayPayload width elements

/-- The instruction at the cursor. -/
def decode (table : OpcodeTable) (s : Source) : Decoder Instruction := do
  let first ← unit
  let isTable := first % 256 = 0
  let opcode ← table.opcode (if isTable then first else first % 256).toUInt16
  return ⟨opcode, ← decodeOperands s opcode (if isTable then 0 else first / 256)⟩

/-- Instructions from the cursor on that begin before `limit`, at most `room` of them. -/
def decodeUpTo (table : OpcodeTable) (s : Source) (start limit : Nat) :
    (room : Nat) → List Instruction → Decoder (List Instruction)
  | 0, found => pure found.reverse
  | room + 1, found => do
    let position ← Decoder.position
    if limit ≤ position then pure found.reverse
    else
      let i ← (decode table s).within s!"instruction at unit {(position - start) / 2}"
      decodeUpTo table s start limit room (i :: found)

/-- The instructions that take exactly `count` code units. -/
def decodeAll (table : OpcodeTable) (s : Source) (count : Nat) : Decoder (List Instruction) := do
  let start ← Decoder.position
  let limit := start + 2 * count
  if (← Decoder.input).size < limit then Decoder.fail (.instructionsPastEnd start)
  let instructions ← (decodeUpTo table s start limit count []).upTo limit
  let after ← Decoder.position
  if after ≠ limit then Decoder.fail (.unitCount ((after - start) / 2) count)
  return instructions

end Dalvik.Instruction
