import Dalvik.Instruction
import Dalvik.Packed

/-!
# Writing instructions

Operands that do not fit their place are reported and never cut off. Tables in the code have to
begin at a multiple of four bytes.
-/
namespace Dalvik.Instruction

def tableAlignment : Nat := 4

/-- A number that fits `width` bits. -/
def fitUnsigned (width n : Nat) : Result Nat :=
  if n < 1 <<< width then .ok n else Result.violation (.unsignedOperand n width)

/-- True if a number fits `width` bits, one of them for its sign. -/
def fitsSigned (width : Nat) (n : Int) : Bool :=
  let half : Int := (1 <<< (width - 1) : Nat)
  decide (-half ≤ n ∧ n < half)

/-- The low `width` bits of a signed number that fits them. -/
def fitSigned (width : Nat) (n : Int32) : Result Nat :=
  if fitsSigned width n.toInt then .ok (n.toUInt32.toNat % (1 <<< width))
  else Result.violation (.signedOperand n.toUInt32.toNat width)

/-- The top 16 of 32 bits, when the others are clear. -/
def fitTop32 (n : Int32) : Result Nat :=
  let bits := n.toUInt32.toNat
  if bits % 0x10000 = 0 then .ok (bits / 0x10000) else Result.violation (.hatOperand bits 16)

/-- The top 16 of 64 bits, when the others are clear. -/
def fitTop64 (n : Int64) : Result Nat :=
  let bits := n.toUInt64.toNat
  if bits % 0x1000000000000 = 0 then .ok (bits / 0x1000000000000)
  else Result.violation (.hatOperand bits 16)

def unitBytes (n : Nat) : Bytes := Bytes.u2 n.toUInt16

/-- The first unit of an instruction. -/
def firstUnit (opcode : UInt16) (argument : Nat) : Result Bytes := do
  if 0xff < opcode.toNat then Result.violation (.opcodeValue opcode.toNat)
  let argument ← fitUnsigned 8 argument
  return unitBytes (argument * 256 + opcode.toNat)

/-- Two register numbers of four bits as an argument. -/
def fitPair (a b : UInt8) : Result Nat := do
  let a ← fitUnsigned 4 a.toNat
  let b ← fitUnsigned 4 b.toNat
  return b * 16 + a

def pairBytes (n : UInt32) : Bytes :=
  unitBytes (n.toNat % 0x10000) ++ unitBytes (n.toNat / 0x10000)

/-- The index of a reference of the expected kind. -/
def referenceIndex (r : Resolver) : ReferenceKind → Reference → Result UInt32
  | .string, .string text => r.string text
  | .type, .type id => r.type id
  | .field, .field id => r.field id
  | .method, .method id => r.method id
  | .proto, .proto id => r.proto id
  | .callSite, .callSite site => r.callSite site
  | .methodHandle, .methodHandle handle => r.methodHandle handle
  | .raw, .raw index => .ok index
  | expected, found => Result.violation (.referenceKind expected.name found.kind.name)

/-- The index of a reference that has one unit to itself. -/
def shortIndex (r : Resolver) (kind : ReferenceKind) (reference : Reference) : Result Bytes := do
  return unitBytes (← fitUnsigned 16 (← referenceIndex r kind reference).toNat)

/-- The argument and the unit that hold up to five registers and their count. -/
def packRegisters (o : Opcode) (registers : List UInt8) : Result (Nat × Bytes) := do
  if 5 < registers.length then Result.violation (.tooManyRegisters o.name registers.length)
  let nibbles ← registers.mapM fun register => fitUnsigned 4 register.toNat
  let nibble (i : Nat) : Nat := nibbles.getD i 0
  return (registers.length * 16 + nibble 4,
    unitBytes (nibble 3 * 4096 + nibble 2 * 256 + nibble 1 * 16 + nibble 0))

/-- Tables begin at a multiple of four bytes. -/
def checkAlignment (position : Nat) : Result Unit :=
  if position % tableAlignment = 0 then .ok ()
  else Result.violation (.payloadAlignment position tableAlignment)

/-- The first units of a table at `position` that begins with its size. -/
def switchHead (position : Nat) (opcode : UInt16) (size : Nat) : Result Bytes := do
  checkAlignment position
  if 0xffff < size then Result.violation (.payloadSize size)
  return Bytes.u2 opcode ++ unitBytes size

/-- An element of an array with its width. -/
def elementBytes (width : UInt16) (element : Int64) : Result Bytes :=
  if width ∉ elementWidths then Result.violation (.elementWidth width.toNat)
  else if fitsSigned (8 * width.toNat) element.toInt then
    .ok ((Bytes.u8 element.toUInt64).take width.toNat)
  else Result.violation (.arrayElement element.toInt width.toNat)

/-- The instruction as it stands at `position`. -/
def encode (table : OpcodeTable) (r : Resolver) (position : Nat) (i : Instruction) :
    Result Bytes := do
  let o := i.opcode
  let op ← table.value o
  match i.operands with
  | .f10x => firstUnit op 0
  | .f12x a b => firstUnit op (← fitPair a b)
  | .f11n a literal => do
    let a ← fitUnsigned 4 a.toNat
    let b ← fitSigned 4 literal
    firstUnit op (b * 16 + a)
  | .f11x a => firstUnit op a.toNat
  | .f10t offset => firstUnit op (← fitSigned 8 offset)
  | .f20t offset => return (← firstUnit op 0) ++ unitBytes (← fitSigned 16 offset)
  | .f22x a b => return (← firstUnit op a.toNat) ++ Bytes.u2 b
  | .f21t a value | .f21s a value =>
    return (← firstUnit op a.toNat) ++ unitBytes (← fitSigned 16 value)
  | .f21ih a literal => return (← firstUnit op a.toNat) ++ unitBytes (← fitTop32 literal)
  | .f21lh a literal => return (← firstUnit op a.toNat) ++ unitBytes (← fitTop64 literal)
  | .f21c a reference => do
    let index ← shortIndex r o.reference reference
    return (← firstUnit op a.toNat) ++ index
  | .f22c a b reference => do
    let pair ← fitPair a b
    let index ← shortIndex r o.reference reference
    return (← firstUnit op pair) ++ index
  | .f23x a b c => return (← firstUnit op a.toNat) ++ unitBytes (c.toNat * 256 + b.toNat)
  | .f22b a b literal => do
    let literal ← fitSigned 8 literal
    return (← firstUnit op a.toNat) ++ unitBytes (literal * 256 + b.toNat)
  | .f22t a b value | .f22s a b value => do
    let pair ← fitPair a b
    return (← firstUnit op pair) ++ unitBytes (← fitSigned 16 value)
  | .f30t offset => return (← firstUnit op 0) ++ pairBytes offset.toUInt32
  | .f32x a b => return (← firstUnit op 0) ++ Bytes.u2 a ++ Bytes.u2 b
  | .f31i a value | .f31t a value =>
    return (← firstUnit op a.toNat) ++ pairBytes value.toUInt32
  | .f31c a reference => do
    let index ← referenceIndex r o.reference reference
    return (← firstUnit op a.toNat) ++ pairBytes index
  | .f35c registers reference => do
    let index ← shortIndex r o.reference reference
    let (argument, fedc) ← packRegisters o registers
    return (← firstUnit op argument) ++ index ++ fedc
  | .f3rc start count reference => do
    let index ← shortIndex r o.reference reference
    return (← firstUnit op count.toNat) ++ index ++ Bytes.u2 start
  | .f45cc registers reference reference2 => do
    let index ← shortIndex r o.reference reference
    let index2 ← shortIndex r o.reference2 reference2
    let (argument, fedc) ← packRegisters o registers
    return (← firstUnit op argument) ++ index ++ fedc ++ index2
  | .f4rcc start count reference reference2 => do
    let index ← shortIndex r o.reference reference
    let index2 ← shortIndex r o.reference2 reference2
    return (← firstUnit op count.toNat) ++ index ++ Bytes.u2 start ++ index2
  | .f51l a literal => do
    let bits := literal.toUInt64
    return (← firstUnit op a.toNat) ++ pairBytes bits.toUInt32 ++
      pairBytes (bits >>> 32).toUInt32
  | .packedSwitchPayload firstKey targets => do
    let head ← switchHead position op targets.length
    return head ++ Bytes.u4 firstKey.toUInt32 ++ targets.flatMap (Bytes.u4 ·.toUInt32)
  | .sparseSwitchPayload cases => do
    let cases := sortedBy (compareOn SwitchCase.key) cases
    if (firstAdjacent? (·.key == ·.key) cases).isSome then
      Result.violation .duplicateSwitchKey
    let head ← switchHead position op cases.length
    return head ++ cases.flatMap (Bytes.u4 ·.key.toUInt32) ++
      cases.flatMap (Bytes.u4 ·.offset.toUInt32)
  | .arrayPayload width elements => do
    checkAlignment position
    let data := (← elements.mapM (elementBytes width)).flatten
    let out := Bytes.u2 op ++ Bytes.u2 width ++ Bytes.u4 (UInt32.ofNat elements.length) ++ data
    return out ++ padding (position + out.length) 2

/-- The instructions one after another from `start` on. -/
def encodeAll (table : OpcodeTable) (r : Resolver) (start : Nat)
    (instructions : List Instruction) : Result Bytes := do
  let out ← instructions.foldlM
    (fun (out : Array UInt8) i => do
      let part : Bytes ← (i.encode table r (start + out.size)).within
        s!"{i.opcode.name} at unit {out.size / 2}"
      return out ++ part)
    #[]
  return out.toList

end Dalvik.Instruction
