import Dalvik.Arithmetic
import Dalvik.Decoder

/-!
# The counts in front of code

A code item begins with the sizes of its parts. Standard files store them in full; compact files
pack them into four bytes, and put what does not fit there into units of 16 bits before these, so
that the item is read from its header in both directions.
-/
namespace Dalvik

structure CodeHeader where
  registers : UInt16
  /-- How many registers the arguments of the method arrive in. -/
  incoming : UInt16
  /-- How many registers calls need for their arguments. -/
  outgoing : UInt16
  tries : Nat
  units : UInt32
  /-- Where the debug information is, 0 if there is none or the file is compact. -/
  debugOffset : UInt32
  deriving DecidableEq, Repr

namespace CodeHeader

/-! ## Standard files -/

def encode (h : CodeHeader) : Bytes :=
  Bytes.u2 h.registers ++ Bytes.u2 h.incoming ++ Bytes.u2 h.outgoing ++
    Bytes.u2 h.tries.toUInt16 ++ Bytes.u4 h.debugOffset ++ Bytes.u4 h.units

def decode : Decoder CodeHeader := do
  let registers ← Decoder.u2
  let incoming ← Decoder.u2
  let outgoing ← Decoder.u2
  let tries := (← Decoder.u2).toNat
  let debugOffset ← Decoder.u4
  return { registers, incoming, outgoing, tries, units := ← Decoder.u4, debugOffset }

/-! ## Compact files -/

/-- The bit of a count that has more than the header holds of it. -/
def registersFlag : Nat := 0
def incomingFlag : Nat := 1
def outgoingFlag : Nat := 2
def triesFlag : Nat := 3
def unitsFlag : Nat := 4

/-- How many bits of the last unit are such flags; the low bits of the unit count are above. -/
def flagBits : Nat := 5

/-- Counts of code units below this fit the header. -/
def unitsBound : Nat := 0x800

/-- The part of a count that does not fit four bits. -/
def rest (count : Nat) : Nat := count - count % 16

/-- A unit for a count that needs one. -/
def extension (count : Nat) : List UInt16 :=
  if rest count = 0 then [] else [(rest count).toUInt16]

/-- The counts of four bits; the registers of the arguments are left out of the others. -/
structure Small where
  registers : Nat
  incoming : Nat
  outgoing : Nat
  tries : Nat
  deriving DecidableEq, Repr

/-- The counts that may need a unit before the header, the farthest one first. -/
def Small.extensions (s : Small) : List UInt16 :=
  extension s.tries ++ extension s.outgoing ++ extension s.incoming ++ extension s.registers

/-- The two units that hold the high part of a count of code units, if it has one. -/
def unitsExtension (units : Nat) : List UInt16 :=
  let high := units - units % unitsBound
  if high = 0 then [] else [(high >>> 16).toUInt16, high.toUInt16]

/-- The units before the header. If the code has tables it has to begin at a multiple of four
bytes, and a unit of padding comes first where that is needed. -/
def Small.front (s : Small) (position : Nat) (hasTables : Bool) (units : Nat) : List UInt16 :=
  let odd := (position / 2 + s.extensions.length) % 2 = 1
  (if hasTables ∧ odd then [0] else []) ++ s.extensions ++ unitsExtension units

/-- The two units of the header. -/
def Small.header (s : Small) (units : Nat) : List UInt16 :=
  let bit (flag count : Nat) : Nat := if rest count = 0 then 0 else 1 <<< flag
  let high := units - units % unitsBound
  let flags := bit registersFlag s.registers + bit incomingFlag s.incoming +
    bit outgoingFlag s.outgoing + bit triesFlag s.tries +
    (if high = 0 then 0 else 1 <<< unitsFlag)
  [(s.registers % 16 * 0x1000 + s.incoming % 16 * 0x100 + s.outgoing % 16 * 0x10 +
      s.tries % 16).toUInt16,
    ((units % unitsBound) <<< flagBits + flags).toUInt16]

/-- The bytes before the header at `position`, and the header. -/
def encodeCompact (position : Nat) (hasTables : Bool) (h : CodeHeader) : Result (Bytes × Bytes) :=
  if h.registers < h.incoming then
    Result.violation (.registersBelowIncoming h.registers.toNat h.incoming.toNat)
  else
    let s : Small := ⟨h.registers.toNat - h.incoming.toNat, h.incoming.toNat, h.outgoing.toNat,
      h.tries⟩
    .ok ((s.front position hasTables h.units.toNat).flatMap Bytes.u2,
      (s.header h.units.toNat).flatMap Bytes.u2)

/-- The unit before a place, and the place where it begins. -/
def unitBefore (place : Nat) : Decoder (UInt16 × Nat) := do
  if place < 2 then Decoder.fail .preheaderBeforeData
  let after ← Decoder.position
  Decoder.seek (place - 2)
  let unit ← Decoder.u2
  Decoder.seek after
  return (unit, place - 2)

/-- A count with the unit before `place`, if its flag is set, and the place left of that. -/
def extended (flags flag place count : Nat) : Decoder (Nat × Nat) := do
  if flags.testBit flag then
    let (unit, place) ← unitBefore place
    return (count + unit.toNat, place)
  else return (count, place)

/-- As `extended`, for the count of code units with its two units. The sum may leave its word. -/
def extendedUnits (flags place : Nat) (count : UInt32) : Decoder (UInt32 × Nat) := do
  if flags.testBit unitsFlag then
    let (low, place) ← unitBefore place
    let (high, place) ← unitBefore place
    return (← Arithmetic.add32 count (low.toUInt32 + high.toUInt32 <<< 16), place)
  else return (count, place)

/-- The counts put together from the units of a header at `start` and those before it, and the place
where the farthest of these begins. -/
def walk (fields flags start : Nat) : Decoder (Small × UInt32 × Nat) := do
  let (units, place) ← extendedUnits flags start (UInt32.ofNat (flags >>> flagBits))
  let (registers, place) ← extended flags registersFlag place (fields / 0x1000)
  let (incoming, place) ← extended flags incomingFlag place (fields / 0x100 % 16)
  let (outgoing, place) ← extended flags outgoingFlag place (fields / 0x10 % 16)
  let (tries, place) ← extended flags triesFlag place (fields % 16)
  return ({ registers, incoming, outgoing, tries }, units, place)

def decodeCompact : Decoder CodeHeader := do
  let start ← Decoder.position
  let fields := (← Decoder.u2).toNat
  let flags := (← Decoder.u2).toNat
  let (s, units, _) ← walk fields flags start
  let registers := s.registers + s.incoming
  if 0xffff < registers ∨ 0xffff < s.incoming ∨ 0xffff < s.outgoing then
    Decoder.fail (.codeRegisters start)
  return {
    registers := registers.toUInt16
    incoming := s.incoming.toUInt16
    outgoing := s.outgoing.toUInt16
    tries := s.tries
    units
    debugOffset := 0 }

end CodeHeader

end Dalvik
