import Dalvik.Decoder

/-!
# Packed numbers

A number inside an encoded value takes as few bytes as its kind allows, low byte first: integers are
extended on the left when they are read, by their sign or by zeros, and floating-point patterns on
the right. The byte in front of them holds the kind of the value and the number of bytes less one.
-/
namespace Dalvik.Packed

/-- Where the byte in front keeps what is not the kind of the value. -/
def argShift : UInt8 := 5

def header (type argument : UInt8) : UInt8 := type ||| argument <<< argShift

/-- The payload behind the byte that tells its kind and length. -/
def framed (type : UInt8) (payload : Bytes) : Bytes :=
  header type (payload.length - 1).toUInt8 :: payload

def signed (n : Int) : Bytes :=
  if -128 ≤ n ∧ n < 128 then [(n % 256).toNat.toUInt8]
  else (n % 256).toNat.toUInt8 :: signed (n / 256)
termination_by n.natAbs

def unsigned (n : Nat) : Bytes :=
  if n < 256 then [n.toUInt8] else n.toUInt8 :: unsigned (n / 256)

/-- Leading zeros go, except for a last byte. -/
def dropZeros : Bytes → Bytes
  | [] => []
  | [b] => [b]
  | b :: c :: rest => if b = 0 then dropZeros (c :: rest) else b :: c :: rest

/-- The top bytes of a pattern of 64 bits, down to the lowest one that is not zero. -/
def rightExtended (bits : UInt64) : Bytes := dropZeros (Bytes.u8 bits)

def float (bits : UInt32) : Bytes := rightExtended (bits.toUInt64 <<< 32)

def double (bits : UInt64) : Bytes := rightExtended bits

/-- The number with these bytes, low byte first. -/
def ofBytes (bytes : Bytes) : Nat := bytes.foldr (fun b high => b.toNat + 256 * high) 0

def ofSigned (bytes : Bytes) : Int :=
  let n := ofBytes bytes
  if n < 1 <<< (8 * bytes.length - 1) then n else n - (1 <<< (8 * bytes.length) : Nat)

/-- The payload of a value whose front byte gives `width`, one less than its length. -/
def payload (width : UInt8) : Decoder Bytes :=
  if 7 < width then Decoder.fail (.packedWidth (width.toNat + 1))
  else Decoder.u1.repeated (width.toNat + 1)

def readSigned (width : UInt8) : Decoder Int64 := return Int64.ofInt (ofSigned (← payload width))

def readUnsigned (width : UInt8) : Decoder UInt64 := return UInt64.ofNat (ofBytes (← payload width))

def readRightExtended (width : UInt8) : Decoder UInt64 :=
  return UInt64.ofNat (ofBytes (← payload width) <<< (8 * (7 - width.toNat)))

def readFloat (width : UInt8) : Decoder UInt32 :=
  return ((← readRightExtended width) >>> 32).toUInt32

def readDouble (width : UInt8) : Decoder UInt64 := readRightExtended width

end Dalvik.Packed
