import Dalvik.AccessFlags
import Dalvik.Arithmetic
import Dalvik.Leb128

/-!
# Restrictions on members

A member can be hidden from applications to some degree, given by a number. One release keeps two
bits of it among the access flags, where real members leave room for them; later releases have a
section with a number for every member.
-/
namespace Dalvik.HiddenApi

/-- The release that keeps the restriction among the access flags. -/
def packedApi : Int := 28

/-! ## Among the access flags -/

/-- The two bits that stand for a restriction. -/
def packedOf : UInt32 → Option (Bool × Bool)
  | 0 => some (false, false)
  | 1 => some (true, false)
  | 2 => some (true, true)
  | 3 => some (false, true)
  | _ => none

def unpackedOf : Bool × Bool → UInt32
  | (false, false) => 0
  | (true, false) => 1
  | (true, true) => 2
  | (false, true) => 3

/-- The bit that holds the second one: another place for native methods. -/
def secondFlag (access : UInt32) : UInt32 :=
  if AccessFlags.has access AccessFlags.isNative then 0x200 else 0x20

/-- Puts a restriction among access flags: its first bit flips the visibility bits, of which a real
member has at most one, its second bit has a place of its own. -/
def pack (access restriction : UInt32) : Result UInt32 :=
  match packedOf restriction with
  | some (first, second) =>
    let access := if first then access ^^^ AccessFlags.visibility else access
    .ok (if second then access ||| secondFlag access else access)
  | none => Result.unsupported (.hiddenFlags restriction.toNat)

/-- The access flags without the restriction, and the restriction. -/
def unpack (access : UInt32) : UInt32 × UInt32 :=
  let visible := access &&& AccessFlags.visibility
  let first := visible &&& (visible - 1) != 0
  let access := if first then access ^^^ AccessFlags.visibility else access
  let second := AccessFlags.has access (secondFlag access)
  let access := if second then access &&& ~~~(secondFlag access) else access
  (access, unpackedOf (first, second))

/-! ## In a section of their own -/

/-- The offsets of the classes from the start of the section, for parts that begin at `next`; 0 for
a class that has none. -/
def offsets (next : Nat) : List (Option Bytes) → List UInt32
  | [] => []
  | none :: rest => 0 :: offsets next rest
  | some part :: rest => UInt32.ofNat next :: offsets (next + part.length) rest

/-- The section: its size, an offset for each class, and the numbers of the classes that have
some. -/
def encodeSection (classes : List (Option (List UInt32))) : Bytes :=
  let parts := classes.map fun numbers? => numbers?.map fun numbers => numbers.flatMap Bytes.uleb
  let base := 4 + 4 * classes.length
  let table := (offsets base parts).flatMap Bytes.u4
  let data := parts.flatMap fun part? => part?.getD []
  Bytes.u4 (UInt32.ofNat (base + data.length)) ++ table ++ data

/-- Appends the numbers of the classes from one on, and fills in their offsets in the table of the
section at `start`. -/
def writeClasses (start : Nat) : (index : Nat) → List (Option (List UInt32)) → StateM Bytes Unit
  | _, [] => return
  | index, none :: rest => writeClasses start (index + 1) rest
  | index, some numbers :: rest => do
    let here := UInt32.ofNat ((← get).length - start)
    modify (·.overwrite (start + 4 + 4 * index) (Bytes.u4 here))
    modify (· ++ numbers.flatMap Bytes.uleb)
    writeClasses start (index + 1) rest

/-- Appends the section to a buffer, with zeros where size and offsets are not known yet, and returns
where it begins. -/
def writeSection (classes : List (Option (List UInt32))) : StateM Bytes Nat := do
  modify fun buffer => buffer ++ padding buffer.length 4
  let start := (← get).length
  modify (· ++ Bytes.u4 0)
  modify (· ++ List.replicate (4 * classes.length) 0)
  writeClasses start 0 classes
  let size := UInt32.ofNat ((← get).length - start)
  modify (·.overwrite start (Bytes.u4 size))
  return start

/-- Where the numbers of the class with an index are in the section at `start`, if it has some. The
index can be any number, and the place of its entry may leave the word for it. -/
def locate (start index : Nat) : Decoder (Option Nat) := do
  if start = 0 then return none
  Decoder.seek start
  let size := (← Decoder.u4).toNat
  let scaled ← Arithmetic.size .multiply (index * 4)
  let entry ← Arithmetic.size .add (start + 4 + scaled)
  let after ← Arithmetic.size .add (entry + 4)
  if start + size < after then Decoder.fail (.hiddenClass index size)
  Decoder.seek entry
  let offset := (← Decoder.u4).toNat
  return if offset = 0 then none else some (start + offset)

/-- The number at a place, and the next place; always 0 for a class that has none. -/
def next (bytes : ByteArray) : Option Nat → Result (UInt32 × Option Nat)
  | none => .ok (0, none)
  | some place => do
    let (restriction, after) ← Decoder.uleb.decodeAt bytes place
    return (restriction, some after)

end Dalvik.HiddenApi
