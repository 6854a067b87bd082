import Dalvik.Leb128
import Dalvik.Text.Utf16

/-!
# Modified UTF-8

Strings are stored with the count of their UTF-16 units in front and a zero byte behind. Between the
two, U+0000 takes two bytes and a supplementary character is written as its two surrogates of three
bytes each, so that no zero byte occurs. Plain UTF-8 is accepted as well.
-/
namespace Dalvik.Text

/-- Three bytes for a code unit from U+0800 on. -/
def threeBytes (n : Nat) : Bytes :=
  [(0xE0 + n / 0x1000).toUInt8, (0x80 + n / 0x40 % 0x40).toUInt8, (0x80 + n % 0x40).toUInt8]

def encodeChar (c : Char) : Bytes :=
  let n := c.toNat
  if n = 0 then [0xC0, 0x80]
  else if n < 0x80 then [n.toUInt8]
  else if n < 0x800 then [(0xC0 + n / 0x40).toUInt8, (0x80 + n % 0x40).toUInt8]
  else (units c).flatMap fun unit => threeBytes unit.toNat

def encodeModified (s : String) : Bytes := s.toList.flatMap encodeChar

/-- The six bits of a continuation byte. -/
def continuation? (b : UInt8) : Option Nat :=
  if 0x80 ≤ b ∧ b < 0xC0 then some (b.toNat - 0x80) else none

/-- The character of two bytes. -/
def twoByteChar? (a b : UInt8) : Option Char := do
  if 0xC2 ≤ a ∧ a < 0xE0 then
    some (Char.ofNat ((a.toNat - 0xC0) * 0x40 + (← continuation? b)))
  else none

/-- The character of three bytes; overlong forms and surrogates are none. -/
def threeByteChar? (a b c : UInt8) : Option Char := do
  if 0xE0 ≤ a ∧ a < 0xF0 then
    let n := (a.toNat - 0xE0) * 0x1000 + (← continuation? b) * 0x40 + (← continuation? c)
    if n < 0x800 ∨ (0xD800 ≤ n ∧ n < 0xE000) then none else some (Char.ofNat n)
  else none

/-- The character of four bytes in plain UTF-8. -/
def fourByteChar? (a b c d : UInt8) : Option Char := do
  if 0xF0 ≤ a ∧ a < 0xF5 then
    let n := (a.toNat - 0xF0) * 0x40000 + (← continuation? b) * 0x1000 +
      (← continuation? c) * 0x40 + (← continuation? d)
    if n < 0x10000 ∨ 0x110000 ≤ n then none else some (Char.ofNat n)
  else none

/-- The character of two surrogates of three bytes each. -/
def surrogateChar? (a b c d e f : UInt8) : Option Char := do
  if a = 0xED ∧ 0xA0 ≤ b ∧ b < 0xB0 ∧ d = 0xED ∧ 0xB0 ≤ e ∧ e < 0xC0 then
    some (Char.ofNat (0x10000 + ((b.toNat - 0xA0) * 0x40 + (← continuation? c)) * 0x400 +
      (e.toNat - 0xB0) * 0x40 + (← continuation? f)))
  else none

/-- The first character of plain UTF-8, and what follows it. -/
def takeUtf8 : Bytes → Option (Char × Bytes)
  | a :: rest =>
    if a < 0x80 then some (Char.ofNat a.toNat, rest)
    else match rest with
      | b :: rest => (twoByteChar? a b).map (·, rest) <|> match rest with
        | c :: rest => (threeByteChar? a b c).map (·, rest) <|> match rest with
          | d :: rest => (fourByteChar? a b c d).map (·, rest)
          | [] => none
        | [] => none
      | [] => none
  | [] => none

/-- The first character of modified UTF-8, and what follows it. -/
def takeModified : Bytes → Option (Char × Bytes)
  | a :: rest =>
    if a < 0x80 then some (Char.ofNat a.toNat, rest)
    else match rest with
      | b :: rest =>
        if a = 0xC0 ∧ b = 0x80 then some (Char.ofNat 0, rest)
        else (twoByteChar? a b).map (·, rest) <|> match rest with
          | c :: rest => (threeByteChar? a b c).map (·, rest) <|> match rest with
            | d :: e :: f :: rest => (surrogateChar? a b c d e f).map (·, rest)
            | _ => none
          | [] => none
      | [] => none
  | [] => none

/-- Takes characters until nothing is left; `room` bounds their number. -/
def decodeWith (take : Bytes → Option (Char × Bytes)) :
    (room : Nat) → List Char → Bytes → Option (List Char)
  | _, found, [] => some found.reverse
  | 0, _, _ :: _ => none
  | room + 1, found, bytes => do
    let (c, rest) ← take bytes
    decodeWith take room (c :: found) rest

/-- The string that bytes without a zero stand for; plain UTF-8 is tried first. -/
def decodeModified? (bytes : Bytes) : Option String :=
  (decodeWith takeUtf8 bytes.length [] bytes <|>
    decodeWith takeModified bytes.length [] bytes).map String.ofList

/-- A string as it is stored, with its length and its closing zero. -/
def encodeStringData (s : String) : Bytes :=
  Bytes.ulebNat (utf16Length s) ++ encodeModified s ++ [0]

/-- Writes the parts of a stored string one by one, and counts them. -/
def writeStringData (s : String) : StateM Bytes Nat := do
  let count ← (Bytes.ulebNat (utf16Length s)).put
  let size ← (encodeModified s).put
  return count + size + (← Bytes.put [0])

def decodeStringData : Decoder String := do
  let start ← Decoder.position
  let declared ← Decoder.uleb
  let first ← Decoder.position
  let bytes ← Decoder.input
  let some last := bytes.findIdx? (· == 0) first
    | Decoder.fail (.stringUnterminated start)
  let part ← Access.slice bytes first last
  let some s := decodeModified? part.toList
    | Decoder.fail (.stringEncoding start)
  if utf16Length s = declared.toNat then
    Decoder.seek (last + 1)
    pure s
  else Decoder.fail (.stringLength start declared.toNat (utf16Length s))

end Dalvik.Text
