/-!
# Hexadecimal text

Lower-case hexadecimal numbers with their `0x` mark, as offsets, tags and checksums are shown.
-/
namespace Dalvik.Text

/-- The hexadecimal digits of `n`, without a mark. -/
def hexDigits (n : Nat) : String := String.ofList (Nat.toDigits 16 n)

/-- The hexadecimal digits of `n`, filled with zeros on the left to at least `width` of them. -/
def hexDigitsPadded (width n : Nat) : String :=
  let digits := Nat.toDigits 16 n
  String.ofList (List.replicate (width - digits.length) '0' ++ digits)

def hex (n : Nat) : String := "0x" ++ hexDigits n

def hexPadded (width n : Nat) : String := "0x" ++ hexDigitsPadded width n

/-- A list of bytes in brackets, two digits each. -/
def hexList (bytes : List UInt8) : String :=
  "[" ++ ", ".intercalate (bytes.map fun b => hexDigitsPadded 2 b.toNat) ++ "]"

end Dalvik.Text
