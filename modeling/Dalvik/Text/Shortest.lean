/-!
# Shortest decimals

The text of a floating-point number is the decimal with the fewest digits that reads back as that
number, the nearest one if there are several. Numbers from 10^16 on and below 10^-4 are written with
an exponent, all others with at least one digit on each side of the point.
-/
namespace Dalvik.Text

/-- A binary interchange format, by the widths of its fields. -/
structure FloatFormat where
  fractionBits : Nat
  exponentBits : Nat

def FloatFormat.single : FloatFormat := ⟨23, 8⟩

def FloatFormat.double : FloatFormat := ⟨52, 11⟩

def powerOfTen (n : Nat) : Nat := Nat.pow 10 n

/-- The decimal `digits * 10 ^ exponent`. -/
structure Decimal where
  digits : Nat
  exponent : Int

/-- A positive rational number between two bounds, over a common denominator; the bounds themselves
belong to the interval if `closed` is set. -/
structure Rounding where
  low : Nat
  value : Nat
  high : Nat
  denominator : Nat
  closed : Bool

namespace Rounding

/-- The numbers that read back as the finite positive number with these fields. -/
def ofFields (f : FloatFormat) (exponent fraction : Nat) : Rounding :=
  let mantissa := if exponent = 0 then fraction else fraction + 1 <<< f.fractionBits
  let low := if fraction = 0 ∧ 1 < exponent then 4 * mantissa - 1 else 4 * mantissa - 2
  let bias := 1 <<< (f.exponentBits - 1) + f.fractionBits + 1
  let power := max exponent 1
  let scale := 1 <<< (power - bias)
  { low := low * scale
    value := 4 * mantissa * scale
    high := (4 * mantissa + 2) * scale
    denominator := 1 <<< (bias - power)
    closed := mantissa % 2 == 0 }

/-- True if `digits * 10 ^ exponent` lies in the interval. -/
def contains (r : Rounding) (digits : Nat) (exponent : Int) : Bool :=
  let n := digits * powerOfTen exponent.toNat * r.denominator
  let scale := powerOfTen (-exponent).toNat
  let low := r.low * scale
  let high := r.high * scale
  if r.closed then low ≤ n && n ≤ high else low < n && n < high

/-- The exponent of the first digit of the value. -/
def leading (r : Rounding) : Int :=
  if r.denominator ≤ r.value then (Nat.toDigits 10 (r.value / r.denominator)).length - 1
  else - ((List.range 400).find? fun j => r.denominator ≤ r.value * powerOfTen j).getD 0

/-- The neighbours of the value on the grid of multiples of `10 ^ exponent`, the nearer one first;
of two equally near ones the greater. -/
def neighbours (r : Rounding) (exponent : Int) : List Nat :=
  let n := r.value * powerOfTen (-exponent).toNat
  let d := r.denominator * powerOfTen exponent.toNat
  let below := n / d
  if 2 * (n % d) < d then [below, below + 1] else [below + 1, below]

/-- The decimal with the fewest digits in the interval; seventeen are always enough. -/
def shortest (r : Rounding) : Decimal :=
  let start := r.leading
  let candidates := (List.range 18).flatMap fun (count : Nat) =>
    let exponent := start - count
    ((r.neighbours exponent).filter (r.contains · exponent)).map (Decimal.mk · exponent)
  candidates.headD ⟨0, 0⟩

end Rounding

namespace Decimal

/-- The digits with the point after the first, then the exponent if there is one to name. -/
def scientific (digits : List Char) (exponent : Int) : String :=
  let fraction := digits.drop 1
  String.ofList (digits.take 1) ++
    (if fraction.isEmpty then "" else "." ++ String.ofList fraction) ++ "e" ++ toString exponent

/-- The digits of a number whose first digit stands for `10 ^ exponent`, without an exponent. -/
def positional (digits : List Char) (exponent : Int) : String :=
  let zeros (n : Nat) := List.replicate n '0'
  if exponent < 0 then
    "0." ++ String.ofList (zeros ((-exponent).toNat - 1) ++ digits)
  else
    let places := exponent.toNat + 1
    let whole := digits.take places ++ zeros (places - digits.length)
    let fraction := digits.drop places
    String.ofList whole ++ "." ++ (if fraction.isEmpty then "0" else String.ofList fraction)

def text (d : Decimal) : String :=
  let all := Nat.toDigits 10 d.digits
  let leading := d.exponent + (all.length - 1 : Nat)
  let digits := (all.reverse.dropWhile (· == '0')).reverse
  if 16 ≤ leading ∨ leading < -4 then scientific digits leading
  else positional digits leading

end Decimal

/-- The text of the number with these bits. -/
def floatText (f : FloatFormat) (bits : Nat) : String :=
  let fraction := bits % (1 <<< f.fractionBits)
  let exponent := (bits >>> f.fractionBits) % (1 <<< f.exponentBits)
  let sign := if (bits >>> (f.fractionBits + f.exponentBits)) % 2 = 1 then "-" else ""
  if exponent + 1 = 1 <<< f.exponentBits then
    if fraction = 0 then sign ++ "inf" else "NaN"
  else if exponent = 0 ∧ fraction = 0 then sign ++ "0.0"
  else sign ++ (Rounding.ofFields f exponent fraction).shortest.text

end Dalvik.Text
