import Dalvik.Bytes

/-!
# The Adler-32 checksum

Two sums modulo a prime: of the bytes, and of the first sum after each byte.
-/
namespace Dalvik.Digest

def adlerModulus : Nat := 65521

/-- The two sums after one more byte. -/
def adlerStep (sums : Nat × Nat) (b : UInt8) : Nat × Nat :=
  let low := (sums.1 + b.toNat) % adlerModulus
  (low, (sums.2 + low) % adlerModulus)

def adler32 (bytes : Bytes) : UInt32 :=
  let (low, high) := bytes.foldl adlerStep (1, 0)
  UInt32.ofNat (high * 0x10000 + low)

end Dalvik.Digest
