import Dalvik.Bytes

/-!
# The SHA-1 digest

The message is padded to blocks of 64 bytes, and each block in turn is mixed into a state of five
words. Words have the high byte first.
-/
namespace Dalvik.Digest

/-- The five words of the state. -/
structure Sha1State where
  a : UInt32 := 0x67452301
  b : UInt32 := 0xefcdab89
  c : UInt32 := 0x98badcfe
  d : UInt32 := 0x10325476
  e : UInt32 := 0xc3d2e1f0

def rotateLeft (n : UInt32) (bits : UInt32) : UInt32 := n <<< bits ||| n >>> (32 - bits)

def bigEndian32 (n : UInt32) : Bytes := (Bytes.u4 n).reverse

def bigEndian64 (n : UInt64) : Bytes := (Bytes.u8 n).reverse

/-- The message with a one bit, zeros and its length in bits, which fills whole blocks. -/
def sha1Padded (message : Bytes) : Bytes :=
  let zeros := (119 - message.length % 64) % 64
  message ++ 0x80 :: List.replicate zeros 0 ++ bigEndian64 (UInt64.ofNat (8 * message.length))

/-- The words of a block. -/
def blockWords : Bytes → List UInt32
  | b3 :: b2 :: b1 :: b0 :: rest => Bytes.toWord32 b0 b1 b2 b3 :: blockWords rest
  | _ => []

/-- The next word of the schedule, from the sixteen before it, the last of them first. -/
def nextWord (latest : List UInt32) : UInt32 :=
  rotateLeft (latest.getD 2 0 ^^^ latest.getD 7 0 ^^^ latest.getD 13 0 ^^^ latest.getD 15 0) 1

/-- The eighty words of a block's schedule. -/
def schedule (block : Bytes) : List UInt32 :=
  let first := (blockWords block).reverse
  (Nat.repeat (fun latest => nextWord latest :: latest) 64 first).reverse

/-- The function and the constant of a round. -/
def roundMix (round : Nat) (s : Sha1State) : UInt32 :=
  if round < 20 then (s.b &&& s.c ||| ~~~s.b &&& s.d) + 0x5a827999
  else if round < 40 then (s.b ^^^ s.c ^^^ s.d) + 0x6ed9eba1
  else if round < 60 then (s.b &&& s.c ||| s.b &&& s.d ||| s.c &&& s.d) + 0x8f1bbcdc
  else (s.b ^^^ s.c ^^^ s.d) + 0xca62c1d6

def sha1Round (s : Sha1State) (word : UInt32 × Nat) : Sha1State :=
  { a := rotateLeft s.a 5 + roundMix word.2 s + s.e + word.1
    b := s.a
    c := rotateLeft s.b 30
    d := s.c
    e := s.d }

def sha1Block (s : Sha1State) (block : Bytes) : Sha1State :=
  let t := (schedule block).zipIdx.foldl sha1Round s
  ⟨s.a + t.a, s.b + t.b, s.c + t.c, s.d + t.d, s.e + t.e⟩

/-- Mixes in the first `count` blocks of the bytes. -/
def sha1Blocks : (count : Nat) → Sha1State → Bytes → Sha1State
  | 0, s, _ => s
  | count + 1, s, bytes => sha1Blocks count (sha1Block s (bytes.take 64)) (bytes.drop 64)

def sha1 (message : Bytes) : Bytes :=
  let padded := sha1Padded message
  let s := sha1Blocks (padded.length / 64) {} padded
  [s.a, s.b, s.c, s.d, s.e].flatMap bigEndian32

end Dalvik.Digest
