/-!
# Instruction formats

The layouts of instructions. A name tells the number of code units, the number of registers and the
kind of further operand; three formats are for tables that lie in the code.
-/
namespace Dalvik

/-- What an operand that refers to a pool refers to. -/
inductive ReferenceKind where
  | none
  | string
  | type
  | field
  | method
  | proto
  | callSite
  | methodHandle
  /-- An index with no pool behind it. -/
  | raw
  deriving DecidableEq, Hashable, Repr

def ReferenceKind.name : ReferenceKind → String
  | none => "None"
  | string => "String"
  | type => "Type"
  | field => "Field"
  | method => "Method"
  | proto => "MethodProto"
  | callSite => "CallSite"
  | methodHandle => "MethodHandle"
  | raw => "RawIndex"

inductive Format where
  | f10t
  | f10x
  | f11n
  | f11x
  | f12x
  | f20t
  | f21c
  | f21ih
  | f21lh
  | f21s
  | f21t
  | f22b
  | f22c
  | f22s
  | f22t
  | f22x
  | f23x
  | f30t
  | f31c
  | f31i
  | f31t
  | f32x
  | f35c
  | f3rc
  | f45cc
  | f4rcc
  | f51l
  | arrayPayload
  | packedSwitchPayload
  | sparseSwitchPayload
  deriving DecidableEq, Hashable, Repr

namespace Format

def all : List Format :=
  [f10t, f10x, f11n, f11x, f12x, f20t, f21c, f21ih, f21lh, f21s, f21t, f22b, f22c, f22s, f22t,
    f22x, f23x, f30t, f31c, f31i, f31t, f32x, f35c, f3rc, f45cc, f4rcc, f51l, arrayPayload,
    packedSwitchPayload, sparseSwitchPayload]

theorem mem_all (f : Format) : f ∈ all := by cases f <;> decide

/-- The size in code units of 16 bits; payloads have no fixed size and count as 0. -/
def units : Format → Nat
  | f10t | f10x | f11n | f11x | f12x => 1
  | f20t | f21c | f21ih | f21lh | f21s | f21t | f22b | f22c | f22s | f22t | f22x | f23x => 2
  | f30t | f31c | f31i | f31t | f32x | f35c | f3rc => 3
  | f45cc | f4rcc => 4
  | f51l => 5
  | arrayPayload | packedSwitchPayload | sparseSwitchPayload => 0

def isPayload : Format → Bool
  | arrayPayload | packedSwitchPayload | sparseSwitchPayload => true
  | _ => false

end Format

end Dalvik
