import Dalvik.Opcode.Format
import Dalvik.Version

/-!
# What is known of an opcode

The name, format and traits of an opcode, and the number it has on a target. Numbers depend on the
release and on which of the two runtimes runs the code.
-/
namespace Dalvik

/-- The platform that code is for. -/
structure Target where
  version : Version
  api : Int
  art : Bool
  odex : Bool
  deriving DecidableEq, Repr

instance : ToString Target where
  toString t := s!"{t.version} api {t.api} art={t.art} odex={t.odex}"

namespace Opcode

inductive Trait where
  | canThrow
  | odexOnly
  | endsFlow
  | invoke
  | returns
  | switch
  | branch
  | unconditional
  | hasPayload
  | canInitialize
  deriving DecidableEq, Repr

/-- The bit that stands for a trait in a set of traits. -/
def Trait.bit : Trait → UInt32
  | canThrow => 0x1
  | odexOnly => 0x2
  | endsFlow => 0x4
  | invoke => 0x8
  | returns => 0x10
  | switch => 0x20
  | branch => 0x40
  | unconditional => 0x80
  | hasPayload => 0x100
  | canInitialize => 0x200

inductive Runtime where
  | art
  | dalvik
  deriving DecidableEq, Repr

/-- The number of an opcode on a range of releases of one or both runtimes. -/
structure Numbering where
  value : UInt16
  first : Option Int := none
  last : Option Int := none
  runtime : Option Runtime := none
  deriving DecidableEq, Repr

def Numbering.covers (n : Numbering) (t : Target) : Bool :=
  n.first.all (· ≤ t.api) && n.last.all (t.api ≤ ·) &&
    n.runtime.all (· = if t.art then .art else .dalvik)

structure Entry where
  name : String
  format : Format
  /-- Of several numberings that cover a target the first counts. -/
  numberings : List Numbering
  reference : ReferenceKind := .none
  reference2 : ReferenceKind := .none
  traits : List Trait := []
  /-- The oldest standard version that holds the opcode, if not all do. -/
  minVersion : Option Version := none
  deriving DecidableEq, Repr

namespace Entry

def has (e : Entry) (trait : Trait) : Bool := e.traits.contains trait

/-- The traits as a set of bits. -/
def flags (e : Entry) : UInt32 := e.traits.foldl (fun bits t => bits ||| t.bit) 0

/-- The number of the opcode on a target, if it exists there. -/
def value? (e : Entry) (t : Target) : Option UInt16 :=
  if e.has .odexOnly && !t.odex then none
  else if e.minVersion.any (!t.version.supports ·) then none
  else (e.numberings.find? (·.covers t)).map Numbering.value

end Entry

end Opcode

end Dalvik
