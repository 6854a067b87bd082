import Dalvik.Pools
import Dalvik.Opcode

/-!
# Instructions

An instruction is an opcode with the operands of one format. Registers, literals and branch offsets
are kept as they are stored; references are kept as the values they refer to. Tables that lie in the
code are instructions too.
-/
namespace Dalvik
open Text

/-- An operand that refers to an entry of a pool. -/
inductive Reference where
  | string (text : String)
  | type (id : TypeId)
  | field (id : FieldId)
  | method (id : MethodId)
  | proto (id : ProtoId)
  | callSite (site : CallSite)
  | methodHandle (handle : MethodHandle)
  /-- An index with no pool behind it. -/
  | raw (index : UInt32)
  deriving DecidableEq, Hashable

namespace Reference

def kind : Reference → ReferenceKind
  | string _ => .string
  | type _ => .type
  | field _ => .field
  | method _ => .method
  | proto _ => .proto
  | callSite _ => .callSite
  | methodHandle _ => .methodHandle
  | raw _ => .raw

instance : ToString Reference where
  toString
    | string text => quoted text
    | type id => toString id
    | field id => toString id
    | method id => toString id
    | proto id => toString id
    | callSite site => site.name
    | methodHandle handle => toString handle
    | raw index => s!"@{index}"

end Reference

/-- A case of a sparse switch: a key and the branch offset for it. -/
structure SwitchCase where
  key : Int32
  offset : Int32
  deriving DecidableEq, Hashable, Repr

def SwitchCase.cmp : SwitchCase → SwitchCase → Ordering :=
  compareLex (compareOn key) (compareOn offset)

/-- The operands of an instruction; the constructor is the format. -/
inductive Operands where
  | f10t (offset : Int32)
  | f10x
  | f11n (a : UInt8) (literal : Int32)
  | f11x (a : UInt8)
  | f12x (a b : UInt8)
  | f20t (offset : Int32)
  | f21c (a : UInt8) (reference : Reference)
  /-- The low half of the literal is clear. -/
  | f21ih (a : UInt8) (literal : Int32)
  /-- All but the top 16 bits of the literal are clear. -/
  | f21lh (a : UInt8) (literal : Int64)
  | f21s (a : UInt8) (literal : Int32)
  | f21t (a : UInt8) (offset : Int32)
  | f22b (a b : UInt8) (literal : Int32)
  | f22c (a b : UInt8) (reference : Reference)
  | f22s (a b : UInt8) (literal : Int32)
  | f22t (a b : UInt8) (offset : Int32)
  | f22x (a : UInt8) (b : UInt16)
  | f23x (a b c : UInt8)
  | f30t (offset : Int32)
  | f31c (a : UInt8) (reference : Reference)
  | f31i (a : UInt8) (literal : Int32)
  | f31t (a : UInt8) (offset : Int32)
  | f32x (a b : UInt16)
  /-- At most five registers, each below 16. -/
  | f35c (registers : List UInt8) (reference : Reference)
  | f3rc (start : UInt16) (count : UInt8) (reference : Reference)
  | f45cc (registers : List UInt8) (reference reference2 : Reference)
  | f4rcc (start : UInt16) (count : UInt8) (reference reference2 : Reference)
  | f51l (a : UInt8) (literal : Int64)
  /-- The elements of an array, each of `width` bytes. -/
  | arrayPayload (width : UInt16) (elements : List Int64)
  | packedSwitchPayload (firstKey : Int32) (targets : List Int32)
  | sparseSwitchPayload (cases : List SwitchCase)
  deriving DecidableEq, Hashable

namespace Operands

def format : Operands → Format
  | f10t .. => .f10t
  | f10x => .f10x
  | f11n .. => .f11n
  | f11x .. => .f11x
  | f12x .. => .f12x
  | f20t .. => .f20t
  | f21c .. => .f21c
  | f21ih .. => .f21ih
  | f21lh .. => .f21lh
  | f21s .. => .f21s
  | f21t .. => .f21t
  | f22b .. => .f22b
  | f22c .. => .f22c
  | f22s .. => .f22s
  | f22t .. => .f22t
  | f22x .. => .f22x
  | f23x .. => .f23x
  | f30t .. => .f30t
  | f31c .. => .f31c
  | f31i .. => .f31i
  | f31t .. => .f31t
  | f32x .. => .f32x
  | f35c .. => .f35c
  | f3rc .. => .f3rc
  | f45cc .. => .f45cc
  | f4rcc .. => .f4rcc
  | f51l .. => .f51l
  | arrayPayload .. => .arrayPayload
  | packedSwitchPayload .. => .packedSwitchPayload
  | sparseSwitchPayload .. => .sparseSwitchPayload

/-- The size in code units, tables included. -/
def units : Operands → Nat
  | arrayPayload width elements => 4 + (elements.length * width.toNat + 1) / 2
  | packedSwitchPayload _ targets => 4 + targets.length * 2
  | sparseSwitchPayload cases => 2 + cases.length * 4
  | operands => operands.format.units

/-- The references among the operands, the first one first. -/
def references : Operands → List Reference
  | f21c _ r | f22c _ _ r | f31c _ r | f35c _ r | f3rc _ _ r => [r]
  | f45cc _ r s | f4rcc _ _ r s => [r, s]
  | _ => []

end Operands

structure Instruction where
  opcode : Opcode
  operands : Operands
  deriving DecidableEq, Hashable

namespace Instruction

def format (i : Instruction) : Format := i.operands.format

def units (i : Instruction) : Nat := i.operands.units

def isPayload (i : Instruction) : Bool := i.format.isPayload

def references (i : Instruction) : List Reference := i.operands.references

/-- The widths that the elements of an array can have. -/
def elementWidths : List UInt16 := [1, 2, 4, 8]

/-- True if the operands have the format of the opcode and the elements of an array have one of the
widths that are defined for them. -/
def WellFormed (i : Instruction) : Prop :=
  i.format = i.opcode.format ∧
    match i.operands with
    | .arrayPayload width _ => width ∈ elementWidths
    | _ => True

/-! ## Tables in the code -/

def packedSwitch (firstKey : Int32) (targets : List Int32) : Result Instruction := do
  return ⟨← Opcode.ofName "packed-switch-payload", .packedSwitchPayload firstKey targets⟩

/-- A sparse switch with its cases in the order of their keys. -/
def sparseSwitch (cases : List SwitchCase) : Result Instruction := do
  return ⟨← Opcode.ofName "sparse-switch-payload",
    .sparseSwitchPayload (sortedBy SwitchCase.cmp cases)⟩

def arrayData (width : UInt16) (elements : List Int64) : Result Instruction := do
  if width ∈ elementWidths then
    return ⟨← Opcode.ofName "array-payload", .arrayPayload width elements⟩
  else Result.violation (.elementWidth width.toNat)

/-! ## Text -/

/-- A branch offset, always with its sign. -/
def offsetText (offset : Int32) : String :=
  if 0 ≤ offset.toInt then s!"+{offset.toInt}" else toString offset.toInt

def registerList (registers : List UInt8) : String :=
  "\x7b" ++ ", ".intercalate (registers.map fun r => s!"v{r}") ++ "\x7d"

def registerRange (start : UInt16) (count : UInt8) : String :=
  if count = 0 then "\x7b\x7d"
  else s!"\x7bv{start} .. v{start.toNat + count.toNat - 1}\x7d"

/-- The operands as they follow the name of the opcode. -/
def operandText : Operands → String
  | .f10x => ""
  | .f10t offset | .f20t offset | .f30t offset => s!" {offsetText offset}"
  | .f11x a => s!" v{a}"
  | .f11n a literal | .f21ih a literal | .f21s a literal | .f31i a literal =>
    s!" v{a}, #{literal}"
  | .f21lh a literal | .f51l a literal => s!" v{a}, #{literal}"
  | .f12x a b => s!" v{a}, v{b}"
  | .f21c a reference | .f31c a reference => s!" v{a}, {reference}"
  | .f21t a offset | .f31t a offset => s!" v{a}, {offsetText offset}"
  | .f22b a b literal | .f22s a b literal => s!" v{a}, v{b}, #{literal}"
  | .f22c a b reference => s!" v{a}, v{b}, {reference}"
  | .f22t a b offset => s!" v{a}, v{b}, {offsetText offset}"
  | .f22x a b => s!" v{a}, v{b}"
  | .f32x a b => s!" v{a}, v{b}"
  | .f23x a b c => s!" v{a}, v{b}, v{c}"
  | .f35c registers reference => s!" {registerList registers}, {reference}"
  | .f45cc registers reference reference2 =>
    s!" {registerList registers}, {reference}, {reference2}"
  | .f3rc start count reference => s!" {registerRange start count}, {reference}"
  | .f4rcc start count reference reference2 =>
    s!" {registerRange start count}, {reference}, {reference2}"
  | .arrayPayload width elements => s!" width {width} size {elements.length}"
  | .packedSwitchPayload firstKey targets => s!" first {firstKey} size {targets.length}"
  | .sparseSwitchPayload cases => s!" size {cases.length}"

instance : ToString Instruction := ⟨fun i => i.opcode.name ++ operandText i.operands⟩

end Instruction

end Dalvik
