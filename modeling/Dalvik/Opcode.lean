import Dalvik.Opcode.Entries
import Std.Data.HashMap

/-!
# Opcodes

An opcode is a place in the table of opcodes. On a target it may have a number, and a table of the
target leads back from numbers to opcodes.
-/
namespace Dalvik

structure Opcode where
  index : Fin Opcode.count
  deriving DecidableEq, Hashable, Repr

namespace Opcode

def entryTable : Array Entry := entries.toArray

theorem size_entryTable : entryTable.size = count := by
  rw [entryTable, List.size_toArray, length_entries]

def entry (o : Opcode) : Entry :=
  entryTable[o.index.cast size_entryTable.symm]

def name (o : Opcode) : String := o.entry.name

def format (o : Opcode) : Format := o.entry.format

def reference (o : Opcode) : ReferenceKind := o.entry.reference

def reference2 (o : Opcode) : ReferenceKind := o.entry.reference2

def minVersion (o : Opcode) : Option Version := o.entry.minVersion

def flags (o : Opcode) : UInt32 := o.entry.flags

def has (o : Opcode) (trait : Trait) : Bool := o.entry.has trait

instance : ToString Opcode := ⟨name⟩

/-- True if execution may go on with the next instruction. -/
def canContinue (o : Opcode) : Bool := !o.has .endsFlow

def isConditionalBranch (o : Opcode) : Bool := o.has .branch && !o.has .unconditional

def isPayload (o : Opcode) : Bool := o.format.isPayload

/-- All opcodes in the order of the table. -/
def all : List Opcode := (List.finRange count).map Opcode.mk

theorem mem_all (o : Opcode) : o ∈ all := by simp [all]

def ofName (name : String) : Result Opcode :=
  match all.find? (·.name = name) with
  | some o => .ok o
  | none => Result.unsupported (.unknownOpcode name)

/-- The number of the opcode on a target, if it exists there. -/
def value? (o : Opcode) (t : Target) : Option UInt16 := o.entry.value? t

end Opcode

/-- Both ways between the opcodes and the numbers of one target. -/
structure OpcodeTable where
  target : Target
  byValue : Std.HashMap UInt16 Opcode

namespace OpcodeTable

/-- Records an opcode under its number, in place of an earlier one with that number. -/
def record (target : Target) (table : Std.HashMap UInt16 Opcode) (o : Opcode) :
    Std.HashMap UInt16 Opcode :=
  match o.value? target with
  | some value => table.insert value o
  | none => table

def ofTarget (target : Target) : OpcodeTable :=
  ⟨target, Opcode.all.foldl (record target) ∅⟩

def opcode (t : OpcodeTable) (value : UInt16) : Result Opcode :=
  match t.byValue[value]? with
  | some o => .ok o
  | none => Result.malformed (.noOpcode value.toNat (toString t.target))

def value (t : OpcodeTable) (o : Opcode) : Result UInt16 :=
  match o.value? t.target with
  | some value => .ok value
  | none => Result.unsupported (.opcode o.name (toString t.target))

end OpcodeTable

end Dalvik
