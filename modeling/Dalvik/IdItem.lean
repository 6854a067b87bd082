import Dalvik.Decoder

/-!
# Ids in bytes

The items of fixed size that stand for the entries of the pools and for classes. They refer to each
other by index, and to the data by offset.
-/
namespace Dalvik

/-- The index that stands for none. -/
def noIndex : UInt32 := 0xffffffff

/-- An index that need not be there. -/
def optionalIndex? (index : UInt32) : Option UInt32 := if index = noIndex then none else some index

theorem optionalIndex?_getD {index : Option UInt32} (h : index ≠ some noIndex) :
    optionalIndex? (index.getD noIndex) = index := by
  cases index with
  | none => rfl
  | some i =>
    have : i ≠ noIndex := fun e => h (e ▸ rfl)
    simp [optionalIndex?, this]

namespace IdItem

def stringSize : Nat := 4
def typeSize : Nat := 4
def callSiteSize : Nat := 4

/-- A prototype: its short form, its return type and the offset of its parameters. -/
structure Proto where
  shorty : UInt32
  returnType : UInt32
  parameters : UInt32
  deriving DecidableEq, Repr

namespace Proto

def size : Nat := 12

def encode (p : Proto) : Bytes :=
  Bytes.u4 p.shorty ++ Bytes.u4 p.returnType ++ Bytes.u4 p.parameters

def decode : Decoder Proto := return ⟨← Decoder.u4, ← Decoder.u4, ← Decoder.u4⟩

end Proto

/-- A field with its type, or a method with its prototype. -/
structure Member where
  declaringClass : UInt16
  signature : UInt16
  name : UInt32
  deriving DecidableEq, Repr

namespace Member

def size : Nat := 8

def encode (m : Member) : Bytes :=
  Bytes.u2 m.declaringClass ++ Bytes.u2 m.signature ++ Bytes.u4 m.name

def decode : Decoder Member := return ⟨← Decoder.u2, ← Decoder.u2, ← Decoder.u4⟩

end Member

/-- A method handle. -/
structure Handle where
  kind : UInt16
  member : UInt16
  deriving DecidableEq, Repr

namespace Handle

def size : Nat := 8

def encode (h : Handle) : Bytes :=
  Bytes.u2 h.kind ++ Bytes.u2 0 ++ Bytes.u2 h.member ++ Bytes.u2 0

def decode : Decoder Handle := do
  let kind ← Decoder.u2
  let _ ← Decoder.u2
  return ⟨kind, ← Decoder.u2⟩

end Handle

/-- The definition of a class. -/
structure Class where
  type : UInt32
  access : UInt32
  superclass : UInt32
  interfaces : UInt32
  sourceFile : UInt32
  annotations : UInt32
  data : UInt32
  staticValues : UInt32
  deriving DecidableEq, Repr

namespace Class

def size : Nat := 32

def encode (c : Class) : Bytes :=
  Bytes.u4 c.type ++ Bytes.u4 c.access ++ Bytes.u4 c.superclass ++ Bytes.u4 c.interfaces ++
    Bytes.u4 c.sourceFile ++ Bytes.u4 c.annotations ++ Bytes.u4 c.data ++ Bytes.u4 c.staticValues

def decode : Decoder Class :=
  return ⟨← Decoder.u4, ← Decoder.u4, ← Decoder.u4, ← Decoder.u4, ← Decoder.u4, ← Decoder.u4,
    ← Decoder.u4, ← Decoder.u4⟩

end Class

end IdItem

end Dalvik
