import Dalvik.File
import Dalvik.Text.ModifiedUtf8
import Dalvik.Value.Codec

/-!
# Reading ids

The entries of the pools of a file by their indices. Nothing is remembered: an entry is read from
the bytes whenever it is asked for.
-/
namespace Dalvik.DexFile
open Text

/-- The item with an index. A section has a cell for each of its items, where the value could be
remembered; that cell is looked at first. -/
def item {α : Type} (f : DexFile) (s : IdSection) (d : Decoder α) (index : UInt32) : Result α := do
  let position ← s.position index
  Access.entry index.toNat s.size
  d.valueAt f.bytes position

def string (f : DexFile) (index : UInt32) : Result String := do
  let offset ← f.item f.strings Decoder.u4 index
  (decodeStringData.valueAt f.data offset.toNat).within s!"string data at {hex offset.toNat}"

def type (f : DexFile) (index : UInt32) : Result TypeId := do
  return ⟨← f.string (← f.item f.types Decoder.u4 index)⟩

/-- The types of a list at the cursor. -/
def decodeTypes (f : DexFile) : Decoder (List TypeId) := do
  let start ← Decoder.position
  let size := (← Decoder.u4).toNat
  if (← Decoder.available) / 2 < size then Decoder.fail (.typeListSize start size)
  Decoder.repeated (do f.type (← Decoder.u2).toUInt32) size

/-- The types of the list at an offset, none at offset 0. -/
def typeList (f : DexFile) (offset : UInt32) : Result (List TypeId) :=
  if offset = 0 then .ok [] else f.decodeTypes.valueAt f.data offset.toNat

def proto (f : DexFile) (index : UInt32) : Result ProtoId := do
  let p ← f.item f.protos IdItem.Proto.decode index
  let returnType ← f.type p.returnType
  return ⟨returnType, ← f.typeList p.parameters⟩

def field (f : DexFile) (index : UInt32) : Result FieldId := do
  let m ← f.item f.fields IdItem.Member.decode index
  let declaringClass ← f.type m.declaringClass.toUInt32
  let type ← f.type m.signature.toUInt32
  return ⟨declaringClass, ← f.string m.name, type⟩

def method (f : DexFile) (index : UInt32) : Result MethodId := do
  let m ← f.item f.methods IdItem.Member.decode index
  let declaringClass ← f.type m.declaringClass.toUInt32
  let proto ← f.proto m.signature.toUInt32
  return ⟨declaringClass, ← f.string m.name, proto⟩

/-- The way of access decides what the handle reaches. -/
def methodHandle (f : DexFile) (index : UInt32) : Result MethodHandle := do
  let h ← f.item f.methodHandles IdItem.Handle.decode index
  let kind ← HandleKind.ofCode h.kind
  let member := h.member.toUInt32
  if kind.isMethodAccess then return ⟨kind, .method (← f.method member)⟩
  else return ⟨kind, .field (← f.field member)⟩

/-- The entries that values refer to; no value refers to a call site. -/
def valueSource (f : DexFile) : Source where
  string := f.string
  type := f.type
  proto := f.proto
  field := f.field
  method := f.method
  methodHandle := f.methodHandle
  callSite index := .error (.ofCause (.bounds PoolKind.callSite.name index.toNat 0))

def callSite (f : DexFile) (index : UInt32) : Result CallSite := do
  let offset ← f.item f.callSites Decoder.u4 index
  let values ← ((decodeArray f.valueSource).valueAt f.data offset.toNat).within
    s!"call site item at {hex offset.toNat}"
  CallSite.ofValues (CallSite.nameOf index.toNat) values

def source (f : DexFile) : Source := { f.valueSource with callSite := f.callSite }

end Dalvik.DexFile
