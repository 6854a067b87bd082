import Dalvik.File.Source
import Dalvik.Recall.Value

/-!
# Reading ids with a memory

The entries of the pools by their indices. Every entry that has been read is kept, as is every list
of types that a prototype or a class leads to.
-/
namespace Dalvik.Recall
open Text

variable (f : DexFile)

/-- The value at an index of a section. The index is checked and the cell of the item looked at; if
it is empty the value is found from the item. -/
def entry {β : Type} (key : Key) (s : IdSection) (d : Decoder β) (index : UInt32)
    (find : β → Recall key.Value) : Recall key.Value := do
  let position ← s.position index
  Access.entry index.toNat s.size
  remembered key do find (← d.valueAt f.bytes position)

def string (index : UInt32) : Recall String :=
  entry f (.string index) f.strings Decoder.u4 index fun offset => do
    (decodeStringData.valueAt f.data offset.toNat).within s!"string data at {hex offset.toNat}"

def type (index : UInt32) : Recall TypeId :=
  entry f (.type index) f.types Decoder.u4 index fun descriptor => do
    return ⟨← string f descriptor⟩

/-- The types of a list at the cursor. -/
def decodeTypes : RecallDecoder (List TypeId) := do
  let start ← Decoder.position
  let size := (← Decoder.u4).toNat
  if (← Decoder.available) / 2 < size then Decoder.fail (.typeListSize start size)
  RecallDecoder.repeated (do type f (← Decoder.u2).toUInt32) size

/-- The types of the list at an offset, none at offset 0. -/
def typeList (offset : UInt32) : Recall (List TypeId) :=
  if offset = 0 then return []
  else remembered (.typeList offset) ((decodeTypes f).valueAt f.data offset.toNat)

def proto (index : UInt32) : Recall ProtoId :=
  entry f (.proto index) f.protos IdItem.Proto.decode index fun p => do
    let returnType ← type f p.returnType
    return ⟨returnType, ← typeList f p.parameters⟩

def field (index : UInt32) : Recall FieldId :=
  entry f (.field index) f.fields IdItem.Member.decode index fun m => do
    let declaringClass ← type f m.declaringClass.toUInt32
    let type ← type f m.signature.toUInt32
    return ⟨declaringClass, ← string f m.name, type⟩

def method (index : UInt32) : Recall MethodId :=
  entry f (.method index) f.methods IdItem.Member.decode index fun m => do
    let declaringClass ← type f m.declaringClass.toUInt32
    let proto ← proto f m.signature.toUInt32
    return ⟨declaringClass, ← string f m.name, proto⟩

def methodHandle (index : UInt32) : Recall MethodHandle :=
  entry f (.methodHandle index) f.methodHandles IdItem.Handle.decode index fun h => do
    let kind ← HandleKind.ofCode h.kind
    let member := h.member.toUInt32
    if kind.isMethodAccess then return ⟨kind, .method (← method f member)⟩
    else return ⟨kind, .field (← field f member)⟩

/-- The entries that values refer to; no value refers to a call site. -/
def valueSource : RecallSource where
  string := string f
  type := type f
  proto := proto f
  field := field f
  method := method f
  methodHandle := methodHandle f
  callSite index := f.valueSource.callSite index

def callSite (index : UInt32) : Recall CallSite :=
  entry f (.callSite index) f.callSites Decoder.u4 index fun offset => do
    let values ← ((valueSource f).decodeArray.valueAt f.data offset.toNat).within
      s!"call site item at {hex offset.toNat}"
    CallSite.ofValues (CallSite.nameOf index.toNat) values

def source : RecallSource := { valueSource f with callSite := callSite f }

end Dalvik.Recall
