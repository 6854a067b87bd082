import Dalvik.File.Classes
import Dalvik.Recall.Code
import Dalvik.Recall.Source

/-!
# Reading classes with a memory

A class is read as without a memory, and what it leads to by an index or by the offset of a list of
types or of a set of annotations is looked up with its help. A reader is asked for entries and for
classes one after another, and what one call has found is there for the next.
-/
namespace Dalvik
open Text

namespace Recall
variable (f : DexFile)

/-! ## Annotations -/

/-- The annotation at an offset. -/
def annotationAt (offset : UInt32) : Recall AnnotationItem :=
  ((source f).decodeAnnotationItem.valueAt f.data offset.toNat).within
    s!"annotation at {hex offset.toNat}"

/-- The annotations of the set at an offset, none at offset 0. Offsets 0 in the set are left out. -/
def annotationSet (offset : UInt32) : Recall (List AnnotationItem) :=
  if offset = 0 then return []
  else remembered (.annotationSet offset) do
    let offsets ← (decodeOffsets .set).valueAt f.data offset.toNat
    (offsets.filter (· ≠ 0)).mapM (annotationAt f)

/-- The sets in the list at an offset. -/
def annotationSetList (offset : UInt32) : Recall (List (List AnnotationItem)) := do
  let offsets ← (decodeOffsets .setList).valueAt f.data offset.toNat
  offsets.mapM (annotationSet f)

/-- The annotations that the directory at the cursor leads to. -/
def decodeDirectory : RecallDecoder DexFile.Annotations := do
  let d ← OffsetDirectory.decode
  let ofClass ← annotationSet f d.classOffset
  let ofFields ← d.fields.mapM fun m => return (m.member, ← annotationSet f m.offset)
  let ofMethods ← d.methods.mapM fun m => return (m.member, ← annotationSet f m.offset)
  let ofParameters ← d.parameters.mapM fun m => return (m.member, ← annotationSetList f m.offset)
  return { ofClass, ofFields, ofMethods, ofParameters }

/-- The annotations that the directory at an offset leads to, none at offset 0. -/
def annotations (offset : UInt32) : Recall DexFile.Annotations :=
  if offset = 0 then return {}
  else ((decodeDirectory f).valueAt f.data offset.toNat).within
    s!"annotations directory at {hex offset.toNat}"

/-! ## Members -/

/-- Reads members of a class with the help of the memory. The state is the place of the restriction
of the next member. -/
abbrev MemberDecoder := StateT (Option Nat) RecallDecoder

/-- The access flags and the restriction of the next member, for the flags that are stored. -/
def memberFlags (stored : UInt32) : MemberDecoder (UInt32 × UInt32) := fun place =>
  liftM (f.memberFlags stored place)

/-- The values that are stored at an offset for the first static fields, none at offset 0. -/
def staticValues (offset : UInt32) : Recall (List Value) :=
  if offset = 0 then return []
  else ((source f).decodeArray.valueAt f.data offset.toNat).within
    s!"static values at {hex offset.toNat}"

/-- `count` fields, static ones if `values` are given. -/
def decodeFields (a : DexFile.Annotations) :
    (count : Nat) → (previous : Option UInt32) → (values : Option (List Value)) →
      MemberDecoder (List FieldDef)
  | 0, _, _ => return []
  | count + 1, previous, values => do
    let index ← DexFile.nextIndex previous
    let id ← field f index
    let (access, restriction) ← memberFlags f (← Decoder.uleb)
    let value ← (values.mapM (DexFile.initialValue id) : Result (Option Value))
    let d : FieldDef := {
      name := id.name
      type := id.type
      access, restriction, value
      annotations := DexFile.lastFor a.ofFields index }
    return d :: (← decodeFields a count (some index) (values.map List.tail))

/-- The debug information of a method, none at offset 0. -/
def debugInfo (index : UInt32) (item : CodeItem) : Recall (Option DebugInfo) := do
  if !f.options.debugInfo then return none
  let offset ← match f.header.compact with
    | some c => (DebugTable.lookup c.debugTable.toNat c.debugIndex.toNat c.debugBase
        f.methods.size index).valueAt f.data 0
    | none => pure item.debugOffset
  if offset = 0 then return none
  let d ← ((source f).decodeDebug.valueAt f.data offset.toNat).within
    s!"debug info at {hex offset.toNat}"
  return some d

/-- The code item at an offset, none at offset 0. -/
def codeItem (offset : UInt32) : Recall (Option CodeItem) := do
  if offset = 0 then return none
  let decoder := (source f).decodeCode f.version.isCompact f.opcodes
  let item ← (decoder.valueAt f.data offset.toNat).within s!"code item at {hex offset.toNat}"
  return some item

/-- The method with an index, whose flags and offset of code have been read. -/
def methodDef (a : DexFile.Annotations) (index : UInt32) (id : MethodId)
    (access restriction codeOffset : UInt32) : Recall MethodDef := do
  let item ← codeItem f codeOffset
  let debug ← match item with
    | some i => debugInfo f index i
    | none => pure none
  let names := (debug.map DebugInfo.parameters).getD []
  let sets := DexFile.lastFor a.ofParameters index
  return {
    name := id.name
    returnType := id.proto.returnType
    parameters := id.proto.parameters.zipIdx.map fun (type, i) =>
      { type, name := names[i]?.join, annotations := sets.getD i [] }
    access, restriction
    code := item.map (·.toCode ((debug.map DebugInfo.items).getD []))
    annotations := DexFile.lastFor a.ofMethods index }

/-- `count` methods. -/
def decodeMethods (a : DexFile.Annotations) :
    (count : Nat) → (previous : Option UInt32) → MemberDecoder (List MethodDef)
  | 0, _ => return []
  | count + 1, previous => do
    let index ← DexFile.nextIndex previous
    let id ← method f index
    let (access, restriction) ← memberFlags f (← Decoder.uleb)
    let codeOffset ← Decoder.uleb
    let d ← (methodDef f a index id access restriction codeOffset).within s!"method {id}"
    return d :: (← decodeMethods a count (some index))

/-! ## Classes -/

/-- The class with its members from the data at the cursor. -/
def decodeMembers (index : Nat) (a : DexFile.Annotations) (values : List Value) (c : ClassDef) :
    RecallDecoder ClassDef := do
  let staticFields := (← Decoder.uleb).toNat
  let instanceFields := (← Decoder.uleb).toNat
  let directMethods := (← Decoder.uleb).toNat
  let virtualMethods := (← Decoder.uleb).toNat
  let count := staticFields + instanceFields + directMethods + virtualMethods
  -- a member takes two bytes at least
  if (← Decoder.available) / 2 < count then Decoder.fail (.classMembers count)
  let members : MemberDecoder ClassDef := do
    let staticFields ← decodeFields f a staticFields none (some values)
    let instanceFields ← decodeFields f a instanceFields none none
    let directMethods ← decodeMethods f a directMethods none
    let virtualMethods ← decodeMethods f a virtualMethods none
    return { c with staticFields, instanceFields, directMethods, virtualMethods }
  members.run' (← f.firstRestriction index)

/-- The class of a definition. -/
def ofClassItem (index : Nat) (i : IdItem.Class) : Recall ClassDef := do
  let type ← type f i.type
  let superclass ← (optionalIndex? i.superclass).mapM (Recall.type f)
  let interfaces ← typeList f i.interfaces
  let sourceFile ← (optionalIndex? i.sourceFile).mapM (string f)
  let a ← annotations f i.annotations
  let values ← staticValues f i.staticValues
  let c : ClassDef :=
    { type, access := i.access, superclass, interfaces, sourceFile, annotations := a.ofClass }
  if i.data = 0 then return c
  let members := (decodeMembers f index a values c).valueAt f.data i.data.toNat
  (members.within s!"class data at {hex i.data.toNat}").within (toString c)

/-- The class with an index. The low 32 bits of the index say where its definition is. -/
def classDef (index : Nat) : Recall ClassDef := do
  let position ← f.classes.position (UInt32.ofNat index)
  Recall.within s!"class def {index}" do
    ofClassItem f index (← IdItem.Class.decode.valueAt f.bytes position)

end Recall

/-! ## Calls -/

/-- What a reader can be asked for. -/
inductive Call where
  | string (index : UInt32)
  | type (index : UInt32)
  | proto (index : UInt32)
  | field (index : UInt32)
  | method (index : UInt32)
  | methodHandle (index : UInt32)
  | callSite (index : UInt32)
  | classDef (index : Nat)
  deriving DecidableEq, Repr

namespace Call

/-- The type of what a call gives. -/
def Value : Call → Type
  | string _ => String
  | type _ => TypeId
  | proto _ => ProtoId
  | field _ => FieldId
  | method _ => MethodId
  | methodHandle _ => MethodHandle
  | callSite _ => CallSite
  | classDef _ => ClassDef

/-- What a call gives with the help of what earlier calls have found. -/
def run (f : DexFile) : (c : Call) → Recall c.Value
  | string index => Recall.string f index
  | type index => Recall.type f index
  | proto index => Recall.proto f index
  | field index => Recall.field f index
  | method index => Recall.method f index
  | methodHandle index => Recall.methodHandle f index
  | callSite index => Recall.callSite f index
  | classDef index => Recall.classDef f index

/-- What the calls give one after another, from what has been found so far. -/
def runAll (f : DexFile) : List Call → Memory → List (Σ c : Call, Result c.Value)
  | [], _ => []
  | c :: calls, μ =>
    let (r, μ) := c.run f μ
    ⟨c, r⟩ :: runAll f calls μ

end Call
end Dalvik
