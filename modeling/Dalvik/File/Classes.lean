import Dalvik.AnnotationItem
import Dalvik.Class
import Dalvik.Code.Item
import Dalvik.Debug.Decode
import Dalvik.Debug.OffsetTable
import Dalvik.File.Source
import Dalvik.HiddenApi

/-!
# Reading classes

The definition of a class leads to its annotations, the initial values of its static fields, and
the data with its members.
-/
namespace Dalvik.DexFile
open Text

/-! ## Annotations -/

/-- The annotations of a class and of its members, by the indices of these. -/
structure Annotations where
  ofClass : List AnnotationItem := []
  ofFields : List (UInt32 × List AnnotationItem) := []
  ofMethods : List (UInt32 × List AnnotationItem) := []
  ofParameters : List (UInt32 × List (List AnnotationItem)) := []

/-- What is said of a member; the last entry for it counts. -/
def lastFor {α : Type} (entries : List (UInt32 × List α)) (index : UInt32) : List α :=
  (entries.reverse.lookup index).getD []

/-- The annotation at an offset. -/
def annotationAt (f : DexFile) (offset : UInt32) : Result AnnotationItem :=
  ((AnnotationItem.decode f.source).valueAt f.data offset.toNat).within
    s!"annotation at {hex offset.toNat}"

/-- The annotations of the set at an offset, none at offset 0. Offsets 0 in the set are left out. -/
def annotationSet (f : DexFile) (offset : UInt32) : Result (List AnnotationItem) := do
  if offset = 0 then return []
  let offsets ← (decodeOffsets .set).valueAt f.data offset.toNat
  (offsets.filter (· ≠ 0)).mapM f.annotationAt

/-- The sets in the list at an offset. -/
def annotationSetList (f : DexFile) (offset : UInt32) : Result (List (List AnnotationItem)) := do
  let offsets ← (decodeOffsets .setList).valueAt f.data offset.toNat
  offsets.mapM f.annotationSet

/-- The annotations that the directory at the cursor leads to. -/
def decodeDirectory (f : DexFile) : Decoder Annotations := do
  let d ← OffsetDirectory.decode
  let ofClass ← f.annotationSet d.classOffset
  let ofFields ← d.fields.mapM fun m => return (m.member, ← f.annotationSet m.offset)
  let ofMethods ← d.methods.mapM fun m => return (m.member, ← f.annotationSet m.offset)
  let ofParameters ← d.parameters.mapM fun m => return (m.member, ← f.annotationSetList m.offset)
  return { ofClass, ofFields, ofMethods, ofParameters }

/-- The annotations that the directory at an offset leads to, none at offset 0. -/
def annotations (f : DexFile) (offset : UInt32) : Result Annotations :=
  if offset = 0 then .ok {}
  else (f.decodeDirectory.valueAt f.data offset.toNat).within
    s!"annotations directory at {hex offset.toNat}"

/-! ## Members -/

/-- Reads members of a class. The state is the place of the restriction of the next member. -/
abbrev MemberDecoder := StateT (Option Nat) Decoder

/-- The access flags and the restriction of the next member, for the flags that are stored. -/
def memberFlags (f : DexFile) (stored : UInt32) : MemberDecoder (UInt32 × UInt32) := do
  if !f.options.hiddenApiFlags then return (stored, 0)
  if f.hiddenApiOffset?.isNone && f.api == HiddenApi.packedApi then
    return HiddenApi.unpack stored
  let (restriction, next) ← HiddenApi.next f.data (← get)
  set next
  return (stored, restriction)

/-- The index of the next member, which is stored as the difference to the one before. -/
def nextIndex (previous : Option UInt32) : Decoder UInt32 := do
  let difference ← Decoder.uleb
  match previous with
  | none => return difference
  | some p =>
    if difference = 0 ∨ UInt32.size ≤ p.toNat + difference.toNat then
      Decoder.fail (.memberDelta difference.toNat p.toNat)
    return p + difference

/-- The values that are stored at an offset for the first static fields, none at offset 0. -/
def staticValues (f : DexFile) (offset : UInt32) : Result (List Value) :=
  if offset = 0 then .ok []
  else ((decodeArray f.source).valueAt f.data offset.toNat).within
    s!"static values at {hex offset.toNat}"

/-- The first of the values, or the default of the field's type when they have run out. -/
def initialValue (id : FieldId) : List Value → Result Value
  | v :: _ => .ok v
  | [] => (Value.defaultFor id.type).within s!"field {id}"

/-- `count` fields, static ones if `values` are given. -/
def decodeFields (f : DexFile) (a : Annotations) :
    (count : Nat) → (previous : Option UInt32) → (values : Option (List Value)) →
      MemberDecoder (List FieldDef)
  | 0, _, _ => return []
  | count + 1, previous, values => do
    let index ← nextIndex previous
    let id ← f.field index
    let (access, restriction) ← f.memberFlags (← Decoder.uleb)
    let value ← (values.mapM (initialValue id) : Result (Option Value))
    let d : FieldDef := {
      name := id.name
      type := id.type
      access, restriction, value
      annotations := lastFor a.ofFields index }
    return d :: (← f.decodeFields a count (some index) (values.map List.tail))

/-- The debug information of a method, none at offset 0. -/
def debugInfo (f : DexFile) (index : UInt32) (item : CodeItem) : Result (Option DebugInfo) := do
  if !f.options.debugInfo then return none
  let offset ← match f.header.compact with
    | some c => (DebugTable.lookup c.debugTable.toNat c.debugIndex.toNat c.debugBase
        f.methods.size index).valueAt f.data 0
    | none => pure item.debugOffset
  if offset = 0 then return none
  let d ← ((DebugInfo.decode f.source).valueAt f.data offset.toNat).within
    s!"debug info at {hex offset.toNat}"
  return some d

/-- The code item at an offset, none at offset 0. -/
def codeItem (f : DexFile) (offset : UInt32) : Result (Option CodeItem) := do
  if offset = 0 then return none
  let decoder := CodeItem.decode f.version.isCompact f.opcodes f.source
  let item ← (decoder.valueAt f.data offset.toNat).within s!"code item at {hex offset.toNat}"
  return some item

/-- The method with an index, whose flags and offset of code have been read. -/
def methodDef (f : DexFile) (a : Annotations) (index : UInt32) (id : MethodId)
    (access restriction codeOffset : UInt32) : Result MethodDef := do
  let item ← f.codeItem codeOffset
  let debug ← match item with
    | some i => f.debugInfo index i
    | none => pure none
  let names := (debug.map DebugInfo.parameters).getD []
  let sets := lastFor a.ofParameters index
  return {
    name := id.name
    returnType := id.proto.returnType
    parameters := id.proto.parameters.zipIdx.map fun (type, i) =>
      { type, name := names[i]?.join, annotations := sets.getD i [] }
    access, restriction
    code := item.map (·.toCode ((debug.map DebugInfo.items).getD []))
    annotations := lastFor a.ofMethods index }

/-- `count` methods. -/
def decodeMethods (f : DexFile) (a : Annotations) :
    (count : Nat) → (previous : Option UInt32) → MemberDecoder (List MethodDef)
  | 0, _ => return []
  | count + 1, previous => do
    let index ← nextIndex previous
    let id ← f.method index
    let (access, restriction) ← f.memberFlags (← Decoder.uleb)
    let codeOffset ← Decoder.uleb
    let d ← (f.methodDef a index id access restriction codeOffset).within s!"method {id}"
    return d :: (← f.decodeMethods a count (some index))

/-! ## Classes -/

/-- The place of the first restriction of a class, if restrictions are stored and asked for. -/
def firstRestriction (f : DexFile) (index : Nat) : Result (Option Nat) :=
  match f.hiddenApiOffset? with
  | some offset =>
    if f.options.hiddenApiFlags then
      ((HiddenApi.locate offset index).valueAt f.data offset).within
        s!"hidden api section at {hex offset}"
    else .ok none
  | none => .ok none

/-- The class with its members from the data at the cursor. -/
def decodeMembers (f : DexFile) (index : Nat) (a : Annotations) (values : List Value)
    (c : ClassDef) : Decoder ClassDef := do
  let staticFields := (← Decoder.uleb).toNat
  let instanceFields := (← Decoder.uleb).toNat
  let directMethods := (← Decoder.uleb).toNat
  let virtualMethods := (← Decoder.uleb).toNat
  let count := staticFields + instanceFields + directMethods + virtualMethods
  -- a member takes two bytes at least
  if (← Decoder.available) / 2 < count then Decoder.fail (.classMembers count)
  let members : MemberDecoder ClassDef := do
    let staticFields ← f.decodeFields a staticFields none (some values)
    let instanceFields ← f.decodeFields a instanceFields none none
    let directMethods ← f.decodeMethods a directMethods none
    let virtualMethods ← f.decodeMethods a virtualMethods none
    return { c with staticFields, instanceFields, directMethods, virtualMethods }
  members.run' (← f.firstRestriction index)

/-- The class of a definition. -/
def ofClassItem (f : DexFile) (index : Nat) (i : IdItem.Class) : Result ClassDef := do
  let type ← f.type i.type
  let superclass ← (optionalIndex? i.superclass).mapM f.type
  let interfaces ← f.typeList i.interfaces
  let sourceFile ← (optionalIndex? i.sourceFile).mapM f.string
  let a ← f.annotations i.annotations
  let values ← f.staticValues i.staticValues
  let c : ClassDef :=
    { type, access := i.access, superclass, interfaces, sourceFile, annotations := a.ofClass }
  if i.data = 0 then return c
  let members := (f.decodeMembers index a values c).valueAt f.data i.data.toNat
  (members.within s!"class data at {hex i.data.toNat}").within (toString c)

/-- The class with an index. The low 32 bits of the index say where its definition is. -/
def classDef (f : DexFile) (index : Nat) : Result ClassDef := do
  let position ← f.classes.position (UInt32.ofNat index)
  Result.within s!"class def {index}" do
    f.ofClassItem index (← IdItem.Class.decode.valueAt f.bytes position)

/-- All classes. -/
def dex (f : DexFile) : Result Dex := do
  return ⟨← (List.range f.classCount).mapM f.classDef⟩

end Dalvik.DexFile
