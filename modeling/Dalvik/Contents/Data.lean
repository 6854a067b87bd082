import Dalvik.Code.Item
import Dalvik.Contents
import Dalvik.Debug.Encode
import Dalvik.HiddenApi
import Dalvik.Options
import Dalvik.Text.ModifiedUtf8

/-!
# The data of a file

The sections with everything that is not of fixed size. Each item refers only to items that are
written before it. Compact files have their code first, so that its offsets are small.
-/
namespace Dalvik

def WriteOptions.target (o : WriteOptions) : Target :=
  ⟨o.version, o.options.targetApi, o.options.targetArt, o.options.allowOdex⟩

namespace Contents

def resolver (c : Contents) : Resolver := c.pools.resolver

/-- The alignment of lists of words. -/
def wordAlignment : Nat := 4

/-! ## Code -/

def debugInfoSection (c : Contents) (start : Nat) : Result DataSection :=
  DataSection.ofItems .debugInfo 1 (DebugInfo.encode c.resolver) start c.items.debugInfos.toList

/-- The first method that has the code item with an id. -/
def codeOwner? (c : Contents) (id : Nat) : Option MethodId :=
  ((c.classes.flatMap ClassEntry.methods).find? (·.code == some id)).map MethodEntry.id

/-- A code item with its id, which is named after its first owner. -/
def placeCode (c : Contents) (o : WriteOptions) (table : OpcodeTable) (debug : DataSection)
    (position : Nat) (entry : SharedCode × Nat) : Result Placed := do
  let (s, id) := entry
  let debugOffset ← debug.optionalOffset "debug info" s.debug
  let item : CodeItem :=
    ⟨s.code.registers, s.incoming, s.outgoing, debugOffset, s.code.instructions, s.code.tries⟩
  let placed := item.encode o.version.isCompact table c.resolver position
  match c.codeOwner? id with
  | some owner => placed.within s!"code item of {owner}"
  | none => placed

def codeSection (c : Contents) (o : WriteOptions) (debug : DataSection) (start : Nat) :
    Result DataSection :=
  let table := OpcodeTable.ofTarget o.target
  DataSection.build .codeItems (c.placeCode o table debug) start c.items.code.toList.zipIdx

/-! ## Values and annotations -/

def encodedArraySection (c : Contents) (start : Nat) : Result DataSection :=
  DataSection.ofItems .encodedArrays 1 (encodeArray c.resolver) start c.items.encodedArrays.toList

def annotationSection (c : Contents) (start : Nat) : Result DataSection :=
  DataSection.ofItems .annotationItems 1 (AnnotationItem.encode c.resolver) start
    c.items.annotations.toList

def annotationSetSection (c : Contents) (annotations : DataSection) (start : Nat) :
    Result DataSection :=
  let encode (set : List AnnotationItem) : Result Bytes := do
    let offsets ← set.mapM fun a => annotations.offset "annotation" (c.items.annotations.id? a)
    return encodeOffsets offsets
  DataSection.ofItems .annotationSets wordAlignment encode start c.items.annotationSets.toList

/-- The offset of a set; an empty set is nowhere. -/
def setOffset (c : Contents) (sets : DataSection) (set : List AnnotationItem) : Result UInt32 :=
  if set.isEmpty then .ok 0 else sets.offset "annotation set" (c.items.annotationSets.id? set)

def annotationSetListSection (c : Contents) (sets : DataSection) (start : Nat) :
    Result DataSection :=
  let encode (lists : List (List AnnotationItem)) : Result Bytes :=
    return encodeOffsets (← lists.mapM (c.setOffset sets))
  DataSection.ofItems .annotationSetLists wordAlignment encode start
    c.items.annotationSetLists.toList

/-- Members with their offsets in the order of their indices. -/
def memberOffsets {α β : Type} (index : α → Result UInt32) (offset : β → Result UInt32)
    (entries : List (α × β)) : Result (List MemberOffset) := do
  let members ← entries.mapM fun (id, part) => do
    let member ← index id
    return MemberOffset.mk member (← offset part)
  return sortedBy (compareOn MemberOffset.member) members

def encodeDirectory (c : Contents) (sets lists : DataSection) (d : AnnotationDirectory) :
    Result Bytes := do
  let ofLists (entry : List (List AnnotationItem)) : Result UInt32 :=
    lists.offset "annotation set ref list" (c.items.annotationSetLists.id? entry)
  let fields ← memberOffsets c.resolver.field (c.setOffset sets) d.ofFields
  let methods ← memberOffsets c.resolver.method (c.setOffset sets) d.ofMethods
  let parameters ← memberOffsets c.resolver.method ofLists d.ofParameters
  return OffsetDirectory.encode ⟨← c.setOffset sets d.ofClass, fields, methods, parameters⟩

def directorySection (c : Contents) (sets lists : DataSection) (start : Nat) :
    Result DataSection :=
  DataSection.ofItems .annotationDirectories wordAlignment (c.encodeDirectory sets lists) start
    c.items.directories.toList

/-! ## Types, classes and strings -/

def encodeTypeList (r : Resolver) (types : List TypeId) : Result Bytes := do
  let indices ← types.mapM r.type
  return Bytes.u4 (UInt32.ofNat indices.length) ++ indices.flatMap (Bytes.u2 ·.toUInt16)

def typeListSection (c : Contents) (start : Nat) : Result DataSection :=
  DataSection.ofItems .typeLists wordAlignment (encodeTypeList c.resolver) start
    c.items.typeLists.toList

/-- True if restrictions are kept among the access flags. -/
def packsRestrictions (o : WriteOptions) : Bool :=
  o.options.hiddenApiFlags && o.options.targetApi == HiddenApi.packedApi

/-- The access flags as they are stored. -/
def storedAccess (o : WriteOptions) (access restriction : UInt32) : Result UInt32 :=
  if packsRestrictions o then HiddenApi.pack access restriction else .ok access

/-- Fields in the order of their indices, each index as the difference to the one before. -/
def encodeFields (r : Resolver) (o : WriteOptions) (previous : UInt32) :
    List FieldEntry → Result Bytes
  | [] => .ok []
  | f :: rest => do
    let index ← r.field f.id
    let access ← (storedAccess o f.definition.access f.definition.restriction).within
      s!"field {f.id}"
    return Bytes.uleb (index - previous) ++ Bytes.uleb access ++ (← encodeFields r o index rest)

/-- Methods, likewise, with the offsets of their code. -/
def encodeMethods (r : Resolver) (o : WriteOptions) (code : DataSection) (previous : UInt32) :
    List MethodEntry → Result Bytes
  | [] => .ok []
  | m :: rest => do
    let index ← r.method m.id
    let access ← (storedAccess o m.definition.access m.definition.restriction).within
      s!"method {m.id}"
    let offset ← code.optionalOffset "code item" m.code
    return Bytes.uleb (index - previous) ++ Bytes.uleb access ++ Bytes.uleb offset ++
      (← encodeMethods r o code index rest)

def encodeClassData (r : Resolver) (o : WriteOptions) (code : DataSection) (c : ClassEntry) :
    Result Bytes := do
  let counts := Bytes.ulebNat c.staticFields.length ++ Bytes.ulebNat c.instanceFields.length ++
    Bytes.ulebNat c.directMethods.length ++ Bytes.ulebNat c.virtualMethods.length
  let staticFields ← encodeFields r o 0 c.staticFields
  let instanceFields ← encodeFields r o 0 c.instanceFields
  let directMethods ← encodeMethods r o code 0 c.directMethods
  let virtualMethods ← encodeMethods r o code 0 c.virtualMethods
  return counts ++ staticFields ++ instanceFields ++ directMethods ++ virtualMethods

/-- The data of all classes; those without members have none. -/
def classDataSection (c : Contents) (o : WriteOptions) (code : DataSection) (start : Nat) :
    Result DataSection :=
  let place (position : Nat) (e : ClassEntry) : Result Placed := do
    if e.hasData then
      let bytes ← (encodeClassData c.resolver o code e).within (toString e.definition)
      return ⟨bytes, position⟩
    else return Placed.nothing
  DataSection.build .classData place start c.classes

def stringSection (c : Contents) (start : Nat) : Result DataSection :=
  DataSection.ofItems .stringData 1 (fun s => .ok (Text.encodeStringData s)) start
    c.pools.strings.toList

/-! ## Restrictions -/

/-- The restrictions of the members of a class, if one of them has some. -/
def restrictions (e : ClassEntry) : Option (List UInt32) :=
  let all := e.fields.map (·.definition.restriction) ++ e.methods.map (·.definition.restriction)
  if all.all (· == 0) then none else some all

/-- The section with the restrictions; it is empty if there are none or if they are not kept
there. -/
def hiddenApiSection (c : Contents) (o : WriteOptions) (start : Nat) : Result DataSection := do
  let classes := c.classes.map restrictions
  if !o.options.hiddenApiFlags || packsRestrictions o || classes.all Option.isNone then
    return DataSection.empty .hiddenApi start
  let api := o.options.targetApi
  if api < HiddenApi.packedApi then
    Result.unsupported (.hiddenFlagsApi HiddenApi.packedApi api)
  DataSection.ofItems .hiddenApi wordAlignment (.ok ·) start [HiddenApi.encodeSection classes]

/-! ## All together -/

structure Data where
  debugInfos : DataSection
  code : DataSection
  encodedArrays : DataSection
  annotations : DataSection
  annotationSets : DataSection
  annotationSetLists : DataSection
  directories : DataSection
  typeLists : DataSection
  classData : DataSection
  strings : DataSection
  hiddenApi : DataSection

/-- The sections in the order in which they are written. -/
def Data.sections (d : Data) (compact : Bool) : List DataSection :=
  (if compact then [d.code, d.debugInfos] else [d.debugInfos, d.code]) ++
    [d.encodedArrays, d.annotations, d.annotationSets, d.annotationSetLists, d.directories,
      d.typeLists, d.classData, d.strings, d.hiddenApi]

def Data.bytes (d : Data) (compact : Bool) : Bytes :=
  (d.sections compact).flatMap DataSection.bytes

def Data.stop (d : Data) : Nat := d.hiddenApi.stop

/-- Debug information and code. The code of compact files does not point to the former, which
follows it there. -/
def codeSections (c : Contents) (o : WriteOptions) (start : Nat) :
    Result (DataSection × DataSection) := do
  if o.version.isCompact then
    let code ← c.codeSection o (.empty .debugInfo start) start
    return (← c.debugInfoSection code.stop, code)
  else
    let debugInfos ← c.debugInfoSection start
    return (debugInfos, ← c.codeSection o debugInfos debugInfos.stop)

/-- The data from `start` on. -/
def data (c : Contents) (o : WriteOptions) (start : Nat) : Result Data := do
  let (debugInfos, code) ← c.codeSections o start
  let next := if o.version.isCompact then debugInfos.stop else code.stop
  let encodedArrays ← c.encodedArraySection next
  let annotations ← c.annotationSection encodedArrays.stop
  let annotationSets ← c.annotationSetSection annotations annotations.stop
  let annotationSetLists ← c.annotationSetListSection annotationSets annotationSets.stop
  let directories ← c.directorySection annotationSets annotationSetLists annotationSetLists.stop
  let typeLists ← c.typeListSection directories.stop
  let classData ← c.classDataSection o code typeLists.stop
  let strings ← c.stringSection classData.stop
  let hiddenApi ← c.hiddenApiSection o strings.stop
  return ⟨debugInfos, code, encodedArrays, annotations, annotationSets, annotationSetLists,
    directories, typeLists, classData, strings, hiddenApi⟩

end Contents

end Dalvik
