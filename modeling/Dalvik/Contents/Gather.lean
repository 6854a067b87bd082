import Dalvik.Contents
import Dalvik.Options
import Dalvik.Value.References

/-!
# Gathering the contents of a file

One pass over the classes finds what they refer to. Values, annotations and call sites are set
aside on the way and looked into at the end, the last one first.
-/
namespace Dalvik

/-- What is set aside. -/
inductive Deferred where
  | value (v : Value)
  | annotated (a : AnnotationItem)
  | callSite (c : CallSite)

/-- What has been found so far. -/
structure Gathered where
  strings : ItemSet String := ∅
  types : ItemSet TypeId := ∅
  protos : ItemSet ProtoId := ∅
  fields : ItemSet FieldId := ∅
  methods : ItemSet MethodId := ∅
  methodHandles : ItemSet MethodHandle := ∅
  callSites : ItemSet CallSite := ∅
  items : SharedItems := {}
  /-- The last one first. -/
  deferred : List Deferred := []

namespace Gathered

/-! ## References -/

def addString (g : Gathered) (s : String) : Gathered :=
  { g with strings := (g.strings.insert s).2 }

def addType (g : Gathered) (t : TypeId) : Gathered :=
  { g with types := (g.types.insert t).2 }.addString t.descriptor

def addTypeList (g : Gathered) (types : List TypeId) : Gathered :=
  { g with items := { g.items with typeLists := (g.items.typeLists.insert types).2 } }

def addProto (g : Gathered) (p : ProtoId) : Gathered :=
  let g := ({ g with protos := (g.protos.insert p).2 }.addString p.shorty).addType p.returnType
  let g := p.parameters.foldl addType g
  if p.parameters.isEmpty then g else g.addTypeList p.parameters

def addField (g : Gathered) (f : FieldId) : Gathered :=
  (({ g with fields := (g.fields.insert f).2 }.addType f.declaringClass).addString f.name).addType
    f.type

def addMethod (g : Gathered) (m : MethodId) : Gathered :=
  (({ g with methods := (g.methods.insert m).2 }.addType m.declaringClass).addString
    m.name).addProto m.proto

def addMethodHandle (g : Gathered) (h : MethodHandle) : Gathered :=
  let g := { g with methodHandles := (g.methodHandles.insert h).2 }
  match h.member with
  | .field f => g.addField f
  | .method m => g.addMethod m

def defer (g : Gathered) (d : Deferred) : Gathered := { g with deferred := d :: g.deferred }

def add (g : Gathered) : Reference → Gathered
  | .string s => g.addString s
  | .type t => g.addType t
  | .field f => g.addField f
  | .method m => g.addMethod m
  | .proto p => g.addProto p
  | .callSite c => g.defer (.callSite c)
  | .methodHandle h => g.addMethodHandle h
  | .raw _ => g

def addAll (g : Gathered) (references : List Reference) : Gathered := references.foldl add g

/-! ## What was set aside -/

def checkDepth (depth : Nat) : Result Unit :=
  if maxNesting < depth then Result.violation (.valueNesting maxNesting) else .ok ()

def addCallSite (g : Gathered) (c : CallSite) : Gathered :=
  let g := { g with callSites := (g.callSites.insert c).2 }
  let g := ((g.addMethodHandle c.handle).addString c.methodName).addProto c.proto
  let encodedArrays := (g.items.encodedArrays.insert c.toValues).2
  { g with items := { g.items with encodedArrays } }

/-- Looks into something that was set aside. -/
def settle (g : Gathered) : Deferred → Result Gathered
  | .value v => do
    checkDepth v.depth
    return g.addAll v.references
  | .annotated a => do
    -- the annotation itself does not count as one that encloses its values
    checkDepth (a.value.depth - 1)
    return g.addAll a.value.references
  | .callSite c => do
    c.arguments.forM fun v => checkDepth v.depth
    return (g.addCallSite c).addAll (Value.referencesAll c.arguments)

def settleAll (g : Gathered) : Result Gathered :=
  g.deferred.foldlM settle { g with deferred := [] }

/-- The sorted pools of all that was found. -/
def toPools (g : Gathered) : Result Pools :=
  Pools.build {
    strings := g.strings.toList
    types := g.types.toList
    protos := g.protos.toList
    fields := g.fields.toList
    methods := g.methods.toList
    methodHandles := g.methodHandles.toList
    callSites := g.callSites.toList }

end Gathered

/-! ## Classes -/

/-- A step that finds more. -/
abbrev Gather := StateT Gathered Result

namespace Gather
open Gathered

variable {α : Type}

/-- Names the place in which a failing step failed. -/
def within (place : String) (step : Gather α) : Gather α := fun g =>
  Result.within place (step g)

def refer (reference : Reference) : Gather Unit := modify (·.add reference)

/-- Adds an item to one of the sets of shared items. -/
def share (insert : SharedItems → Nat × SharedItems) : Gather Nat := do
  let g ← get
  let (id, items) := insert g.items
  set { g with items }
  return id

def typeList (types : List TypeId) : Gather Nat :=
  share fun s =>
    let (id, typeLists) := s.typeLists.insert types
    (id, { s with typeLists })

def encodedArray (values : List Value) : Gather Nat :=
  share fun s =>
    let (id, encodedArrays) := s.encodedArrays.insert values
    (id, { s with encodedArrays })

def directory (d : AnnotationDirectory) : Gather Nat :=
  share fun s =>
    let (id, directories) := s.directories.insert d
    (id, { s with directories })

def sharedCode (c : SharedCode) : Gather Nat :=
  share fun s =>
    let (id, code) := s.code.insert c
    (id, { s with code })

def debugInfo (d : DebugInfo) : Gather Nat :=
  share fun s =>
    let (id, debugInfos) := s.debugInfos.insert d
    (id, { s with debugInfos })

/-- Sorts the annotations of one owner and stores them as a set, unless there are none. -/
def annotationSet (annotations : List AnnotationItem) : Gather (List AnnotationItem) := do
  let sorted ← AnnotationItem.sortedSet annotations
  modify fun g => annotations.foldl (fun g a => g.defer (.annotated a)) g
  for a in sorted do
    let _ ← share fun s =>
      let (id, annotations) := s.annotations.insert a
      (id, { s with annotations })
  if !sorted.isEmpty then
    let _ ← share fun s =>
      let (id, annotationSets) := s.annotationSets.insert sorted
      (id, { s with annotationSets })
  return sorted

/-- The sets of the parameters of a method without the empty ones at the end. -/
def parameterSets (m : MethodDef) : Gather (List (List AnnotationItem)) := do
  let sets ← m.parameters.mapM fun p => annotationSet p.annotations
  let sets := AnnotationItem.trimEmpty sets
  if !sets.isEmpty then
    let _ ← share fun s =>
      let (id, annotationSetLists) := s.annotationSetLists.insert sets
      (id, { s with annotationSetLists })
  return sets

/-- Stores debug information unless there is none. -/
def debugOf (d : DebugInfo) : Gather (Option Nat) := do
  if d.isEmpty then return none
  for name in d.parameters do
    name.forM fun name => refer (.string name)
  for item in d.items do
    item.strings.forM fun s => refer (.string s)
    item.types.forM fun t => refer (.type t)
  return some (← debugInfo d)

/-- A method with its annotations and those of its parameters. -/
def method (o : WriteOptions) (id : MethodId) (m : MethodDef) :
    Gather (MethodEntry × List AnnotationItem × List (List AnnotationItem)) := do
  refer (.method id)
  let set ← annotationSet m.annotations
  let sets ← parameterSets m
  match m.code with
  | none => return (⟨m, id, none, none⟩, set, sets)
  | some c =>
    if c.registers.toNat < m.incoming then
      Result.violation (.argumentRegisters c.registers.toNat m.incoming)
    for i in c.instructions do
      i.references.forM refer
    for t in c.tries do
      for h in t.handler.handlers do
        refer (.type h.type)
    let debug ← if o.options.debugInfo then debugOf (m.debugInfo c) else pure none
    let code ← sharedCode {
      code := c
      incoming := m.incoming.toUInt16
      outgoing := c.outgoing
      debug := if o.version.isCompact then none else debug }
    return (⟨m, id, some code, debug⟩, set, sets)

/-- A field with its annotations. -/
def field (f : FieldEntry) : Gather (FieldId × List AnnotationItem) := do
  refer (.field f.id)
  let set ← within s!"field {f.id}" (annotationSet f.definition.annotations)
  return (f.id, set)

/-- The value a static field starts with. -/
def initialValue (f : FieldEntry) : Gather Value := do
  match f.definition.value with
  | some v =>
    modify (·.defer (.value v))
    return v
  | none => within s!"field {f.id}" (Value.defaultFor f.definition.type)

/-- Members of a class in the order of their ids. -/
def sortedMembers {ι : Type} [Ord ι] (id : α → ι) (members : List α) : List (ι × α) :=
  sortedBy (byKey compare Prod.fst) (members.map fun m => (id m, m))

/-- Checks that no two members share an id. -/
def checkDistinct {ι : Type} [BEq ι] [Hashable ι] [ToString ι] (what : String) (ids : List ι) :
    Result Unit :=
  match ItemSet.firstRepeated? ids with
  | some id => Result.violation (.duplicateMember what (toString id))
  | none => .ok ()

def classEntry (o : WriteOptions) (c : ClassDef) : Gather ClassEntry := do
  refer (.type c.type)
  c.superclass.forM fun t => refer (.type t)
  c.interfaces.forM fun t => refer (.type t)
  let interfaces ← if c.interfaces.isEmpty then pure none else some <$> typeList c.interfaces
  c.sourceFile.forM fun s => refer (.string s)
  let entries (fields : List FieldDef) : List FieldEntry :=
    (sortedMembers c.fieldId fields).map fun (id, definition) => { id, definition }
  let staticFields := entries c.staticFields
  let instanceFields := entries c.instanceFields
  checkDistinct "field" ((staticFields ++ instanceFields).map FieldEntry.id)
  let directMethods := sortedMembers c.methodId c.directMethods
  let virtualMethods := sortedMembers c.methodId c.virtualMethods
  checkDistinct "method" ((directMethods ++ virtualMethods).map Prod.fst)
  let ofClass ← annotationSet c.annotations
  let ofFields ← (staticFields ++ instanceFields).mapM field
  let values ← staticFields.mapM initialValue
  for f in instanceFields do
    if f.definition.value.isSome then Result.violation (.instanceValue (toString f.id))
  let values := Value.trimDefaults values
  let staticValues ← if values.isEmpty then pure none else some <$> encodedArray values
  let methods ← (directMethods ++ virtualMethods).mapM fun (id, m) =>
    within s!"method {id}" (method o id m)
  let d : AnnotationDirectory := {
    owner := none
    ofClass
    ofFields := ofFields.filter fun (_, set) => !set.isEmpty
    ofMethods := methods.filterMap fun (m, set, _) =>
      if set.isEmpty then none else some (m.id, set)
    ofParameters := methods.filterMap fun (m, _, sets) =>
      if sets.isEmpty then none else some (m.id, sets) }
  let hasMembers := !(d.ofFields.isEmpty && d.ofMethods.isEmpty && d.ofParameters.isEmpty)
  let annotations ←
    if hasMembers then some <$> directory { d with owner := some c.type }
    else if ofClass.isEmpty then pure none
    else some <$> directory d
  return {
    definition := c
    interfaces, staticValues, annotations, staticFields, instanceFields
    directMethods := (methods.take directMethods.length).map Prod.fst
    virtualMethods := (methods.drop directMethods.length).map Prod.fst }

/-- The entries of classes whose types are distinct and not among those `seen`. -/
def classEntries (o : WriteOptions) (seen : ItemSet TypeId) : List ClassDef →
    Gather (List ClassEntry)
  | [] => return []
  | c :: cs => do
    if seen.contains c.type then Result.violation (.duplicateClass c.type.descriptor)
    let entry ← within (toString c) (classEntry o c)
    return entry :: (← classEntries o (seen.insert c.type).2 cs)

end Gather

/-- The contents of the file that is written for the classes. -/
def Contents.ofDex (o : WriteOptions) (d : Dex) : Result Contents := do
  let (classes, g) ← Gather.classEntries o ∅ d.classes {}
  let g ← g.settleAll
  return { pools := ← g.toPools, items := g.items, classes }

end Dalvik
