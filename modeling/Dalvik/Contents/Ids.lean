import Dalvik.Contents.Data
import Dalvik.Header
import Dalvik.IdItem

/-!
# The ids of a file

The sections of items of fixed size that follow the header: the entries of the pools, with the
definitions of the classes among them. Where they are depends on their numbers alone.
-/
namespace Dalvik

/-- Where the sections of ids begin, and where the last one ends. -/
structure IdLayout where
  strings : Nat
  types : Nat
  protos : Nat
  fields : Nat
  methods : Nat
  classes : Nat
  callSites : Nat
  methodHandles : Nat
  stop : Nat
  deriving DecidableEq, Repr

namespace Contents

/-- The layout of the ids from `start` on. -/
def layout (c : Contents) (start : Nat) : IdLayout :=
  let types := start + c.pools.strings.size * IdItem.stringSize
  let protos := types + c.pools.types.size * IdItem.typeSize
  let fields := protos + c.pools.protos.size * IdItem.Proto.size
  let methods := fields + c.pools.fields.size * IdItem.Member.size
  let classes := methods + c.pools.methods.size * IdItem.Member.size
  let callSites := classes + c.classes.length * IdItem.Class.size
  let methodHandles := callSites + c.pools.callSites.size * IdItem.callSiteSize
  let stop := methodHandles + c.pools.methodHandles.size * IdItem.Handle.size
  ⟨start, types, protos, fields, methods, classes, callSites, methodHandles, stop⟩

/-- What the map says about the ids; empty sections are left out. -/
def idMapItems (c : Contents) (l : IdLayout) : List MapItem :=
  let item (kind : SectionKind) (size offset : Nat) : List MapItem :=
    if size = 0 then [] else [MapItem.of kind size offset]
  item .stringIds c.pools.strings.size l.strings ++ item .typeIds c.pools.types.size l.types ++
    item .protoIds c.pools.protos.size l.protos ++ item .fieldIds c.pools.fields.size l.fields ++
    item .methodIds c.pools.methods.size l.methods ++ item .classDefs c.classes.length l.classes ++
    item .callSiteIds c.pools.callSites.size l.callSites ++
    item .methodHandles c.pools.methodHandles.size l.methodHandles

/-! ## The items -/

def typeItem (r : Resolver) (t : TypeId) : Result Bytes := return Bytes.u4 (← r.string t.descriptor)

def protoItem (c : Contents) (d : Data) (p : ProtoId) : Result IdItem.Proto := do
  let shorty ← c.resolver.string p.shorty
  let returnType ← c.resolver.type p.returnType
  let parameters ← if p.parameters.isEmpty then pure 0
    else d.typeLists.offset "type list" (c.items.typeLists.id? p.parameters)
  return { shorty, returnType, parameters }

def fieldItem (r : Resolver) (f : FieldId) : Result IdItem.Member := do
  let declaringClass ← r.type f.declaringClass
  let type ← r.type f.type
  return ⟨declaringClass.toUInt16, type.toUInt16, ← r.string f.name⟩

def methodItem (r : Resolver) (m : MethodId) : Result IdItem.Member := do
  let declaringClass ← r.type m.declaringClass
  let proto ← r.proto m.proto
  return ⟨declaringClass.toUInt16, proto.toUInt16, ← r.string m.name⟩

/-- The definition of the class with a number. -/
def classItem (r : Resolver) (d : Data) (e : ClassEntry) (index : Nat) : Result IdItem.Class := do
  let c := e.definition
  let type ← r.type c.type
  let superclass ← c.superclass.mapM r.type
  let interfaces ← d.typeLists.optionalOffset "interfaces" e.interfaces
  let sourceFile ← c.sourceFile.mapM r.string
  let annotations ← d.directories.optionalOffset "annotations directory" e.annotations
  let staticValues ← d.encodedArrays.optionalOffset "static values" e.staticValues
  return {
    type
    access := c.access
    superclass := superclass.getD noIndex
    interfaces
    sourceFile := sourceFile.getD noIndex
    annotations
    data := UInt32.ofNat ((d.classData.items[index]?.map Placed.offset).getD 0)
    staticValues }

def callSiteItem (c : Contents) (d : Data) (s : CallSite) : Result Bytes :=
  return Bytes.u4 (← d.encodedArrays.offset "call site" (c.items.encodedArrays.id? s.toValues))

def handleItem (r : Resolver) (h : MethodHandle) : Result IdItem.Handle := do
  let member ← match h.member with
    | .field f => r.field f
    | .method m => r.method m
  return ⟨h.kind.code, member.toUInt16⟩

/-- All ids, as they follow each other. -/
def encodeIds (c : Contents) (d : Data) : Result Bytes := do
  let strings := d.strings.items.flatMap fun p => Bytes.u4 (UInt32.ofNat p.offset)
  let types ← c.pools.types.toList.mapM (typeItem c.resolver)
  let protos ← c.pools.protos.toList.mapM (c.protoItem d)
  let fields ← c.pools.fields.toList.mapM (fieldItem c.resolver)
  let methods ← c.pools.methods.toList.mapM (methodItem c.resolver)
  let classes ← c.classes.zipIdx.mapM fun (e, index) =>
    (classItem c.resolver d e index).within (toString e.definition)
  let callSites ← c.pools.callSites.toList.mapM (c.callSiteItem d)
  let methodHandles ← c.pools.methodHandles.toList.mapM (handleItem c.resolver)
  return strings ++ types.flatten ++ protos.flatMap IdItem.Proto.encode ++
    fields.flatMap IdItem.Member.encode ++ methods.flatMap IdItem.Member.encode ++
    classes.flatMap IdItem.Class.encode ++ callSites.flatten ++
    methodHandles.flatMap IdItem.Handle.encode

end Contents

end Dalvik
