import Dalvik.Value.Codec

/-!
# Annotations

An annotation is an encoded annotation together with who may see it. Sets of annotations are stored
in the order of their types, and no type occurs twice in one set.
-/
namespace Dalvik

/-- Who may see an annotation. -/
inductive Visibility where
  | build
  | runtime
  | system
  deriving DecidableEq, Hashable, Repr

namespace Visibility

def all : List Visibility := [build, runtime, system]

def code : Visibility → UInt8
  | build => 0
  | runtime => 1
  | system => 2

def name : Visibility → String
  | build => "Build"
  | runtime => "Runtime"
  | system => "System"

def ofCode (code : UInt8) : Result Visibility :=
  match all.find? (·.code = code) with
  | some v => .ok v
  | none => Result.malformed (.visibility code.toNat)

theorem ofCode_code (v : Visibility) : ofCode v.code = .ok v := by cases v <;> rfl

instance : Ord Visibility := ⟨compareOn code⟩

end Visibility

structure AnnotationItem where
  visibility : Visibility
  value : AnnotationValue
  deriving DecidableEq, Hashable

namespace AnnotationItem

def type (a : AnnotationItem) : TypeId := a.value.type

instance : Ord AnnotationItem := ⟨compareLex (byKey compare visibility) (byKey compare value)⟩

instance : ToString AnnotationItem := ⟨fun a => s!"@{a.visibility.name} {a.type}"⟩

/-- An annotation with its elements in order. -/
def build (visibility : Visibility) (type : TypeId) (elements : List Element) :
    Result AnnotationItem := do
  return ⟨visibility, ← AnnotationValue.build type elements⟩

def encode (r : Resolver) (a : AnnotationItem) : Result Bytes := do
  return a.visibility.code :: (← a.value.encode r)

def decode (s : Source) : Decoder AnnotationItem := do
  let visibility ← Visibility.ofCode (← Decoder.u1)
  return ⟨visibility, ← AnnotationValue.decode s⟩

/-- The annotations of a set in the order of their types. -/
def sortedSet (annotations : List AnnotationItem) : Result (List AnnotationItem) :=
  let sorted := sortedBy (byKey compare type) annotations
  match firstAdjacent? (fun a b => a.type == b.type) sorted with
  | some a => Result.violation (.annotationType a.type.descriptor)
  | none => .ok sorted

/-- The sets of the parameters of a method without the empty ones at the end. -/
def trimEmpty (sets : List (List AnnotationItem)) : List (List AnnotationItem) :=
  (sets.reverse.dropWhile List.isEmpty).reverse

end AnnotationItem

/-! ## Offsets of annotations -/

/-- What a list of offsets leads to. -/
inductive OffsetListKind where
  /-- The annotations of a set. -/
  | set
  /-- The sets of a list of parameters, 0 for an empty one. -/
  | setList
  deriving DecidableEq, Repr

def OffsetListKind.name : OffsetListKind → String
  | set => "Annotation set"
  | setList => "Annotation set ref list"

def encodeOffsets (offsets : List UInt32) : Bytes :=
  Bytes.u4 (UInt32.ofNat offsets.length) ++ offsets.flatMap Bytes.u4

def decodeOffsets (kind : OffsetListKind) : Decoder (List UInt32) := do
  let size := (← Decoder.u4).toNat
  if (← Decoder.available) / 4 < size then Decoder.fail (.annotationOffsets kind.name size)
  Decoder.u4.repeated size

/-- Where the annotations of a member are. -/
structure MemberOffset where
  member : UInt32
  offset : UInt32
  deriving DecidableEq, Repr

def MemberOffset.encode (m : MemberOffset) : Bytes := Bytes.u4 m.member ++ Bytes.u4 m.offset

def MemberOffset.decode : Decoder MemberOffset := do
  let member ← Decoder.u4
  return ⟨member, ← Decoder.u4⟩

/-- Where the annotations of a class and of its members are. -/
structure OffsetDirectory where
  /-- The offset of the set of the class itself, 0 if it has none. -/
  classOffset : UInt32
  fields : List MemberOffset
  methods : List MemberOffset
  parameters : List MemberOffset
  deriving DecidableEq, Repr

namespace OffsetDirectory

def encode (d : OffsetDirectory) : Bytes :=
  let count (members : List MemberOffset) := Bytes.u4 (UInt32.ofNat members.length)
  Bytes.u4 d.classOffset ++ count d.fields ++ count d.methods ++ count d.parameters ++
    (d.fields ++ d.methods ++ d.parameters).flatMap MemberOffset.encode

def decode : Decoder OffsetDirectory := do
  let start ← Decoder.position
  let classOffset ← Decoder.u4
  let fields := (← Decoder.u4).toNat
  let methods := (← Decoder.u4).toNat
  let parameters := (← Decoder.u4).toNat
  if (← Decoder.available) / 8 < fields + methods + parameters then
    Decoder.fail (.directorySize start)
  return {
    classOffset
    fields := ← MemberOffset.decode.repeated fields
    methods := ← MemberOffset.decode.repeated methods
    parameters := ← MemberOffset.decode.repeated parameters }

end OffsetDirectory

end Dalvik
