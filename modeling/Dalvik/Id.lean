import Dalvik.Order
import Dalvik.Text.Quoted
import Dalvik.Text.Utf16

/-!
# Types, prototypes, fields and methods

The values that an index of a file can stand for, each with its text, its diagnostic spelling and
the order its pool is kept in. All orders come down to the UTF-16 order of strings.
-/
namespace Dalvik
open Text

/-- A type, by its descriptor. -/
structure TypeId where
  descriptor : String
  deriving DecidableEq, Hashable, Repr

namespace TypeId

instance : Ord TypeId := ⟨byKey compareUtf16 descriptor⟩

instance : Std.TransOrd TypeId := inferInstanceAs (Std.TransCmp (byKey compareUtf16 descriptor))

instance : Std.LawfulEqOrd TypeId where
  eq_of_compare {a b} h := by
    cases a
    cases b
    simpa using byKey_eq_eq_iff.mp h

instance : ToString TypeId := ⟨descriptor⟩

/-- Descriptors of a single byte name the primitive types. -/
def isPrimitive (t : TypeId) : Bool := t.descriptor.utf8ByteSize == 1

def isArray (t : TypeId) : Bool := t.descriptor.startsWith "["

/-- The letter of the type in the short form of a prototype. -/
def shorty (t : TypeId) : Char :=
  match t.descriptor.toList.head? with
  | none | some '[' => 'L'
  | some c => c

/-- How many registers a value of the type takes. -/
def registers (t : TypeId) : Nat :=
  if t.descriptor = "V" then 0
  else if t.descriptor = "J" ∨ t.descriptor = "D" then 2
  else 1

def inspect (t : TypeId) : String := s!"TypeId \x7b descriptor: {quoted t.descriptor} \x7d"

end TypeId

/-- What a method takes and gives. -/
structure ProtoId where
  returnType : TypeId
  parameters : List TypeId
  deriving DecidableEq, Hashable, Repr

namespace ProtoId

/-- The return type counts first, then the parameters one by one. -/
def cmp : ProtoId → ProtoId → Ordering :=
  compareLex (byKey compare returnType) (byKey (List.compareLex compare) parameters)

instance : Ord ProtoId := ⟨cmp⟩

instance : Std.TransOrd ProtoId := inferInstanceAs (Std.TransCmp (compareLex _ _))

instance : Std.LawfulEqOrd ProtoId where
  eq_of_compare {a b} h := by
    cases a
    cases b
    simpa [byKey_eq_eq_iff] using compareLex_eq_eq_iff.mp h

instance : ToString ProtoId :=
  ⟨fun p => "(" ++ String.join (p.parameters.map TypeId.descriptor) ++ ")" ++
    p.returnType.descriptor⟩

/-- The letters of the return type and of the parameters. -/
def shorty (p : ProtoId) : String :=
  String.ofList (p.returnType.shorty :: p.parameters.map TypeId.shorty)

def parameterRegisters (p : ProtoId) : Nat := p.parameters.foldr (fun t n => t.registers + n) 0

def inspect (p : ProtoId) : String :=
  let parameters := ", ".intercalate (p.parameters.map TypeId.inspect)
  s!"ProtoId \x7b return_type: {p.returnType.inspect}, parameters: [{parameters}] \x7d"

end ProtoId

structure FieldId where
  declaringClass : TypeId
  name : String
  type : TypeId
  deriving DecidableEq, Hashable, Repr

namespace FieldId

/-- The class counts first, then the name, then the type. -/
def cmp : FieldId → FieldId → Ordering :=
  compareLex (byKey compare declaringClass)
    (compareLex (byKey compareUtf16 name) (byKey compare type))

instance : Ord FieldId := ⟨cmp⟩

instance : Std.TransOrd FieldId := inferInstanceAs (Std.TransCmp (compareLex _ (compareLex _ _)))

instance : Std.LawfulEqOrd FieldId where
  eq_of_compare {a b} h := by
    cases a
    cases b
    simpa [compareLex_eq_eq_iff, byKey_eq_eq_iff] using compareLex_eq_eq_iff.mp h

instance : ToString FieldId := ⟨fun f => s!"{f.declaringClass}->{f.name}:{f.type}"⟩

def inspect (f : FieldId) : String :=
  s!"FieldId \x7b declaring_class: {f.declaringClass.inspect}, name: {quoted f.name}, " ++
    s!"field_type: {f.type.inspect} \x7d"

end FieldId

structure MethodId where
  declaringClass : TypeId
  name : String
  proto : ProtoId
  deriving DecidableEq, Hashable, Repr

namespace MethodId

/-- The class counts first, then the name, then the prototype. -/
def cmp : MethodId → MethodId → Ordering :=
  compareLex (byKey compare declaringClass)
    (compareLex (byKey compareUtf16 name) (byKey compare proto))

instance : Ord MethodId := ⟨cmp⟩

instance : Std.TransOrd MethodId := inferInstanceAs (Std.TransCmp (compareLex _ (compareLex _ _)))

instance : Std.LawfulEqOrd MethodId where
  eq_of_compare {a b} h := by
    cases a
    cases b
    simpa [compareLex_eq_eq_iff, byKey_eq_eq_iff] using compareLex_eq_eq_iff.mp h

instance : ToString MethodId := ⟨fun m => s!"{m.declaringClass}->{m.name}{m.proto}"⟩

def inspect (m : MethodId) : String :=
  s!"MethodId \x7b declaring_class: {m.declaringClass.inspect}, name: {quoted m.name}, " ++
    s!"proto: {m.proto.inspect} \x7d"

end MethodId

end Dalvik
