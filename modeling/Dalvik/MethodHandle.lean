import Dalvik.Error
import Dalvik.Id

/-!
# Method handles

A handle reaches a field or a method in one of nine ways; four of them are for fields.
-/
namespace Dalvik

inductive HandleKind where
  | staticPut
  | staticGet
  | instancePut
  | instanceGet
  | invokeStatic
  | invokeInstance
  | invokeConstructor
  | invokeDirect
  | invokeInterface
  deriving DecidableEq, Hashable, Repr

namespace HandleKind

def code : HandleKind → UInt16
  | staticPut => 0
  | staticGet => 1
  | instancePut => 2
  | instanceGet => 3
  | invokeStatic => 4
  | invokeInstance => 5
  | invokeConstructor => 6
  | invokeDirect => 7
  | invokeInterface => 8

def all : List HandleKind :=
  [staticPut, staticGet, instancePut, instanceGet, invokeStatic, invokeInstance,
    invokeConstructor, invokeDirect, invokeInterface]

def ofCode (code : UInt16) : Result HandleKind :=
  match all.find? (·.code = code) with
  | some kind => .ok kind
  | none => Result.malformed (.handleKind code.toNat)

/-- True for the ways that reach a method. -/
def isMethodAccess (kind : HandleKind) : Bool := invokeStatic.code ≤ kind.code

def name : HandleKind → String
  | staticPut => "StaticPut"
  | staticGet => "StaticGet"
  | instancePut => "InstancePut"
  | instanceGet => "InstanceGet"
  | invokeStatic => "InvokeStatic"
  | invokeInstance => "InvokeInstance"
  | invokeConstructor => "InvokeConstructor"
  | invokeDirect => "InvokeDirect"
  | invokeInterface => "InvokeInterface"

instance : Ord HandleKind := ⟨compareOn code⟩

instance : Std.TransOrd HandleKind := inferInstanceAs (Std.TransCmp (compareOn code))

theorem mem_all (kind : HandleKind) : kind ∈ all := by cases kind <;> decide

theorem ofCode_code (kind : HandleKind) : ofCode kind.code = .ok kind := by cases kind <;> rfl

theorem code_injective {a b : HandleKind} (h : a.code = b.code) : a = b := by
  have := ofCode_code a
  rw [h, ofCode_code b] at this
  exact (Except.ok.inj this).symm

instance : Std.LawfulEqOrd HandleKind where
  eq_of_compare {a b} h :=
    code_injective (Std.compare_eq_iff_eq.mp (h : compare a.code b.code = .eq))

end HandleKind

inductive HandleMember where
  | field (id : FieldId)
  | method (id : MethodId)
  deriving DecidableEq, Hashable, Repr

namespace HandleMember

/-- Fields come before methods. -/
def cmp : HandleMember → HandleMember → Ordering
  | .field a, .field b => compare a b
  | .field _, .method _ => .lt
  | .method _, .field _ => .gt
  | .method a, .method b => compare a b

instance : Ord HandleMember := ⟨cmp⟩

instance : Std.TransOrd HandleMember where
  eq_swap {a b} := match a, b with
    | .field x, .field y => (Std.OrientedCmp.eq_swap : compare x y = (compare y x).swap)
    | .field _, .method _ | .method _, .field _ => rfl
    | .method x, .method y => (Std.OrientedCmp.eq_swap : compare x y = (compare y x).swap)
  isLE_trans {a b c} := match a, b, c with
    | .field x, .field y, .field z =>
      (Std.TransCmp.isLE_trans : (compare x y).isLE → (compare y z).isLE → (compare x z).isLE)
    | .method x, .method y, .method z =>
      (Std.TransCmp.isLE_trans : (compare x y).isLE → (compare y z).isLE → (compare x z).isLE)
    | .field _, _, .method _ => fun _ _ => rfl
    | .method _, .field _, _ => nofun
    | _, .method _, .field _ => nofun

instance : Std.LawfulEqOrd HandleMember where
  compare_self {a} := match a with
    | .field x => (Std.ReflCmp.compare_self : compare x x = .eq)
    | .method x => (Std.ReflCmp.compare_self : compare x x = .eq)
  eq_of_compare {a b} := match a, b with
    | .field x, .field y =>
      fun h => congrArg field (Std.compare_eq_iff_eq.mp (h : compare x y = .eq))
    | .method x, .method y =>
      fun h => congrArg method (Std.compare_eq_iff_eq.mp (h : compare x y = .eq))
    | .field _, .method _ => nofun
    | .method _, .field _ => nofun

def isMethod : HandleMember → Bool
  | .field _ => false
  | .method _ => true

def inspect : HandleMember → String
  | .field id => s!"Field({id.inspect})"
  | .method id => s!"Method({id.inspect})"

end HandleMember

structure MethodHandle where
  kind : HandleKind
  member : HandleMember
  deriving DecidableEq, Hashable, Repr

namespace MethodHandle

def cmp : MethodHandle → MethodHandle → Ordering :=
  compareLex (byKey compare kind) (byKey compare member)

instance : Ord MethodHandle := ⟨cmp⟩

instance : Std.TransOrd MethodHandle := inferInstanceAs (Std.TransCmp (compareLex _ _))

instance : Std.LawfulEqOrd MethodHandle where
  eq_of_compare {a b} h := by
    cases a
    cases b
    simpa [byKey_eq_eq_iff] using compareLex_eq_eq_iff.mp h

instance : ToString MethodHandle where
  toString h := match h.member with
    | .field id => s!"{h.kind.name}->{id}"
    | .method id => s!"{h.kind.name}->{id}"

/-- True if the way of access fits what it reaches. -/
def IsConsistent (h : MethodHandle) : Prop := h.kind.isMethodAccess = h.member.isMethod

instance (h : MethodHandle) : Decidable h.IsConsistent := inferInstanceAs (Decidable (_ = _))

/-- A handle whose way of access fits its member. -/
def build (kind : HandleKind) (member : HandleMember) : Result MethodHandle :=
  if (MethodHandle.mk kind member).IsConsistent then .ok ⟨kind, member⟩
  else Result.violation (.handleMember kind.name member.inspect)

def inspect (h : MethodHandle) : String :=
  s!"MethodHandleId \x7b kind: {h.kind.name}, member: {h.member.inspect} \x7d"

end MethodHandle

end Dalvik
