import Dalvik.Value.Inspect
import Dalvik.Value.Order

/-!
# Call sites

A call site is stored as an array of values that begins with a method handle, a method name and a
prototype. Its own name is not stored; it orders the pool, and reading derives it from the index.
-/
namespace Dalvik
open Text

structure CallSite where
  name : String
  handle : MethodHandle
  methodName : String
  proto : ProtoId
  arguments : List Value
  deriving DecidableEq, Hashable

namespace CallSite

def cmp : CallSite → CallSite → Ordering :=
  compareLex (byKey compareUtf16 name) <| compareLex (byKey compare handle) <|
    compareLex (byKey compareUtf16 methodName) <| compareLex (byKey compare proto)
      (byKey Value.cmpList arguments)

instance : Ord CallSite := ⟨cmp⟩

/-- The name of the call site that is read at an index. -/
def nameOf (index : Nat) : String := s!"callsite_{index}"

/-- The values that are stored for the call site. -/
def toValues (site : CallSite) : List Value :=
  .methodHandle site.handle :: .string site.methodName :: .methodType site.proto :: site.arguments

/-- The call site for which these values are stored. -/
def ofValues (name : String) (values : List Value) : Result CallSite :=
  let misplaced (value : Value) (ordinal : String) : Result CallSite :=
    Result.malformed (.callSiteItem s!"Some({value.inspect})" ordinal name)
  match values with
  | first :: second :: third :: arguments =>
    match first with
    | .methodHandle handle =>
      match second with
      | .string methodName =>
        match third with
        | .methodType proto => .ok { name, handle, methodName, proto, arguments }
        | v => misplaced v "third"
      | v => misplaced v "second"
    | v => misplaced v "first"
  | _ => Result.malformed .callSiteTooShort

theorem ofValues_toValues (site : CallSite) (name : String) :
    ofValues name site.toValues = .ok { site with name } := rfl

theorem ofValues_eq_ok {name : String} {values : List Value} {s : CallSite}
    (h : ofValues name values = .ok s) : s.name = name ∧ s.toValues = values := by
  unfold ofValues at h
  dsimp only at h
  split at h
  · split at h
    · split at h
      · split at h
        · cases h
          exact ⟨rfl, rfl⟩
        · cases h
      · cases h
    · cases h
  · cases h

end CallSite

end Dalvik
