import Dalvik.Id

/-!
# Debug information

What a file tells about the source of a method: the names of its parameters, and events along its
code such as a new line or the start of a local variable. `advance` moves on in the code; every
other event happens at the place that is reached.
-/
namespace Dalvik

inductive DebugItem where
  | advance (units : UInt32)
  | startLocal (register : UInt32) (name : Option String) (type : Option TypeId)
      (signature : Option String)
  | endLocal (register : UInt32)
  | restartLocal (register : UInt32)
  | prologueEnd
  | epilogueBegin
  | setFile (name : Option String)
  | line (number : Int32)
  deriving DecidableEq, Hashable, Repr

namespace DebugItem

/-- The texts that an event refers to. -/
def strings : DebugItem → List String
  | startLocal _ name _ signature => name.toList ++ signature.toList
  | setFile name => name.toList
  | _ => []

/-- The types that an event refers to. -/
def types : DebugItem → List TypeId
  | startLocal _ _ type _ => type.toList
  | _ => []

end DebugItem

structure DebugInfo where
  /-- The names of the parameters, as far as they are known. -/
  parameters : List (Option String)
  items : List DebugItem
  deriving DecidableEq, Hashable, Repr

namespace DebugInfo

/-- True if nothing would be lost without it. -/
def isEmpty (d : DebugInfo) : Bool := d.items.isEmpty && d.parameters.all Option.isNone

end DebugInfo

end Dalvik
