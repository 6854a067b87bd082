import Dalvik.Debug
import Dalvik.Instruction

/-!
# Code

The implementation of a method: how many registers it uses, its instructions, and which ranges of
them have their exceptions caught where. Addresses count code units.
-/
namespace Dalvik

structure ExceptionHandler where
  type : TypeId
  address : UInt32
  deriving DecidableEq, Hashable, Repr

/-- Where the exceptions of a range go: to the first handler whose type they have, else to the
address for all of them, if there is one. -/
structure CatchHandler where
  handlers : List ExceptionHandler
  catchAll : Option UInt32
  deriving DecidableEq, Hashable, Repr

def CatchHandler.isEmpty (h : CatchHandler) : Bool := h.handlers.isEmpty && h.catchAll.isNone

structure TryBlock where
  start : UInt32
  units : UInt16
  handler : CatchHandler
  deriving DecidableEq, Hashable, Repr

structure Code where
  registers : UInt16
  instructions : List Instruction
  tries : List TryBlock := []
  debug : List DebugItem := []
  deriving DecidableEq, Hashable

/-- How many registers an instruction hands to a method it calls. -/
def Instruction.outgoing (i : Instruction) : UInt16 :=
  if i.opcode.has .invoke then
    match i.operands with
    | .f35c registers _ | .f45cc registers _ _ => registers.length.toUInt16
    | .f3rc _ count _ | .f4rcc _ count _ _ => count.toUInt16
    | _ => 0
  else 0

namespace Instruction

/-- The size of a list of instructions in code units. -/
def unitsOf (instructions : List Instruction) : Nat := instructions.foldr (fun i n => i.units + n) 0

/-- The largest number of registers that one of the instructions hands to a method. -/
def outgoingOf (instructions : List Instruction) : UInt16 :=
  (instructions.map outgoing).foldl max 0

end Instruction

namespace Code

def units (c : Code) : Nat := Instruction.unitsOf c.instructions

def outgoing (c : Code) : UInt16 := Instruction.outgoingOf c.instructions

end Code

end Dalvik
