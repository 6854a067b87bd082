import Dalvik.Debug.Encode

/-!
# Reading debug information

The machine runs until its program ends. Moves of the address are reported together, right before
the next event; a position is an event only if its line differs from that of the position before.
-/
namespace Dalvik
open DebugOp

/-- A name by its index, absent if that is negative. -/
def optionalAt {α : Type} (fetch : UInt32 → Result α) (index : Int32) : Result (Option α) :=
  if index < 0 then .ok none else return some (← fetch index.toUInt32)

namespace DebugItem

/-- The registers of the machine and what has been reported of them. -/
structure Machine where
  /-- The code units that the address has moved by since the last event. -/
  gap : UInt32 := 0
  line : Int32
  /-- The line of the last position, 0 before the first one. -/
  reported : Int32 := 0

/-- An event and the moves that come before it. -/
def Machine.report (m : Machine) (item : DebugItem) : List DebugItem × Machine :=
  ((if m.gap = 0 then [] else [advance m.gap]) ++ [item], { m with gap := 0 })

/-- The position that a special instruction makes. -/
def Machine.special (m : Machine) (op : UInt8) : List DebugItem × Machine :=
  let adjusted : Int := op.toNat - firstSpecial.toNat
  let gap := m.gap + UInt32.ofNat (adjusted / lineRange).toNat
  let line := m.line + Int32.ofInt (lineBase + adjusted % lineRange)
  let moves := if gap = 0 then [] else [advance gap]
  if line = m.reported then (moves, { m with gap := 0, line })
  else (moves ++ [DebugItem.line line], ⟨0, line, line⟩)

/-- The events that one instruction reports, and the machine after it. -/
def step (s : Source) (m : Machine) (op : UInt8) : Decoder (List DebugItem × Machine) := do
  let optionalString : Decoder (Option String) := do optionalAt s.string (← Decoder.ulebPlusOne)
  match op.toNat with
  | 0x01 => return ([], { m with gap := m.gap + (← Decoder.uleb) })
  | 0x02 => return ([], { m with line := m.line + (← Decoder.sleb) })
  | 0x03 => do
    let register ← Decoder.uleb
    let name ← optionalString
    let type ← optionalAt s.type (← Decoder.ulebPlusOne)
    return m.report (startLocal register name type none)
  | 0x04 => do
    let register ← Decoder.uleb
    let name ← optionalString
    let type ← optionalAt s.type (← Decoder.ulebPlusOne)
    return m.report (startLocal register name type (← optionalString))
  | 0x05 => return m.report (endLocal (← Decoder.uleb))
  | 0x06 => return m.report (restartLocal (← Decoder.uleb))
  | 0x07 => return m.report prologueEnd
  | 0x08 => return m.report epilogueBegin
  | 0x09 => return m.report (setFile (← optionalString))
  | _ => return m.special op

/-- Runs the machine to the end of its program, which has at most `room` instructions. -/
def run (s : Source) : (room : Nat) → Machine → List DebugItem → Decoder (List DebugItem)
  | 0, _, found => return found.reverse
  | room + 1, m, found => do
    let op ← Decoder.u1
    if op = endSequence then return found.reverse
    let (items, m) ← step s m op
    run s room m (items.reverse ++ found)

/-- The events of the program at the cursor. Every instruction takes a byte, and the read behind
the last one fails. -/
def decodeAll (s : Source) (lineStart : Int32) : Decoder (List DebugItem) := do
  run s ((← Decoder.available) + 1) { line := lineStart } []

end DebugItem

def DebugInfo.decode (s : Source) : Decoder DebugInfo := do
  let start ← Decoder.position
  let lineStart := (← Decoder.uleb).toInt32
  let count := (← Decoder.uleb).toNat
  if (← Decoder.available) < count then Decoder.fail (.debugParameters start count)
  let name : Decoder (Option String) := do optionalAt s.string (← Decoder.ulebPlusOne)
  let parameters ← name.repeated count
  return ⟨parameters, ← DebugItem.decodeAll s lineStart⟩

end Dalvik
