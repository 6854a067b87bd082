import Dalvik.MapList

/-!
# Sections of the data

A section is a run of items, each behind the padding that it needs. Items refer to each other by
their offsets, and 0 is nobody's offset.
-/
namespace Dalvik

/-- An item in bytes with the padding before it, and the place that its offset means. -/
structure Placed where
  bytes : Bytes
  offset : Nat
  deriving DecidableEq, Repr

namespace Placed

/-- An item that begins at the next multiple of `alignment`. -/
def aligned (alignment position : Nat) (item : Bytes) : Placed :=
  let pad := padding position alignment
  ⟨pad ++ item, position + pad.length⟩

/-- Nothing, for an owner that has no item. -/
def nothing : Placed := ⟨[], 0⟩

/-- Items one after another from `position` on. -/
def all {α : Type} (place : Nat → α → Result Placed) (position : Nat) :
    List α → Result (List Placed)
  | [] => .ok []
  | a :: as => do
    let p ← place position a
    return p :: (← all place (position + p.bytes.length) as)

end Placed

structure DataSection where
  kind : SectionKind
  start : Nat
  items : List Placed

namespace DataSection

variable {α : Type}

def empty (kind : SectionKind) (start : Nat) : DataSection := ⟨kind, start, []⟩

/-- A section whose items are placed by `place`. -/
def build (kind : SectionKind) (place : Nat → α → Result Placed) (start : Nat) (items : List α) :
    Result DataSection :=
  return ⟨kind, start, ← Placed.all place start items⟩

/-- A section whose items all need the same alignment. -/
def ofItems (kind : SectionKind) (alignment : Nat) (encode : α → Result Bytes) (start : Nat)
    (items : List α) : Result DataSection :=
  build kind (fun position a => return Placed.aligned alignment position (← encode a)) start items

def bytes (s : DataSection) : Bytes := s.items.flatMap Placed.bytes

def stop (s : DataSection) : Nat := s.start + s.bytes.length

/-- What the map says about the section; nothing if it has no items. -/
def mapItems (s : DataSection) : List MapItem :=
  match s.items.filter (·.offset != 0) with
  | [] => []
  | first :: rest => [MapItem.of s.kind (rest.length + 1) first.offset]

/-- The offset of the item with an id, which is called `what` if there is none. -/
def offset (s : DataSection) (what : String) (id : Option Nat) : Result UInt32 :=
  match id.bind fun i => s.items[i]? with
  | some p =>
    if p.offset = 0 then Result.unresolved (.itemOffset what id) else .ok (UInt32.ofNat p.offset)
  | none => Result.unresolved (.itemOffset what id)

/-- The offset of an item that need not be, 0 in its absence. -/
def optionalOffset (s : DataSection) (what : String) : Option Nat → Result UInt32
  | none => .ok 0
  | some id => s.offset what (some id)

end DataSection

end Dalvik
