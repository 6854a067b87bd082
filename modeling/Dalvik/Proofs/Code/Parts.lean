import Dalvik.Code.Item
import Dalvik.Proofs.Result

/-!
# The parts of a code item

An item is written as padding, the units in front of its header, the header, the instructions and
the blocks. Its offset is that of the header.
-/
namespace Dalvik.CodeItem
open Result

variable {compact : Bool} {table : OpcodeTable} {r : Resolver} {i : CodeItem} {position : Nat}
  {placed : Placed}

/-- What an item is put together from at a position. -/
structure Parts (compact : Bool) (table : OpcodeTable) (r : Resolver) (position : Nat)
    (i : CodeItem) (placed : Placed) (tries : List TryBlock) (front header code blocks : Bytes) :
    Prop where
  sorted : TryBlock.sorted i.tries = .ok tries
  head : i.encodeHeader compact (position + (padding position (alignment compact)).length) tries =
    .ok (front, header)
  encoded : Instruction.encodeAll table r (placed.offset + header.length) i.instructions = .ok code
  length : code.length = 2 * Instruction.unitsOf i.instructions
  behind : TryBlock.encodeAll r tries = .ok blocks
  offset : placed.offset = position + (padding position (alignment compact)).length + front.length
  bytes : placed.bytes = padding position (alignment compact) ++ (front ++ (header ++ (code ++
    ((if tries.isEmpty then []
      else padding (placed.offset + header.length + code.length) TryBlock.alignment) ++ blocks))))

theorem exists_parts (h : i.encode compact table r position = .ok placed) :
    ∃ tries front header code blocks,
      i.Parts compact table r position placed tries front header code blocks := by
  obtain ⟨tries, htries, h⟩ := bind_eq_ok.mp h
  obtain ⟨⟨front, header⟩, hheader, h⟩ := bind_eq_ok.mp h
  obtain ⟨code, hcode, h⟩ := bind_eq_ok.mp h
  obtain ⟨hlength, h⟩ := violation_guard_eq_ok.mp h
  obtain ⟨blocks, hblocks, h⟩ := bind_eq_ok.mp h
  obtain rfl := pure_eq_ok.mp h
  have hplace : position + (padding position (alignment compact) ++ front ++ header).length =
      position + (padding position (alignment compact)).length + front.length + header.length := by
    simp only [List.length_append]
    omega
  rw [hplace] at hcode
  refine ⟨tries, front, header, code, blocks, htries, hheader, hcode, not_not.mp hlength, hblocks,
    rfl, ?_⟩
  dsimp only
  rw [hplace]
  simp only [List.append_assoc]

theorem le_offset_of_encode (h : i.encode compact table r position = .ok placed) :
    position ≤ placed.offset := by
  obtain ⟨tries, front, header, code, blocks, hparts⟩ := exists_parts h
  have hoffset := hparts.offset
  omega

theorem offset_le_of_encode (h : i.encode compact table r position = .ok placed) :
    placed.offset ≤ position + placed.bytes.length := by
  obtain ⟨tries, front, header, code, blocks, hparts⟩ := exists_parts h
  rw [hparts.offset, hparts.bytes]
  simp only [List.length_append]
  omega

end Dalvik.CodeItem
