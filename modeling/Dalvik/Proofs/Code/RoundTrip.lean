import Dalvik.Proofs.Code.Handlers
import Dalvik.Proofs.Code.Header
import Dalvik.Proofs.Code.Parts
import Dalvik.Proofs.Instruction.RoundTrip

/-!
# Code items are read back

The header is read at the offset of the item, the instructions follow it at an even position, and
the blocks stand behind the padding that their table needs.
-/
namespace Dalvik
open Result

namespace CodeItem

variable {compact : Bool} {table : OpcodeTable} {r : Resolver} {s : Source}
  {site : CallSite → CallSite} {i : CodeItem} {placed : Placed} {position : Nat}

/-- The item as it is read back, with call sites that reading changes. -/
def normal (compact : Bool) (site : CallSite → CallSite) (i : CodeItem) : CodeItem :=
  { i with
    debugOffset := if compact then 0 else i.debugOffset
    instructions := i.instructions.map (Instruction.normal site)
    tries := sortedBy (compareOn TryBlock.start) i.tries }

/-- Everything in the item whose number is stored can be counted with the bits for that. -/
structure Counted (i : CodeItem) : Prop where
  instructions : ∀ x ∈ i.instructions, x.Counted
  tries : ∀ t ∈ i.tries, t.handler.Counted

theorem sorted_eq {tries sorted : List TryBlock} (h : TryBlock.sorted tries = .ok sorted) :
    sorted = sortedBy (compareOn TryBlock.start) tries := by
  unfold TryBlock.sorted at h
  dsimp only at h
  split at h
  · cases h
  · cases h
    rfl

theorem units_le_unitsOf {is : List Instruction} {x : Instruction} (hx : x ∈ is) :
    x.units ≤ Instruction.unitsOf is := by
  induction is with
  | nil => simp at hx
  | cons y is ih =>
    rw [Instruction.unitsOf_cons]
    rcases List.mem_cons.mp hx with rfl | hx
    · omega
    · have := ih hx
      omega

/-- An array inside of code that can be counted has elements that can be counted. -/
theorem counted_of_mem {is : List Instruction} (hw : ∀ x ∈ is, x.WellFormed)
    (hl : 2 * Instruction.unitsOf is < UInt32.size) : ∀ x ∈ is, x.Counted := by
  intro x hx
  have hunits := units_le_unitsOf hx
  obtain ⟨-, hwidth⟩ := hw x hx
  obtain ⟨o, operands⟩ := x
  cases operands with
  | arrayPayload width elements =>
    have hpos : 1 ≤ width.toNat := by
      simp only [Instruction.elementWidths, List.mem_cons, List.not_mem_nil, or_false] at hwidth
      rcases hwidth with rfl | rfl | rfl | rfl <;> decide
    have hmul := Nat.mul_le_mul_left elements.length hpos
    change 4 + (elements.length * width.toNat + 1) / 2 ≤ _ at hunits
    change elements.length < UInt32.size
    omega
  | _ => trivial

/-- The header is read at the offset of the item. -/
theorem header_eq {tries : List TryBlock} {front header : Bytes} {bytes : ByteArray} {start : Nat}
    (h : i.encodeHeader compact position tries = .ok (front, header))
    (hs : (front ++ header).Stands bytes start) :
    ∃ e : CodeHeader, (if compact then CodeHeader.decodeCompact else CodeHeader.decode) bytes
        (start + front.length) = .ok e (start + front.length + header.length) ∧
      e.registers = i.registers ∧ e.incoming = i.incoming ∧ e.outgoing = i.outgoing ∧
      e.tries = tries.length ∧ e.units.toNat = Instruction.unitsOf i.instructions ∧
      e.debugOffset = (if compact then 0 else i.debugOffset) ∧
      front.length % 2 = 0 ∧ header.length % 2 = 0 ∧ 0 < header.length := by
  obtain ⟨e, he, h⟩ := bind_eq_ok.mp h
  obtain ⟨htries, he⟩ := violation_guard_eq_ok.mp he
  obtain ⟨hunits, he⟩ := violation_guard_eq_ok.mp he
  have he := pure_eq_ok.mp he
  have htoNat : (UInt32.ofNat (Instruction.unitsOf i.instructions)).toNat =
      Instruction.unitsOf i.instructions := UInt32.toNat_ofNat_of_lt' (Nat.lt_succ_of_le (by omega))
  cases compact with
  | true =>
    rw [if_pos rfl] at h ⊢
    have hread := CodeHeader.decodeCompact_eq h (by rw [← he]; dsimp only; omega) hs
    obtain ⟨-, hfront, hheader⟩ := CodeHeader.encodeCompact_eq_ok_iff.mp h
    refine ⟨_, hread, ?_⟩
    rw [hfront, hheader, Bytes.length_flatMap_u2, Bytes.length_flatMap_u2]
    subst he
    refine ⟨rfl, rfl, rfl, rfl, htoNat, rfl, by omega, by omega, ?_⟩
    simp [CodeHeader.Small.header]
  | false =>
    rw [if_neg (by simp)] at h ⊢
    obtain ⟨rfl, rfl⟩ := Prod.mk.inj (pure_eq_ok.mp h)
    have hread := CodeHeader.decode_reads e (by rw [← he]; dsimp only; omega) hs
    refine ⟨_, hread, ?_⟩
    subst he
    refine ⟨rfl, rfl, rfl, rfl, htoNat, rfl, rfl, ?_, ?_⟩ <;> simp [CodeHeader.encode]

theorem decode_bind (bytes : ByteArray) (index : Nat) :
    decode compact table s bytes index =
      ((if compact then CodeHeader.decodeCompact else CodeHeader.decode) >>= fun h => do
        let instructions ← Instruction.decodeAll table s h.units.toNat
        let tries ← TryBlock.decodeAll s index h.tries
        return CodeItem.mk h.registers h.incoming h.outgoing h.debugOffset instructions tries :
          Decoder CodeItem) bytes index := by
  cases compact <;> rfl

theorem alignUp_even (position : Nat) (compact : Bool) :
    alignUp position (alignment compact) % 2 = 0 := by
  cases compact with
  | true => exact alignUp_mod position 1
  | false =>
    have h : alignUp position 4 % 4 = 0 := alignUp_mod position 2
    change alignUp position 4 % 2 = 0
    omega

/-- The blocks behind the code, with the padding before them if there are some. -/
theorem blocks_eq (hrs : r.InverseOnIds s) {tries : List TryBlock} {blocks : Bytes}
    (h : TryBlock.encodeAll r tries = .ok blocks) (hc : ∀ t ∈ tries, t.handler.Counted) (item : Nat)
    {bytes : ByteArray} {index : Nat}
    (hs : Bytes.Stands ((if tries.isEmpty then [] else padding index TryBlock.alignment) ++ blocks)
      bytes index) :
    ∃ after, TryBlock.decodeAll s item tries.length bytes index = .ok tries after := by
  by_cases hne : tries = []
  · subst hne
    exact ⟨index, rfl⟩
  · rw [if_neg (by simpa using hne)] at hs
    have hright := hs.right
    rw [length_padding] at hright
    exact ⟨_, TryBlock.decodeAll_eq hrs hne h hc item hright⟩

/-- In bytes that can be counted with 32 bits everything is counted. -/
theorem counted_tries_of_encode (h : i.encode compact table r position = .ok placed)
    (hl : placed.bytes.length < UInt32.size) : ∀ t ∈ i.tries, t.handler.Counted := by
  obtain ⟨tries, front, header, code, blocks, hparts⟩ := exists_parts h
  rw [hparts.bytes] at hl
  simp only [List.length_append] at hl
  intro t ht
  refine TryBlock.counted_of_encodeAll hparts.behind (by omega) t ?_
  rw [sorted_eq hparts.sorted]
  exact (sortedBy_perm _ _).mem_iff.mpr ht

theorem counted_of_encode (hw : ∀ x ∈ i.instructions, x.WellFormed)
    (h : i.encode compact table r position = .ok placed) (hl : placed.bytes.length < UInt32.size) :
    i.Counted := by
  refine ⟨?_, counted_tries_of_encode h hl⟩
  obtain ⟨tries, front, header, code, blocks, hparts⟩ := exists_parts h
  have hlength := hparts.length
  rw [hparts.bytes] at hl
  simp only [List.length_append] at hl
  exact counted_of_mem hw (by omega)

/-- The parts of an item that is found at an offset: the header, the code units behind it at `place`,
and the blocks behind these. -/
structure Lies (compact : Bool) (table : OpcodeTable) (r : Resolver) (i : CodeItem)
    (bytes : ByteArray) (offset : Nat) (e : CodeHeader) (code : Bytes) (place : Nat) : Prop where
  header : (if compact then CodeHeader.decodeCompact else CodeHeader.decode) bytes offset =
    .ok e place
  registers : e.registers = i.registers
  incoming : e.incoming = i.incoming
  outgoing : e.outgoing = i.outgoing
  tries : e.tries = i.tries.length
  units : e.units.toNat = Instruction.unitsOf i.instructions
  debugOffset : e.debugOffset = if compact then 0 else i.debugOffset
  encoded : Instruction.encodeAll table r place i.instructions = .ok code
  length : code.length = 2 * Instruction.unitsOf i.instructions
  even : place % 2 = 0
  inside : place ≤ bytes.size
  stands : code.Stands bytes place
  blocks : ∀ s, r.InverseOnIds s → ∃ after,
    TryBlock.decodeAll s offset i.tries.length bytes (place + code.length) =
      .ok (sortedBy (compareOn TryBlock.start) i.tries) after

theorem exists_lies (hc : ∀ t ∈ i.tries, t.handler.Counted)
    (h : i.encode compact table r position = .ok placed) {bytes : ByteArray}
    (hs : placed.bytes.Stands bytes position) :
    ∃ e code place, i.Lies compact table r bytes placed.offset e code place := by
  obtain ⟨tries, front, header, code, blocks, hparts⟩ := exists_parts h
  have hsorted := sorted_eq hparts.sorted
  have hnumber : tries.length = i.tries.length := by rw [hsorted, length_sortedBy]
  have hcounted : ∀ t ∈ tries, t.handler.Counted := by
    intro t ht
    rw [hsorted] at ht
    exact hc t ((sortedBy_perm _ _).mem_iff.mp ht)
  have hplace := length_padding position (alignment compact)
  have heven := alignUp_even position compact
  have hoffset := hparts.offset
  -- the parts of the item at their places
  rw [hparts.bytes] at hs
  have hhead := hs.right
  rw [← List.append_assoc] at hhead
  obtain ⟨e, hread, hregisters, hincoming, houtgoing, hcount, hunits, hdebug, hfront, hsize, hpos⟩ :=
    header_eq hparts.head hhead.left
  have hinside := hhead.left.length_le
  have hbody := hhead.right
  have hindex : position + (padding position (alignment compact)).length +
      (front ++ header).length = placed.offset + header.length := by
    rw [hoffset, List.length_append, Nat.add_assoc _ front.length]
  rw [hindex] at hbody
  simp only [List.length_append] at hinside
  rw [← hoffset] at hread
  refine ⟨e, code, placed.offset + header.length, ?_⟩
  exact {
    header := hread
    registers := hregisters
    incoming := hincoming
    outgoing := houtgoing
    tries := hcount.trans hnumber
    units := hunits
    debugOffset := hdebug
    encoded := hparts.encoded
    length := hparts.length
    even := by omega
    inside := by omega
    stands := hbody.left
    blocks := fun s hrs => by
      rw [← hnumber, ← hsorted]
      exact blocks_eq hrs hparts.behind hcounted _ hbody.right }

/-- An item is read back at its offset. -/
theorem decode_eq (ht : table.Faithful) (hrs : r.InverseUpTo s site)
    (hw : ∀ x ∈ i.instructions, x.WellFormed) (hc : i.Counted)
    (h : i.encode compact table r position = .ok placed) {bytes : ByteArray}
    (hs : placed.bytes.Stands bytes position) :
    (decode compact table s).valueAt bytes placed.offset = .ok (i.normal compact site) := by
  obtain ⟨e, code, place, hlies⟩ := exists_lies hc.tries h hs
  obtain ⟨after, hafter⟩ := hlies.blocks s hrs.onIds
  have hinstructions := Instruction.decodeAll_eq_ok ht hrs hw hc.instructions hlies.encoded hlies.even
    hlies.inside hlies.stands
  simp only [Decoder.valueAt]
  rw [decode_bind, Decoder.bind_of_ok hlies.header, hlies.units, Decoder.bind_of_ok hinstructions,
    hlies.tries, Decoder.bind_of_ok hafter]
  simp only [hlies.registers, hlies.incoming, hlies.outgoing, hlies.debugOffset]
  rfl

end CodeItem

end Dalvik
