import Dalvik.Proofs.Code.RoundTrip

/-!
# Where the code of an item begins

Code with tables in it begins at a multiple of four bytes in both layouts, whatever the counts before
it are. From there on the places go by code units, so a table is out of place exactly behind an odd
number of them.
-/
namespace Dalvik
open Result

/-! ## The units before the code -/

namespace CodeHeader

variable {h : CodeHeader} {position : Nat} {front header : Bytes}

theorem length_unitsExtension (units : Nat) : (unitsExtension units).length % 2 = 0 := by
  unfold unitsExtension
  dsimp only
  split <;> simp

/-- The padding evens out the units of the four small counts; those of the code come in pairs. -/
theorem length_front (s : Small) (position units : Nat) :
    (position / 2 + (s.front position true units).length) % 2 = 0 := by
  have hunits := length_unitsExtension units
  unfold Small.front
  simp only [List.length_append, true_and]
  split
  · rw [List.length_singleton]
    omega
  · rw [List.length_nil]
    omega

theorem aligned_encode (h : CodeHeader) : h.encode.length % 4 = 0 := by
  simp [encode]

theorem aligned_encodeCompact (heven : position % 2 = 0)
    (he : h.encodeCompact position true = .ok (front, header)) :
    (position + (front ++ header).length) % 4 = 0 := by
  obtain ⟨-, rfl, rfl⟩ := encodeCompact_eq_ok_iff.mp he
  have hfront := length_front h.small position h.units.toNat
  have hheader : (h.small.header h.units.toNat).length = 2 := rfl
  rw [List.length_append, Bytes.length_flatMap_u2, Bytes.length_flatMap_u2, hheader]
  omega

end CodeHeader

namespace CodeItem

variable {compact : Bool} {i : CodeItem} {position : Nat} {tries : List TryBlock}
  {front header : Bytes}

theorem aligned_encodeHeader (hp : i.instructions.any Instruction.isPayload = true)
    (h : i.encodeHeader compact (alignUp position (alignment compact)) tries =
      .ok (front, header)) :
    (alignUp position (alignment compact) + (front ++ header).length) % 4 = 0 := by
  obtain ⟨e, -, h⟩ := bind_eq_ok.mp h
  cases compact with
  | true =>
    rw [if_pos rfl, hp] at h
    exact CodeHeader.aligned_encodeCompact (alignUp_even position true) h
  | false =>
    rw [if_neg (by simp)] at h
    obtain ⟨rfl, rfl⟩ := Prod.mk.inj (pure_eq_ok.mp h)
    have halign : alignUp position 4 % 4 = 0 := alignUp_mod position 2
    have hlength := CodeHeader.aligned_encode e
    change (alignUp position 4 + e.encode.length) % 4 = 0
    omega

/-- Behind `head` the code of the item is written from `start` on: if that fails the item fails, and
if the item is written the code stands there. -/
structure CodeBegins (compact : Bool) (table : OpcodeTable) (r : Resolver) (position : Nat)
    (i : CodeItem) (head : Bytes) (start : Nat) : Prop where
  place : start = position + head.length
  error : ∀ e, Instruction.encodeAll table r start i.instructions = .error e →
    i.encode compact table r position = .error e
  ok : ∀ placed, i.encode compact table r position = .ok placed → ∃ code rest,
    Instruction.encodeAll table r start i.instructions = .ok code ∧
      placed.bytes = head ++ code ++ rest

theorem codeBegins_of_header (table : OpcodeTable) (r : Resolver)
    (htries : TryBlock.sorted i.tries = .ok tries)
    (hheader : i.encodeHeader compact (alignUp position (alignment compact)) tries =
      .ok (front, header)) :
    i.CodeBegins compact table r position (padding position (alignment compact) ++ front ++ header)
      (alignUp position (alignment compact) + (front ++ header).length) := by
  have hplace := length_padding position (alignment compact)
  have hhead : position + (padding position (alignment compact) ++ front ++ header).length =
      alignUp position (alignment compact) + (front ++ header).length := by
    simp only [List.length_append] at hplace ⊢
    omega
  refine ⟨hhead.symm, fun e he => ?_, fun placed h => ?_⟩
  · unfold encode
    simp only [htries, ok_bind, hplace, hheader, hhead, he]
    rfl
  · unfold encode at h
    simp only [htries, ok_bind, hplace, hheader, hhead] at h
    obtain ⟨code, hcode, h⟩ := bind_eq_ok.mp h
    obtain ⟨-, h⟩ := violation_guard_eq_ok.mp h
    obtain ⟨blocks, -, h⟩ := bind_eq_ok.mp h
    obtain rfl := pure_eq_ok.mp h
    exact ⟨code, _, hcode, List.append_assoc _ _ _⟩

/-- Code with tables in it begins at a multiple of four bytes. Behind instructions that have been
written a table comes to be written at the place where they end; that place is refused exactly if
their units are odd in number, and then the item is not written. -/
theorem misaligned_payload_iff (table : OpcodeTable) (r : Resolver)
    (hp : i.instructions.any Instruction.isPayload = true)
    (htries : TryBlock.sorted i.tries = .ok tries)
    (hheader : i.encodeHeader compact (alignUp position (alignment compact)) tries =
      .ok (front, header)) :
    ∃ start, i.CodeBegins compact table r position
        (padding position (alignment compact) ++ front ++ header) start ∧
      start % 4 = 0 ∧
      ∀ before x after code, i.instructions = before ++ x :: after → x.isPayload = true →
        Instruction.encodeAll table r start before = .ok code →
          Instruction.encodeAll table r start i.instructions =
              ((x.encode table r (start + code.length)).within
                  s!"{x.opcode.name} at unit {code.length / 2}" >>= fun part =>
                Instruction.encodeFrom table r start (code ++ part) after) ∧
            (Instruction.checkAlignment (start + code.length) ≠ .ok () ↔
              Instruction.unitsOf before % 2 = 1) ∧
            (Instruction.unitsOf before % 2 = 1 → ∃ e,
              x.encode table r (start + code.length) = .error e ∧
                i.encode compact table r position =
                  .error (e.within s!"{x.opcode.name} at unit {code.length / 2}")) := by
  have hbegins := codeBegins_of_header table r htries hheader
  have hstart := aligned_encodeHeader hp hheader
  refine ⟨_, hbegins, hstart, fun before x after code his hx hcode => ?_⟩
  generalize alignUp position (alignment compact) + (front ++ header).length = start at *
  have hlength := Instruction.length_encodeAll hcode
  have hmisaligned : Instruction.checkAlignment (start + code.length) ≠ .ok () ↔
      Instruction.unitsOf before % 2 = 1 := by
    rw [ne_eq, Instruction.checkAlignment_eq_ok, Instruction.tableAlignment]
    omega
  have hnext := Instruction.encodeAll_append_cons hcode x after
  rw [← his] at hnext
  refine ⟨hnext, hmisaligned, fun hodd => ?_⟩
  cases he : x.encode table r (start + code.length) with
  | ok part =>
    have halign := Instruction.aligned_of_encode hx he
    exact absurd (Instruction.checkAlignment_eq_ok.mpr halign) (hmisaligned.mpr hodd)
  | error e =>
    rw [he] at hnext
    exact ⟨e, rfl, hbegins.error _ hnext⟩

/-- An array behind a single unit, with a number of registers that takes a unit before the header. -/
def misplacedArray : CodeItem := ⟨20, 1, 0, 0, Instruction.arrayCode, []⟩

/-- The code begins at the multiple of four behind the header, and its table is refused. -/
theorem encode_misplacedArray : TryBlock.sorted misplacedArray.tries = .ok [] ∧
    misplacedArray.encodeHeader true (alignUp 3 (alignment true)) [] =
      .ok ([0, 0, 16, 0], [0x00, 0x31, 0x21, 0x01]) ∧
    ∃ e : Error, misplacedArray.encode true (.ofTarget (WriteOptions.target {})) twoNames 3 =
      .error (e.within "array-payload at unit 1") := by
  have htries : TryBlock.sorted misplacedArray.tries = .ok [] := by cbv
  have hheader : misplacedArray.encodeHeader true (alignUp 3 (alignment true)) [] =
      .ok ([0, 0, 16, 0], [0x00, 0x31, 0x21, 0x01]) := by cbv
  have hcode : Instruction.encodeAll (.ofTarget (WriteOptions.target {})) twoNames 12
      (Instruction.arrayCode.take 1) = .ok [0x12, 0xf1] := by decide +kernel
  refine ⟨htries, hheader, ?_⟩
  obtain ⟨start, hbegins, -, hplaces⟩ := misaligned_payload_iff
    (.ofTarget (WriteOptions.target {})) twoNames (by decide) htries hheader
  obtain rfl : start = 12 := hbegins.place
  obtain ⟨-, -, hodd⟩ := hplaces (Instruction.arrayCode.take 1) _ _ _ rfl (by decide) hcode
  obtain ⟨e, -, he⟩ := hodd (by decide)
  exact ⟨e, he⟩

end CodeItem

end Dalvik
