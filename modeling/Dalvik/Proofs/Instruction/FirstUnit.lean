import Dalvik.Proofs.Instruction.RoundTrip
import Dalvik.Proofs.Placement.Decoders

/-!
# The first unit tells the opcode

The writer lays out the operands that an instruction has, the reader those that the opcode asks for.
Where the two agree, all that is written is read back. Where they do not, the first unit still tells
the opcode, with one exception: behind a low byte of zero stand both the instruction without effect
and the tables in the code.
-/
namespace Dalvik

namespace Opcode

/-- Only tables in the code have numbers of more than eight bits. -/
def fitsByte (e : Entry) : Bool :=
  e.format.isPayload || e.numberings.all fun n => n.value.toNat < 256

theorem all_fitsByte : entries.all fitsByte = true := by decide +kernel

theorem lt_of_value {table : OpcodeTable} {o : Opcode} {v : UInt16} (h : table.value o = .ok v)
    (hp : o.format.isPayload = false) : v.toNat < 256 := by
  have ho : o.value? table.target = some v := OpcodeTable.value_eq_ok.mp h
  obtain ⟨n, hn, -, rfl⟩ := Entry.exists_of_value? ho
  have hfits := List.all_eq_true.mp all_fitsByte o.entry (entry_mem o)
  have hformat : o.entry.format.isPayload = false := hp
  rw [fitsByte, hformat, Bool.false_or, List.all_eq_true] at hfits
  simpa using hfits n hn

end Opcode

namespace Instruction
open Decoder

variable {table : OpcodeTable} {r : Resolver} {s : Source} {i j : Instruction} {op : UInt16}
  {out rest : Bytes} {position : Nat}

/-! ## What an instruction begins with -/

/-- The bytes begin with a unit that holds the number of an opcode, in its low byte or as a whole. -/
def Begins (op : UInt16) (out : Bytes) : Prop :=
  ∃ first rest, out = unitBytes first ++ rest ∧ first < 65536 ∧
    (first % 256 = op.toNat ∨ first = op.toNat)

theorem begins_of_firstUnit {argument : Nat} (h : firstUnit op argument = .ok out) :
    Begins op out := by
  obtain ⟨hop, hargument, rfl⟩ := firstUnit_eq_ok h
  exact ⟨_, [], (List.append_nil _).symm, by omega, .inl (by omega)⟩

theorem begins_u2 (op : UInt16) : Begins op (Bytes.u2 op) :=
  ⟨op.toNat, [], by simp [unitBytes], op.toNat_lt, .inr rfl⟩

theorem Begins.append (h : Begins op out) (rest : Bytes) : Begins op (out ++ rest) := by
  obtain ⟨first, behind, rfl, hfirst⟩ := h
  exact ⟨first, behind ++ rest, List.append_assoc .., hfirst⟩

/-- Whatever the operands are, the number of the opcode comes first. -/
theorem begins_of_encode (h : i.encode table r position = .ok out) :
    ∃ op, table.value i.opcode = .ok op ∧ Begins op out := by
  obtain ⟨o, operands⟩ := i
  cases operands with
  | packedSwitchPayload firstKey targets =>
    obtain ⟨op, hop, -, -, rfl⟩ := packedSwitch_eq_ok h
    exact ⟨op, hop, (begins_u2 op).append _⟩
  | sparseSwitchPayload cases =>
    obtain ⟨op, hop, -, -, rfl⟩ := sparseSwitch_eq_ok h
    exact ⟨op, hop, (begins_u2 op).append _⟩
  | arrayPayload width elements =>
    obtain ⟨op, _, _, hop, -, -, -, rfl⟩ := arrayPayload_eq_ok h
    exact ⟨op, hop, (begins_u2 op).append _⟩
  | _ =>
    obtain ⟨op, hop, h⟩ := Result.bind_eq_ok.mp h
    refine ⟨op, hop, ?_⟩
    simp only [Result.bind_eq_ok, Result.pure_eq_ok] at h
    grind [begins_of_firstUnit, Begins.append]

/-! ## What the first unit is read as -/

/-- The number of the opcode that a first unit is read as. -/
def numberIn (first : Nat) : UInt16 := (if first % 256 = 0 then first else first % 256).toUInt16

theorem opcode_of_decode {bytes : ByteArray} {index after first : Nat} (hfirst : first < 65536)
    (hs : (unitBytes first).Stands bytes index)
    (h : decode table s bytes index = .ok j after) :
    table.opcode (numberIn first) = .ok j.opcode := by
  obtain ⟨_, _, hunit, h⟩ := bind_eq_ok.mp h
  rw [unit_reads hfirst hs] at hunit
  cases hunit
  obtain ⟨o, ho, h⟩ := lift_bind_eq_ok.mp h
  obtain ⟨operands, _, -, h⟩ := bind_eq_ok.mp h
  cases h
  simpa only [numberIn, decide_eq_true_eq] using ho

theorem numberIn_eq (hop : op.toNat % 256 = 0 ∨ op.toNat < 256) (hzero : op ≠ 0) {first : Nat}
    (h : first % 256 = op.toNat ∨ first = op.toNat) : numberIn first = op := by
  have hpos : op.toNat ≠ 0 := fun hn => hzero (UInt16.toNat_inj.mp hn)
  have hn : (if first % 256 = 0 then first else first % 256) = op.toNat := by
    split <;> omega
  rw [numberIn, hn, Nat.toUInt16_eq, UInt16.ofNat_toNat]

/-- What is read where an instruction was written has the same opcode, if the number of the opcode is
not zero. -/
theorem opcode_eq_of_decode (ht : table.Faithful) (h : i.encode table r position = .ok out)
    (hzero : table.value i.opcode ≠ .ok 0) {bytes : ByteArray} {index after : Nat}
    (hs : out.Stands bytes index) (hread : decode table s bytes index = .ok j after) :
    j.opcode = i.opcode := by
  obtain ⟨op, hop, first, rest, rfl, hlt, hfirst⟩ := begins_of_encode h
  have hbyte : op.toNat % 256 = 0 ∨ op.toNat < 256 := by
    cases hp : i.opcode.format.isPayload with
    | true => exact .inl ((Opcode.firstUnitFits_of_value hop).1 hp)
    | false => exact .inr (Opcode.lt_of_value hop hp)
  have hnumber := numberIn_eq hbyte (fun hn => hzero (hn ▸ hop)) hfirst
  have hj := opcode_of_decode hlt hs.left hread
  rw [hnumber, ht hop] at hj
  exact (Except.ok.inj hj).symm

/-! ## Operands of the opcode's format -/

/-- An array without elements has one of the widths that are defined. -/
def HasWidth (i : Instruction) : Prop :=
  match i.operands with
  | .arrayPayload width [] => width ∈ elementWidths
  | _ => True

/-- The writer looks at the width with every element. -/
theorem wellFormed_of_encode (hf : i.format = i.opcode.format) (hw : i.HasWidth)
    (h : i.encode table r position = .ok out) : i.WellFormed := by
  obtain ⟨o, operands⟩ := i
  refine ⟨hf, ?_⟩
  cases operands with
  | arrayPayload width elements =>
    cases elements with
    | nil => exact hw
    | cons e es =>
      obtain ⟨_, _, _, -, -, hparts, -⟩ := arrayPayload_eq_ok h
      cases Result.mapM_eq_ok.mp hparts with
      | cons he _ => exact (elementBytes_eq_ok he).2.1
  | _ => trivial

/-- A single instruction is read back at the position it was written for and at every even one. -/
theorem decode_eq_ok_of_encode (ht : table.Faithful) (hrs : r.Inverse s) (hw : i.WellFormed)
    (hc : i.Counted) (h : i.encode table r position = .ok out) {bytes : ByteArray} {index : Nat}
    (hindex : index = position ∨ index % 2 = 0) (hs : out.Stands bytes index)
    (hle : index ≤ bytes.size) : decode table s bytes index = .ok i.sorted (index + out.length) := by
  have hi : index % 2 = 0 ∨ i.isPayload = false := by
    cases hp : i.isPayload with
    | false => exact .inr rfl
    | true =>
      have halign := aligned_of_encode hp h
      rw [tableAlignment] at halign
      exact .inl (by omega)
  rw [← normal_id]
  cases hi with
  | inl heven => exact (decode_encode ht hrs.upTo hw hc h).1 heven hle hs
  | inr hp =>
    obtain ⟨o, operands⟩ := i
    have hsorted : normal id ⟨o, operands⟩ = ⟨o, operands.renamed id⟩ := by
      cases operands <;> first | rfl | cases hp
    rw [hsorted]
    exact decode_encode_reads ht hrs.upTo hw.1 hp h hs

theorem sorted_opcode (i : Instruction) : i.sorted.opcode = i.opcode := by
  unfold sorted
  split <;> rfl

/-! ## What the writer accepts -/

/-- An instruction whose operands have the format of its opcode is read back wherever it stands, as
itself with the cases of a switch in order. Of any other instruction that is written, whatever it is
read as, the opcode is kept, unless the number of the opcode is zero. -/
theorem decode_of_encode {o : WriteOptions} (ho : o.validate = .ok ()) (hrs : r.Inverse s)
    (h : i.encode (.ofTarget o.target) r position = .ok out) (before after : Bytes)
    (hbefore : before.length = position ∨ before.length % 2 = 0) :
    (i.format = i.opcode.format → i.HasWidth → i.Counted →
      (decode (.ofTarget o.target) s).decodeAt (before ++ out ++ after).toByteArray before.length =
        .ok (i.sorted, before.length + out.length) ∧ i.sorted.opcode = i.opcode) ∧
    ((OpcodeTable.ofTarget o.target).value i.opcode ≠ .ok 0 → ∀ j stop,
      (decode (.ofTarget o.target) s).decodeAt (before ++ out ++ after).toByteArray before.length =
        .ok (j, stop) → j.opcode = i.opcode) := by
  have ht := WriteOptions.faithful ho
  have hs := Bytes.stands_toByteArray before out after
  have hle := Bytes.length_le_size_toByteArray before out after
  constructor
  · intro hf hw hc
    refine ⟨?_, sorted_opcode i⟩
    exact decodeAt_eq_ok.mpr
      (decode_eq_ok_of_encode ht hrs (wellFormed_of_encode hf hw h) hc h hbefore hs hle)
  · intro hzero j stop hread
    exact opcode_eq_of_decode ht h hzero hs (decodeAt_eq_ok.mp hread)

/-- An array whose bytes are filled up. -/
theorem decode_of_encode_bytes :
    (⟨⟨226, by decide⟩, .arrayPayload 1 [5, -128, 127]⟩ : Instruction).encode
        (.ofTarget (WriteOptions.target {})) twoNames 4 =
      .ok [0, 3, 1, 0, 3, 0, 0, 0, 5, 128, 127, 0] ∧
    (decode (.ofTarget (WriteOptions.target {})) twoNamesSource).decodeAt
        ([0, 0, 0, 0, 0, 3, 1, 0, 3, 0, 0, 0, 5, 128, 127, 0, 0xff] : Bytes).toByteArray 4 =
      .ok (⟨⟨226, by decide⟩, .arrayPayload 1 [5, -128, 127]⟩, 16) := by
  have h : (⟨⟨226, by decide⟩, .arrayPayload 1 [5, -128, 127]⟩ : Instruction).encode
      (.ofTarget (WriteOptions.target {})) twoNames 4 =
        .ok [0, 3, 1, 0, 3, 0, 0, 0, 5, 128, 127, 0] := by decide +kernel
  have hread := decode_of_encode (o := {}) rfl inverse_twoNames h [0, 0, 0, 0] [0xff] (.inl rfl)
  exact ⟨h, (hread.1 (by decide +kernel) trivial (by decide : 3 < UInt32.size)).1⟩

/-- Given a register and a word, the instruction without effect is written as ten bytes, and eight of
them are read back as a switch without cases. -/
theorem misread_nop :
    (⟨⟨0, by decide⟩, .f51l 1 0⟩ : Instruction).encode (.ofTarget (WriteOptions.target {})) twoNames 0 =
      .ok [0, 1, 0, 0, 0, 0, 0, 0, 0, 0] ∧
    (decode (.ofTarget (WriteOptions.target {})) twoNamesSource).decodeAt
        ([0, 1, 0, 0, 0, 0, 0, 0, 0, 0] : Bytes).toByteArray 0 =
      .ok (⟨⟨224, by decide⟩, .packedSwitchPayload 0 []⟩, 8) := by
  have h : (⟨⟨224, by decide⟩, .packedSwitchPayload 0 []⟩ : Instruction).encode
      (.ofTarget (WriteOptions.target {})) twoNames 0 = .ok [0, 1, 0, 0, 0, 0, 0, 0] := by
    decide +kernel
  have ht := WriteOptions.faithful (o := {}) rfl
  have hread := decode_eq_ok_of_encode (i := ⟨⟨224, by decide⟩, .packedSwitchPayload 0 []⟩) ht
    inverse_twoNames ⟨by decide +kernel, trivial⟩ trivial h (.inl rfl)
    (Bytes.stands_toByteArray [] [0, 1, 0, 0, 0, 0, 0, 0] [0, 0]) (Nat.zero_le _)
  exact ⟨by decide +kernel, decodeAt_eq_ok.mpr hread⟩

end Instruction

end Dalvik
