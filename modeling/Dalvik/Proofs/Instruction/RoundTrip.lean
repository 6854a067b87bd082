import Dalvik.Contents.Data
import Dalvik.Proofs.Instruction.Units
import Dalvik.Proofs.Pools

/-!
# Instructions are read back

A list of instructions that is written from an even position on is read back by the table of the
same target, if the reader is told the number of its units. The run of the reader follows the list,
and the position before each instruction is even.
-/
namespace Dalvik

/-- No two opcodes of a valid target share a number. -/
theorem WriteOptions.faithful {o : WriteOptions} (h : o.validate = .ok ()) :
    (OpcodeTable.ofTarget o.target).Faithful := fun _ _ hv =>
  OpcodeTable.opcode_of_value (Options.mem_platforms (validate_options h)) hv

namespace Instruction
open Decoder

variable {table : OpcodeTable} {r : Resolver} {s : Source} {site : CallSite → CallSite}

/-- The instruction with the cases of a sparse switch in the order of their keys. -/
def sorted (i : Instruction) : Instruction :=
  match i.operands with
  | .sparseSwitchPayload cases =>
    { i with operands := .sparseSwitchPayload (sortedBy (compareOn SwitchCase.key) cases) }
  | _ => i

/-- The instruction as it is read back, with call sites that reading changes. -/
def normal (site : CallSite → CallSite) (i : Instruction) : Instruction := (i.renamed site).sorted

@[simp] theorem normal_id : normal id = sorted := by
  funext i
  rw [normal, renamed_id]

/-- An instruction that is read refers to what it was written with. -/
theorem references_normal (site : CallSite → CallSite) (i : Instruction) :
    (i.normal site).references = i.references.map (Reference.renamed site) := by
  have hsorted : (i.renamed site).sorted.references = (i.renamed site).references := by
    unfold sorted
    split
    next hcases =>
      rw [references, references, hcases]
      rfl
    · rfl
  rw [normal, hsorted]
  exact Operands.references_renamed site i.operands

/-- The elements of an array can be counted with 32 bits. -/
def Counted (i : Instruction) : Prop :=
  match i.operands with
  | .arrayPayload _ elements => elements.length < UInt32.size
  | _ => True

/-! ## One instruction -/

theorem decode_encode (ht : table.Faithful) (hrs : r.InverseUpTo s site) {i : Instruction}
    (hw : i.WellFormed) (hc : i.Counted) {position : Nat} {out : Bytes}
    (h : i.encode table r position = .ok out) :
    (decode table s).ReadsEven out (i.normal site) ∧ out.length = 2 * i.units := by
  obtain ⟨o, operands⟩ := i
  obtain ⟨hf, hwidth⟩ := hw
  cases hp : operands.format.isPayload with
  | false =>
    have hs : normal site ⟨o, operands⟩ = ⟨o, operands.renamed site⟩ := by
      cases operands <;> first | rfl | cases hp
    rw [hs]
    exact ⟨(decode_encode_reads ht hrs hf hp h).even, length_encode h⟩
  | true =>
    refine ⟨?_, length_encode h⟩
    cases operands with
    | arrayPayload width elements => exact arrayPayload_reads ht hf.symm hc hwidth h
    | packedSwitchPayload firstKey targets => exact packedSwitch_reads ht hf.symm h
    | sparseSwitchPayload cases => exact sparseSwitch_reads ht hf.symm h
    | _ => cases hp

/-! ## Lists -/

theorem decodeUpTo_end {start limit room : Nat} {found : List Instruction} {bytes : ByteArray}
    {index : Nat} (h : limit ≤ index) :
    decodeUpTo table s start limit room found bytes index = .ok found.reverse index := by
  cases room with
  | zero => rfl
  | succ room =>
    change (if limit ≤ index then pure found.reverse else _ : Decoder _) bytes index = _
    rw [if_pos h]
    rfl

theorem decodeUpTo_step {start limit room : Nat} {found : List Instruction} {bytes : ByteArray}
    {index after : Nat} {i : Instruction} (h : index < limit)
    (hi : decode table s bytes index = .ok i after) :
    decodeUpTo table s start limit (room + 1) found bytes index =
      decodeUpTo table s start limit room (i :: found) bytes after := by
  change (if limit ≤ index then pure found.reverse else _ : Decoder _) bytes index = _
  rw [if_neg (by omega)]
  refine bind_of_ok ?_
  simp only [Decoder.within, hi]

/-- The reader has read the instructions `found` and finds the bytes `rest` before `limit`. -/
theorem decodeUpTo_eq_ok (ht : table.Faithful) (hrs : r.InverseUpTo s site) {start : Nat}
    {is : List Instruction} {done out : Bytes} (hw : ∀ i ∈ is, i.WellFormed)
    (hc : ∀ i ∈ is, i.Counted) (h : encodeFrom table r start done is = .ok out) :
    ∃ rest, out = done ++ rest ∧
      ∀ ⦃bytes index⦄ (first : Nat) (found : List Instruction) (room : Nat), index % 2 = 0 →
        rest.Stands bytes index → is.length ≤ room →
          decodeUpTo table s first (index + rest.length) room found bytes index =
            .ok (found.reverse ++ is.map (normal site)) (index + rest.length) := by
  induction is generalizing done with
  | nil =>
    cases h
    refine ⟨[], by simp, fun bytes index first found room hi hs hroom => ?_⟩
    rw [List.map_nil, List.append_nil]
    exact decodeUpTo_end (Nat.le_refl _)
  | cons i is ih =>
    obtain ⟨hwi, hw⟩ := List.forall_mem_cons.mp hw
    obtain ⟨hci, hc⟩ := List.forall_mem_cons.mp hc
    obtain ⟨part, hpart, h⟩ := Result.bind_eq_ok.mp h
    obtain ⟨hread, hlen⟩ := decode_encode ht hrs hwi hci (Result.within_eq_ok_iff.mp hpart)
    obtain ⟨rest, hout, hrun⟩ := ih hw hc h
    refine ⟨part ++ rest, by rw [hout, List.append_assoc],
      fun bytes index first found room hi hs hroom => ?_⟩
    obtain ⟨room, rfl⟩ : ∃ n, room = n + 1 := Nat.exists_eq_succ_of_ne_zero (by
      rw [List.length_cons] at hroom
      omega)
    have hpos := units_pos i
    have hlimit : index + (part ++ rest).length = index + part.length + rest.length := by
      rw [List.length_append, Nat.add_assoc]
    have hle := hs.left.length_le
    rw [hlimit, decodeUpTo_step (by omega) (hread hi (by omega) hs.left),
      hrun _ _ room (by omega) hs.right (by rw [List.length_cons] at hroom; omega)]
    simp

theorem decodeAll_eq_ok (ht : table.Faithful) (hrs : r.InverseUpTo s site) {start : Nat}
    {is : List Instruction} {out : Bytes} (hw : ∀ i ∈ is, i.WellFormed)
    (hc : ∀ i ∈ is, i.Counted) (h : encodeAll table r start is = .ok out) {bytes : ByteArray}
    {index : Nat} (hi : index % 2 = 0) (hle : index ≤ bytes.size) (hs : out.Stands bytes index) :
    decodeAll table s (unitsOf is) bytes index =
      .ok (is.map (normal site)) (index + out.length) := by
  have hlen := length_encodeAll h
  rw [encodeAll_eq] at h
  obtain ⟨_, rfl, hrun⟩ := decodeUpTo_eq_ok ht hrs hw hc h
  have hsize := hs.length_le
  have hrun : (decodeUpTo table s index (index + 2 * unitsOf is) (unitsOf is) []).upTo
      (index + 2 * unitsOf is) bytes index = .ok (is.map (normal site)) (index + out.length) := by
    rw [Decoder.upTo, Access.slice_eq_ok (Nat.zero_le _) (by omega), ← hlen]
    exact hrun index [] (unitsOf is) hi (hs.take (Nat.le_refl _)) (length_le_unitsOf is)
  change (if bytes.size < index + 2 * unitsOf is then _ else _ : Decoder _) bytes index = _
  rw [if_neg (by omega)]
  refine (bind_of_ok hrun).trans ?_
  change (if index + out.length ≠ index + 2 * unitsOf is then _ else _ : Decoder _) bytes _ = _
  rw [if_neg (by omega)]
  rfl

/-- A literal, an array that has to be filled up and a string. -/
def arrayCode : List Instruction :=
  [⟨⟨18, by decide⟩, .f11n 1 (-1)⟩, ⟨⟨226, by decide⟩, .arrayPayload 1 [5, -128, 127]⟩,
    ⟨⟨26, by decide⟩, .f21c 0 (.string "b")⟩]

end Instruction

end Dalvik
