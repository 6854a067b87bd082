import Dalvik.Proofs.Instruction.Taken

/-!
# Instructions that can be counted

The number of the elements of an array is read from a word of 32 bits, so no instruction that is read
has more of them. What is written for a list of instructions is read back if all of its arrays can be
counted so, and only then.
-/
namespace Dalvik.Instruction
open Decoder

variable {table : OpcodeTable} {r : Resolver} {s : Source}

theorem Held.counted {o : Opcode} {argument : Nat} {units : List UInt16} {operands : Operands}
    (h : Held s o argument units operands) : Counted ⟨o, operands⟩ := by
  cases h <;> trivial

theorem decode_yields_counted (table : OpcodeTable) (s : Source) :
    Yields (decode table s) Counted := by
  rintro bytes index ⟨o, operands⟩ after hrun
  obtain ⟨first, -, -, h⟩ := decode_eq_ok hrun
  by_cases hf : o.format = .arrayPayload
  · obtain ⟨width, elements, _, rfl, hlength, -⟩ := array_of_decodeOperands hf h
    exact hlength
  · obtain ⟨units, -, -, -, hheld⟩ := takes_decodeOperands hf h
    exact hheld.counted

theorem Stream.counted {bytes : ByteArray} {index after : Nat} {is : List Instruction}
    (h : Stream table s bytes index is after) : ∀ i ∈ is, i.Counted := by
  induction h with
  | done => exact List.forall_mem_nil _
  | next hi _ ih => exact List.forall_mem_cons.mpr ⟨decode_yields_counted table s hi, ih⟩

theorem decodeAll_yields_counted (table : OpcodeTable) (s : Source) (count : Nat) :
    Yields (decodeAll table s count) fun is => ∀ i ∈ is, i.Counted :=
  fun _ _ _ _ hrun => (decodeAll_eq_ok_iff.mp hrun).2.2.counted

/-- Sorting the cases of a switch leaves arrays alone. -/
theorem counted_sorted {i : Instruction} : i.sorted.Counted ↔ i.Counted := by
  obtain ⟨o, operands⟩ := i
  cases operands <;> exact Iff.rfl

end Dalvik.Instruction
