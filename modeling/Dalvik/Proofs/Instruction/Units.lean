import Dalvik.Code
import Dalvik.Proofs.Instruction.Tables

/-!
# The size of what is written

An instruction takes two bytes for each of its code units, even if its operands do not have the
format of its opcode. So the units before an instruction say where it is written, and a table in the
code is only written where that is a multiple of four bytes.
-/
namespace Dalvik.Instruction

variable {table : OpcodeTable} {r : Resolver} {i : Instruction} {is : List Instruction}
  {start position : Nat} {out : Bytes}

/-! ## One instruction -/

theorem length_encode (h : i.encode table r position = .ok out) : out.length = 2 * i.units := by
  obtain ⟨o, operands⟩ := i
  cases hp : operands.format.isPayload with
  | false => exact length_encode_of_not_payload hp h
  | true =>
    cases operands with
    | packedSwitchPayload firstKey targets =>
      obtain ⟨op, -, -, -, rfl⟩ := packedSwitch_eq_ok h
      simp only [units, Operands.units, List.length_append, length_words, Bytes.length_u2,
        Bytes.length_u4, length_unitBytes]
      omega
    | sparseSwitchPayload cases =>
      obtain ⟨op, -, -, -, rfl⟩ := sparseSwitch_eq_ok h
      simp only [units, Operands.units, List.length_append, length_words, length_sortedBy,
        Bytes.length_u2, length_unitBytes]
      omega
    | arrayPayload width elements =>
      obtain ⟨op, parts, fill, -, -, hparts, hfill, rfl⟩ := arrayPayload_eq_ok h
      have hlen := (elements_read hparts).2
      simp only [units, Operands.units, List.length_append, Bytes.length_u2, Bytes.length_u4]
      omega
    | _ => cases hp

theorem aligned_of_encode (hp : i.isPayload = true) (h : i.encode table r position = .ok out) :
    position % tableAlignment = 0 := by
  obtain ⟨o, operands⟩ := i
  cases operands with
  | packedSwitchPayload firstKey targets =>
    obtain ⟨_, -, halign, -⟩ := packedSwitch_eq_ok h
    exact halign
  | sparseSwitchPayload cases =>
    obtain ⟨_, -, halign, -⟩ := sparseSwitch_eq_ok h
    exact halign
  | arrayPayload width elements =>
    obtain ⟨_, _, _, -, halign, -⟩ := arrayPayload_eq_ok h
    exact halign
  | _ => cases hp

theorem units_pos (i : Instruction) : 0 < i.units := by
  obtain ⟨o, operands⟩ := i
  cases operands <;> simp only [units, Operands.units, Operands.format, Format.units] <;> omega

/-! ## Lists -/

theorem unitsOf_cons (i : Instruction) (is : List Instruction) :
    unitsOf (i :: is) = i.units + unitsOf is := rfl

theorem length_le_unitsOf (is : List Instruction) : is.length ≤ unitsOf is := by
  induction is with
  | nil => exact Nat.le_refl 0
  | cons i is ih =>
    have := units_pos i
    rw [unitsOf_cons, List.length_cons]
    omega

/-- The instructions one after another behind the bytes `done`, which begin at `start`. -/
def encodeFrom (table : OpcodeTable) (r : Resolver) (start : Nat) (done : Bytes) :
    List Instruction → Result Bytes
  | [] => .ok done
  | i :: is => do
    let part ← (i.encode table r (start + done.length)).within
      s!"{i.opcode.name} at unit {done.length / 2}"
    encodeFrom table r start (done ++ part) is

theorem encodeAll_eq : encodeAll table r start is = encodeFrom table r start [] is := by
  have loop (done : Array UInt8) :
      (is.foldlM (fun (out : Array UInt8) i => do
        let part : Bytes ← (i.encode table r (start + out.size)).within
          s!"{i.opcode.name} at unit {out.size / 2}"
        return out ++ part) done >>= fun out => pure out.toList) =
      encodeFrom table r start done.toList is := by
    induction is generalizing done with
    | nil => rfl
    | cons i is ih =>
      rw [List.foldlM_cons, bind_assoc, bind_assoc]
      refine congrArg _ (funext fun part => ?_)
      rw [pure_bind, ih, Array.toList_appendList]
  exact loop #[]

theorem length_encodeFrom {done : Bytes} (h : encodeFrom table r start done is = .ok out) :
    out.length = done.length + 2 * unitsOf is := by
  induction is generalizing done with
  | nil =>
    cases h
    rfl
  | cons i is ih =>
    obtain ⟨part, hpart, h⟩ := Result.bind_eq_ok.mp h
    rw [ih h, List.length_append, length_encode (Result.within_eq_ok_iff.mp hpart), unitsOf_cons]
    omega

theorem length_encodeAll (h : encodeAll table r start is = .ok out) :
    out.length = 2 * unitsOf is := by
  rw [encodeAll_eq] at h
  rw [length_encodeFrom h, List.length_nil, Nat.zero_add]

theorem exists_encodeAll (h : ∀ i ∈ is, ∀ position, ∃ part, i.encode table r position = .ok part) :
    ∃ out, encodeAll table r start is = .ok out := by
  rw [encodeAll_eq]
  generalize ([] : Bytes) = done
  induction is generalizing done with
  | nil => exact ⟨_, rfl⟩
  | cons i is ih =>
    obtain ⟨hi, his⟩ := List.forall_mem_cons.mp h
    obtain ⟨part, hpart⟩ := hi (start + done.length)
    obtain ⟨out, hout⟩ := ih his (done ++ part)
    exact ⟨out, Result.bind_eq_ok.mpr ⟨part, Result.within_eq_ok_iff.mpr hpart, hout⟩⟩

theorem encodeFrom_append (done : Bytes) (is after : List Instruction) :
    encodeFrom table r start done (is ++ after) =
      encodeFrom table r start done is >>= fun out => encodeFrom table r start out after := by
  induction is generalizing done with
  | nil => rfl
  | cons i is ih =>
    simp only [List.cons_append, encodeFrom, bind_assoc, ih]

/-- Where some instructions have been written the next one is written at the place where they end. -/
theorem encodeAll_append_cons (h : encodeAll table r start is = .ok out) (i : Instruction)
    (after : List Instruction) : encodeAll table r start (is ++ i :: after) =
      (i.encode table r (start + out.length)).within
          s!"{i.opcode.name} at unit {out.length / 2}" >>= fun part =>
        encodeFrom table r start (out ++ part) after := by
  rw [encodeAll_eq] at h ⊢
  rw [encodeFrom_append, h, Result.ok_bind]
  rfl

end Dalvik.Instruction
