import Dalvik.Proofs.Instruction.Formats
import Dalvik.Proofs.Order

/-!
# Tables in the code are read back

Switches and arrays begin at a multiple of four bytes. An array is filled up to whole code units, so
reading it relies on an even position.
-/
namespace Dalvik.Instruction
open Decoder

variable {table : OpcodeTable} {r : Resolver} {s : Source} {o : Opcode} {op : UInt16}
  {position : Nat} {out : Bytes}

/-! ## Switches -/

theorem checkAlignment_eq_ok : checkAlignment position = .ok () ↔ position % tableAlignment = 0 :=
  Result.ite_violation_eq_ok.trans (and_iff_left rfl)

theorem switchHead_eq_ok {size : Nat} (h : switchHead position op size = .ok out) :
    position % tableAlignment = 0 ∧ size < 65536 ∧ out = Bytes.u2 op ++ unitBytes size := by
  obtain ⟨⟨⟩, halign, h⟩ := Result.bind_eq_ok.mp h
  obtain ⟨hsize, h⟩ := Result.violation_guard_eq_ok.mp h
  obtain rfl := Result.pure_eq_ok.mp h
  exact ⟨checkAlignment_eq_ok.mp halign, by omega, rfl⟩

theorem words_read (ns : List Int32) :
    (word.repeated ns.length).Reads (ns.flatMap (Bytes.u4 ·.toUInt32)) ns := by
  simpa using Reads.repeated_map (fun n : Int32 => Bytes.u4 n.toUInt32) id ns
    fun n _ => word_reads n

theorem length_words {α : Type} (f : α → UInt32) (as : List α) :
    (as.flatMap fun a => Bytes.u4 (f a)).length = 4 * as.length := by
  induction as with
  | nil => rfl
  | cons a as ih =>
    rw [List.flatMap_cons, List.length_append, ih, Bytes.length_u4, List.length_cons]
    omega

theorem packedSwitch_eq_ok {firstKey : Int32} {targets : List Int32}
    (h : encode table r position ⟨o, .packedSwitchPayload firstKey targets⟩ = .ok out) :
    ∃ op, table.value o = .ok op ∧ position % tableAlignment = 0 ∧ targets.length < 65536 ∧
      out = Bytes.u2 op ++ (unitBytes targets.length ++ (Bytes.u4 firstKey.toUInt32 ++
        targets.flatMap (Bytes.u4 ·.toUInt32))) := by
  obtain ⟨op, hop, h⟩ := Result.bind_eq_ok.mp h
  obtain ⟨_, hhead, h⟩ := Result.bind_eq_ok.mp h
  obtain rfl := Result.pure_eq_ok.mp h
  obtain ⟨halign, hsize, rfl⟩ := switchHead_eq_ok hhead
  exact ⟨op, hop, halign, hsize, by simp only [List.append_assoc]⟩

theorem packedSwitch_reads (ht : table.Faithful) (hf : o.format = .packedSwitchPayload)
    {firstKey : Int32} {targets : List Int32}
    (h : encode table r position ⟨o, .packedSwitchPayload firstKey targets⟩ = .ok out) :
    (decode table s).ReadsEven out ⟨o, .packedSwitchPayload firstKey targets⟩ := by
  obtain ⟨op, hop, -, hsize, rfl⟩ := packedSwitch_eq_ok h
  refine decode_readsEven ht hop (by rw [hf]; rfl) (Reads.even ?_)
  simp only [decodeOperands, hf]
  exact (unit_reads hsize).bind ((word_reads firstKey).bind (words_read targets).map)

theorem sparseSwitch_eq_ok {cases : List SwitchCase}
    (h : encode table r position ⟨o, .sparseSwitchPayload cases⟩ = .ok out) :
    ∃ op, table.value o = .ok op ∧ position % tableAlignment = 0 ∧
      (sortedBy (compareOn SwitchCase.key) cases).length < 65536 ∧
      out = Bytes.u2 op ++ (unitBytes (sortedBy (compareOn SwitchCase.key) cases).length ++
        ((sortedBy (compareOn SwitchCase.key) cases).flatMap (Bytes.u4 ·.key.toUInt32) ++
          (sortedBy (compareOn SwitchCase.key) cases).flatMap (Bytes.u4 ·.offset.toUInt32))) := by
  obtain ⟨op, hop, h⟩ := Result.bind_eq_ok.mp h
  obtain ⟨-, h⟩ := Result.violation_guard_eq_ok.mp h
  obtain ⟨_, hhead, h⟩ := Result.bind_eq_ok.mp h
  obtain rfl := Result.pure_eq_ok.mp h
  obtain ⟨halign, hsize, rfl⟩ := switchHead_eq_ok hhead
  exact ⟨op, hop, halign, hsize, by simp only [List.append_assoc]⟩

theorem sparseSwitch_reads (ht : table.Faithful) (hf : o.format = .sparseSwitchPayload)
    {cases : List SwitchCase}
    (h : encode table r position ⟨o, .sparseSwitchPayload cases⟩ = .ok out) :
    (decode table s).ReadsEven out
      ⟨o, .sparseSwitchPayload (sortedBy (compareOn SwitchCase.key) cases)⟩ := by
  obtain ⟨op, hop, -, hsize, rfl⟩ := sparseSwitch_eq_ok h
  generalize sortedBy (compareOn SwitchCase.key) cases = cases' at hsize ⊢
  refine decode_readsEven ht hop (by rw [hf]; rfl) (Reads.even ?_)
  simp only [decodeOperands, hf]
  have hkeys : (word.repeated cases'.length).Reads (cases'.flatMap (Bytes.u4 ·.key.toUInt32))
      (cases'.map SwitchCase.key) := by
    simpa [List.flatMap_map] using words_read (cases'.map SwitchCase.key)
  have hoffsets : (word.repeated cases'.length).Reads
      (cases'.flatMap (Bytes.u4 ·.offset.toUInt32)) (cases'.map SwitchCase.offset) := by
    simpa [List.flatMap_map] using words_read (cases'.map SwitchCase.offset)
  have hzip : List.zipWith SwitchCase.mk (cases'.map SwitchCase.key)
      (cases'.map SwitchCase.offset) = cases' := by
    simp [List.zipWith_map, List.zipWith_self]
  refine (unit_reads hsize).bind (hkeys.bind (hoffsets.bind_last ?_))
  rw [hzip]
  exact Reads.pure _

/-! ## Arrays -/

theorem toNat_elementWidth {width : UInt16} (h : width ∈ elementWidths) :
    width.toNat = 1 ∨ width.toNat = 2 ∨ width.toNat = 4 ∨ width.toNat = 8 := by
  simp only [elementWidths, List.mem_cons, List.not_mem_nil, or_false] at h
  obtain rfl | rfl | rfl | rfl := h <;> simp

theorem elementBytes_eq_ok {width : UInt16} {element : Int64} {part : Bytes}
    (h : elementBytes width element = .ok part) : part.length = width.toNat ∧
      width ∈ elementWidths ∧ Int64.ofInt (Packed.ofSigned part) = element := by
  obtain ⟨hw, h⟩ := Result.violation_ite_eq_ok.mp h
  obtain ⟨hfits, h⟩ := Result.ite_violation_eq_ok.mp h
  cases h
  have hw := not_not.mp hw
  have hwidth := toNat_elementWidth hw
  have hlen : ((Bytes.u8 element.toUInt64).take width.toNat).length = width.toNat := by
    rw [List.length_take, Bytes.length_u8]
    omega
  refine ⟨hlen, hw, ?_⟩
  rw [Packed.ofSigned, hlen, Packed.ofBytes_take, Packed.ofBytes_u8]
  rw [fitsSigned, decide_eq_true_eq] at hfits
  have hn : element.toInt = if 2 * element.toUInt64.toNat < 2 ^ 64
      then (element.toUInt64.toNat : Int) else element.toUInt64.toNat - (2 ^ 64 : Nat) :=
    BitVec.toInt_eq_toNat_cond element.toBitVec
  have hlt := element.toUInt64.toNat_lt
  generalize element.toUInt64.toNat = k at hn hlt
  generalize width.toNat = w at hwidth hfits
  have hext : (if k % 2 ^ (8 * w) < 1 <<< (8 * w - 1) then ((k % 2 ^ (8 * w) : Nat) : Int)
      else (k % 2 ^ (8 * w) : Nat) - (1 <<< (8 * w) : Nat)) = element.toInt := by
    obtain rfl | rfl | rfl | rfl := hwidth <;> simp at hfits ⊢ <;> split_ifs at hn ⊢ <;> omega
  rw [hext, Int64.ofInt_toInt]

theorem elements_read {width : UInt16} {elements : List Int64} {parts : List Bytes}
    (h : elements.mapM (elementBytes width) = .ok parts) :
    ((element width.toNat).repeated elements.length).Reads parts.flatten elements ∧
      parts.flatten.length = elements.length * width.toNat := by
  have hf : List.Forall₂ (fun part element => part.length = width.toNat ∧
      width ∈ elementWidths ∧ Int64.ofInt (Packed.ofSigned part) = element) parts elements :=
    List.Forall₂.flip ((Result.mapM_eq_ok.mp h).imp fun _ _ he => elementBytes_eq_ok he)
  constructor
  · refine Reads.repeated (hf.imp ?_)
    rintro part element ⟨hlen, hw, rfl⟩
    have hne : part ≠ [] := by
      have := toNat_elementWidth hw
      rintro rfl
      simp only [List.length_nil] at hlen
      omega
    have hwide : width.toNat ≤ 8 := by
      have := toNat_elementWidth hw
      omega
    rw [← hlen] at hwide ⊢
    exact (raw_reads hne).bind_last (.lift (Access.range_eq_ok (Nat.zero_le _) hwide) (.pure _))
  · clear h
    induction hf with
    | nil => simp
    | cons hp _ ih =>
      rw [List.flatten_cons, List.length_append, ih, hp.1, List.length_cons]
      ring

theorem alignUp_two (n : Nat) : alignUp n 2 = n + n % 2 := by
  have h : n + 1 &&& 1 = (n + 1) % 2 := Nat.and_one_is_mod _
  simp only [alignUp, Nat.add_one_sub_one, h]
  omega

theorem arrayPayload_eq_ok {width : UInt16} {elements : List Int64}
    (h : encode table r position ⟨o, .arrayPayload width elements⟩ = .ok out) :
    ∃ op parts fill, table.value o = .ok op ∧ position % tableAlignment = 0 ∧
      elements.mapM (elementBytes width) = .ok parts ∧
      fill.length = parts.flatten.length % 2 ∧
      out = Bytes.u2 op ++ (Bytes.u2 width ++ (Bytes.u4 (UInt32.ofNat elements.length) ++
        (parts.flatten ++ fill))) := by
  obtain ⟨op, hop, h⟩ := Result.bind_eq_ok.mp h
  obtain ⟨⟨⟩, halign, h⟩ := Result.bind_eq_ok.mp h
  obtain ⟨parts, hparts, h⟩ := Result.bind_eq_ok.mp h
  obtain rfl := Result.pure_eq_ok.mp h
  have halign := checkAlignment_eq_ok.mp halign
  have hout : (Bytes.u2 op ++ Bytes.u2 width ++ Bytes.u4 (UInt32.ofNat elements.length) ++
      parts.flatten).length = 8 + parts.flatten.length := by
    simp only [List.length_append, Bytes.length_u2, Bytes.length_u4]
  refine ⟨op, parts, padding (position + (8 + parts.flatten.length)) 2, hop, halign, hparts, ?_, ?_⟩
  · have hpad := length_padding (position + (8 + parts.flatten.length)) 2
    rw [alignUp_two] at hpad
    rw [tableAlignment] at halign
    omega
  · rw [hout]
    simp only [List.append_assoc]

theorem arrayPayload_reads (ht : table.Faithful) (hf : o.format = .arrayPayload) {width : UInt16}
    {elements : List Int64} (hcount : elements.length < UInt32.size) (hwidth : width ∈ elementWidths)
    (h : encode table r position ⟨o, .arrayPayload width elements⟩ = .ok out) :
    (decode table s).ReadsEven out ⟨o, .arrayPayload width elements⟩ := by
  obtain ⟨op, parts, fill, hop, -, hparts, hfill, rfl⟩ := arrayPayload_eq_ok h
  obtain ⟨hread, hlen⟩ := elements_read hparts
  refine decode_readsEven ht hop (by rw [hf]; rfl) ?_
  simp only [decodeOperands, hf]
  refine (u2_reads width).bind_even (by simp) ((u4_reads _).bind_even (by simp) ?_)
  have hn : (UInt32.ofNat elements.length).toNat = elements.length :=
    UInt32.toNat_ofNat_of_lt' hcount
  rw [if_neg (not_not.mpr hwidth), hn]
  refine ReadsEven.available fun n hle => ?_
  rw [List.length_append, hlen] at hle
  rw [if_neg (by omega), ← hlen]
  exact hread.slice_even hfill (Operands.arrayPayload width)

end Dalvik.Instruction
