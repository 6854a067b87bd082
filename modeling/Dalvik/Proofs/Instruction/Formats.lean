import Dalvik.Proofs.Instruction.Operands
import Dalvik.Proofs.Opcode

/-!
# Instructions of a fixed size are read back

What the writer gives for an instruction is read back by the table of the same target, one format
after another.
-/
namespace Dalvik

/-! ## The first unit -/

namespace Opcode

/-- Numbers whose low byte is zero stand for tables in the code and for the instruction without
effect. -/
def firstUnitFits (e : Entry) : Bool :=
  e.numberings.all fun n => if e.format.isPayload then n.value.toNat % 256 == 0
    else e.format == .f10x || 0 < n.value.toNat % 256

theorem all_firstUnitFits : entries.all firstUnitFits = true := by decide +kernel

theorem firstUnitFits_of_value {table : OpcodeTable} {o : Opcode} {v : UInt16}
    (h : table.value o = .ok v) :
    (o.format.isPayload = true → v.toNat % 256 = 0) ∧
      (o.format.isPayload = false → v.toNat % 256 = 0 → o.format = .f10x) := by
  have ho : o.value? table.target = some v := OpcodeTable.value_eq_ok.mp h
  obtain ⟨n, hn, -, rfl⟩ := Entry.exists_of_value? ho
  have hall := List.all_eq_true.mp all_firstUnitFits o.entry (entry_mem o)
  have hfits := List.all_eq_true.mp hall n hn
  have hformat : o.format = o.entry.format := rfl
  constructor
  · intro hp
    rw [hformat] at hp
    simpa [hp] using hfits
  · intro hp hz
    rw [hformat] at hp ⊢
    simpa [hp, hz] using hfits

end Opcode

/-- A table that leads from the number of an opcode back to the opcode. -/
def OpcodeTable.Faithful (table : OpcodeTable) : Prop :=
  ∀ ⦃o v⦄, table.value o = .ok v → table.opcode v = .ok o

namespace Instruction
open Decoder

variable {table : OpcodeTable} {r : Resolver} {s : Source} {site : CallSite → CallSite} {o : Opcode}
  {op : UInt16}

theorem firstUnit_eq_ok {argument : Nat} {out : Bytes} (h : firstUnit op argument = .ok out) :
    op.toNat < 256 ∧ argument < 256 ∧ out = unitBytes (argument * 256 + op.toNat) := by
  obtain ⟨hop, h⟩ := Result.violation_guard_eq_ok.mp h
  obtain ⟨_, ha, h⟩ := Result.bind_eq_ok.mp h
  obtain ⟨hlt, rfl⟩ := fitUnsigned_eq_ok.mp ha
  exact ⟨by omega, hlt, (Result.pure_eq_ok.mp h).symm⟩

/-- The operands behind a first unit that holds an argument. -/
theorem decode_reads (ht : table.Faithful) (hop : table.value o = .ok op)
    (hp : o.format.isPayload = false) {argument : Nat} {head rest : Bytes} {operands : Operands}
    (h : firstUnit op argument = .ok head) (hzero : o.format = .f10x → argument = 0)
    (hrest : (decodeOperands s o argument).Reads rest operands) :
    (decode table s).Reads (head ++ rest) ⟨o, operands⟩ := by
  obtain ⟨hlt, ha, rfl⟩ := firstUnit_eq_ok h
  have hfirst := (Opcode.firstUnitFits_of_value hop).2 hp
  refine (unit_reads (by omega)).bind ?_
  have hmod : (argument * 256 + op.toNat) % 256 = op.toNat := by omega
  have hdiv : (argument * 256 + op.toNat) / 256 = argument := by omega
  rw [hmod, hdiv]
  by_cases hz : op.toNat = 0
  · -- the whole unit is zero
    obtain rfl := hzero (hfirst (by omega))
    simp only [hz, if_true, Nat.zero_mul, Nat.zero_add]
    have hv : (Nat.toUInt16 0) = op := UInt16.toNat_inj.mp hz.symm
    exact Reads.lift (hv ▸ ht hop) hrest.map
  · simp only [hz, if_false]
    have hv : op.toNat.toUInt16 = op := by rw [Nat.toUInt16_eq, UInt16.ofNat_toNat]
    exact Reads.lift (hv.symm ▸ ht hop) hrest.map

/-- The operands behind the first unit of a table. -/
theorem decode_readsEven (ht : table.Faithful) (hop : table.value o = .ok op)
    (hp : o.format.isPayload = true) {rest : Bytes} {operands : Operands}
    (hrest : (decodeOperands s o 0).ReadsEven rest operands) :
    (decode table s).ReadsEven (Bytes.u2 op ++ rest) ⟨o, operands⟩ := by
  have hfirst := (Opcode.firstUnitFits_of_value hop).1 hp
  have hv : op.toNat.toUInt16 = op := by rw [Nat.toUInt16_eq, UInt16.ofNat_toNat]
  have hu : unit.Reads (Bytes.u2 op) op.toNat := (u2_reads op).map
  refine hu.bind_even (by simp) ?_
  simp only [hfirst, if_true, hv]
  exact ReadsEven.lift (ht hop) hrest.map

/-- An instruction of one unit. -/
theorem decode_reads_unit (ht : table.Faithful) (hop : table.value o = .ok op)
    (hp : o.format.isPayload = false) {argument : Nat} {out : Bytes} {operands : Operands}
    (h : firstUnit op argument = .ok out) (hzero : o.format = .f10x → argument = 0)
    (hrest : (decodeOperands s o argument).Reads [] operands) :
    (decode table s).Reads out ⟨o, operands⟩ := by
  simpa using decode_reads ht hop hp h hzero hrest

/-- A first unit with a signed number behind it. -/
theorem decode_reads_signed (ht : table.Faithful) (hop : table.value o = .ok op)
    (hp : o.format.isPayload = false) (make : Int32 → Operands) {argument : Nat} {n : Int32}
    {out : Bytes}
    (h : (do return (← firstUnit op argument) ++ unitBytes (← fitSigned 16 n)) = Except.ok out)
    (hzero : o.format ≠ .f10x)
    (hd : decodeOperands s o argument = do return make (← signedUnit)) :
    (decode table s).Reads out ⟨o, make n⟩ := by
  obtain ⟨head, hhead, h⟩ := Result.bind_eq_ok.mp h
  obtain ⟨bits, hbits, h⟩ := Result.bind_eq_ok.mp h
  obtain rfl := Result.pure_eq_ok.mp h
  refine decode_reads ht hop hp hhead (fun hf => absurd hf hzero) ?_
  rw [hd]
  exact (signedUnit_reads hbits).map

/-- A first unit with a number of two units behind it. -/
theorem decode_reads_pair (ht : table.Faithful) (hop : table.value o = .ok op)
    (hp : o.format.isPayload = false) (make : Int32 → Operands) {argument : Nat} {n : Int32}
    {out : Bytes}
    (h : (do return (← firstUnit op argument) ++ pairBytes n.toUInt32) = Except.ok out)
    (hzero : o.format ≠ .f10x)
    (hd : decodeOperands s o argument = do return make (← unitPair).toInt32) :
    (decode table s).Reads out ⟨o, make n⟩ := by
  obtain ⟨head, hhead, h⟩ := Result.bind_eq_ok.mp h
  obtain rfl := Result.pure_eq_ok.mp h
  refine decode_reads ht hop hp hhead (fun hf => absurd hf hzero) ?_
  rw [hd]
  exact (unitPair_reads n.toUInt32).map (g := fun bits => make bits.toInt32)

/-- A first unit with the index of a reference behind it. -/
theorem decode_reads_index (ht : table.Faithful) (hop : table.value o = .ok op)
    (hp : o.format.isPayload = false) (hrs : r.InverseUpTo s site) (make : Reference → Operands)
    {argument : Nat} {reference : Reference} {out : Bytes}
    (h : (do
      let index ← shortIndex r o.reference reference
      return (← firstUnit op argument) ++ index) = Except.ok out)
    (hzero : o.format ≠ .f10x)
    (hd : decodeOperands s o argument = do
      return make (← resolve s o.reference (← (return UInt32.ofNat (← unit) : Decoder UInt32)))) :
    (decode table s).Reads out ⟨o, make (reference.renamed site)⟩ := by
  obtain ⟨_, hindex, h⟩ := Result.bind_eq_ok.mp h
  obtain ⟨head, hhead, h⟩ := Result.bind_eq_ok.mp h
  obtain rfl := Result.pure_eq_ok.mp h
  obtain ⟨n, hn, rfl, hresolve⟩ := shortIndex_eq_ok hrs hindex
  refine decode_reads ht hop hp hhead (fun hf => absurd hf hzero) ?_
  rw [hd]
  exact (unit_reads hn).map.bind_last (Reads.lift hresolve (Reads.pure _))

theorem decode_encode_reads (ht : table.Faithful) (hrs : r.InverseUpTo s site) {operands : Operands}
    (hf : operands.format = o.format) (hp : operands.format.isPayload = false) {position : Nat}
    {out : Bytes} (h : encode table r position ⟨o, operands⟩ = .ok out) :
    (decode table s).Reads out ⟨o, operands.renamed site⟩ := by
  obtain ⟨op, hop, h⟩ := Result.bind_eq_ok.mp h
  rw [hf] at hp
  cases operands with simp only [Operands.format] at hf
  | f10x =>
    refine decode_reads_unit ht hop hp h (fun _ => rfl) ?_
    simp only [decodeOperands, ← hf]
    exact Reads.pure _
  | f12x a b =>
    obtain ⟨pair, hpair, h⟩ := Result.bind_eq_ok.mp h
    obtain ⟨-, ha, hb⟩ := fitPair_eq_ok hpair
    refine decode_reads_unit ht hop hp h (by simp [← hf]) ?_
    simp only [decodeOperands, ← hf, ha, hb]
    exact Reads.pure _
  | f11n a literal =>
    obtain ⟨_, ha, h⟩ := Result.bind_eq_ok.mp h
    obtain ⟨hlt, rfl⟩ := fitUnsigned_eq_ok.mp ha
    obtain ⟨bits, hbits, h⟩ := Result.bind_eq_ok.mp h
    obtain ⟨-, hliteral⟩ := fitSigned_eq_ok (by simp) hbits
    have hmod : (bits * 16 + a.toNat) % 16 = a.toNat := by omega
    have hdiv : (bits * 16 + a.toNat) / 16 = bits := by omega
    refine decode_reads_unit ht hop hp h (by simp [← hf]) ?_
    simp only [decodeOperands, ← hf, hmod, hdiv, hliteral, toUInt8_toNat]
    exact Reads.pure _
  | f11x a =>
    refine decode_reads_unit ht hop hp h (by simp [← hf]) ?_
    simp only [decodeOperands, ← hf, toUInt8_toNat]
    exact Reads.pure _
  | f10t offset =>
    obtain ⟨bits, hbits, h⟩ := Result.bind_eq_ok.mp h
    obtain ⟨-, hoffset⟩ := fitSigned_eq_ok (by simp) hbits
    refine decode_reads_unit ht hop hp h (by simp [← hf]) ?_
    simp only [decodeOperands, ← hf, hoffset]
    exact Reads.pure _
  | f20t offset =>
    refine decode_reads_signed ht hop hp .f20t h (by simp [← hf]) ?_
    simp only [decodeOperands, ← hf]
    rfl
  | f21t a offset =>
    refine decode_reads_signed ht hop hp (.f21t a) h (by simp [← hf]) ?_
    simp only [decodeOperands, ← hf, toUInt8_toNat]
  | f21s a literal =>
    refine decode_reads_signed ht hop hp (.f21s a) h (by simp [← hf]) ?_
    simp only [decodeOperands, ← hf, toUInt8_toNat]
  | f22t a b offset =>
    obtain ⟨pair, hpair, h⟩ := Result.bind_eq_ok.mp h
    obtain ⟨-, ha, hb⟩ := fitPair_eq_ok hpair
    refine decode_reads_signed ht hop hp (.f22t a b) h (by simp [← hf]) ?_
    simp only [decodeOperands, ← hf, ha, hb]
  | f22s a b literal =>
    obtain ⟨pair, hpair, h⟩ := Result.bind_eq_ok.mp h
    obtain ⟨-, ha, hb⟩ := fitPair_eq_ok hpair
    refine decode_reads_signed ht hop hp (.f22s a b) h (by simp [← hf]) ?_
    simp only [decodeOperands, ← hf, ha, hb]
  | f21c a reference =>
    refine decode_reads_index ht hop hp hrs (.f21c a) h (by simp [← hf]) ?_
    simp only [decodeOperands, ← hf, toUInt8_toNat]
  | f22c a b reference =>
    obtain ⟨pair, hpair, h⟩ := Result.bind_eq_ok.mp h
    obtain ⟨-, ha, hb⟩ := fitPair_eq_ok hpair
    refine decode_reads_index ht hop hp hrs (.f22c a b) h (by simp [← hf]) ?_
    simp only [decodeOperands, ← hf, ha, hb]
  | f30t offset =>
    refine decode_reads_pair ht hop hp .f30t h (by simp [← hf]) ?_
    simp only [decodeOperands, ← hf]
    rfl
  | f31i a literal =>
    refine decode_reads_pair ht hop hp (.f31i a) h (by simp [← hf]) ?_
    simp only [decodeOperands, ← hf, toUInt8_toNat]
  | f31t a offset =>
    refine decode_reads_pair ht hop hp (.f31t a) h (by simp [← hf]) ?_
    simp only [decodeOperands, ← hf, toUInt8_toNat]
  | f21ih a literal =>
    obtain ⟨head, hhead, h⟩ := Result.bind_eq_ok.mp h
    obtain ⟨bits, hbits, h⟩ := Result.bind_eq_ok.mp h
    obtain rfl := Result.pure_eq_ok.mp h
    obtain ⟨hlt, rfl⟩ := fitTop32_eq_ok hbits
    refine decode_reads ht hop hp hhead (by simp [← hf]) ?_
    simp only [decodeOperands, ← hf, toUInt8_toNat]
    exact (unit_reads hlt).map
  | f21lh a literal =>
    obtain ⟨head, hhead, h⟩ := Result.bind_eq_ok.mp h
    obtain ⟨bits, hbits, h⟩ := Result.bind_eq_ok.mp h
    obtain rfl := Result.pure_eq_ok.mp h
    obtain ⟨hlt, rfl⟩ := fitTop64_eq_ok hbits
    refine decode_reads ht hop hp hhead (by simp [← hf]) ?_
    simp only [decodeOperands, ← hf, toUInt8_toNat]
    exact (unit_reads hlt).map
  | f22x a b =>
    obtain ⟨head, hhead, h⟩ := Result.bind_eq_ok.mp h
    obtain rfl := Result.pure_eq_ok.mp h
    refine decode_reads ht hop hp hhead (by simp [← hf]) ?_
    simp only [decodeOperands, ← hf, toUInt8_toNat]
    exact (u2_reads b).map
  | f23x a b c =>
    obtain ⟨head, hhead, h⟩ := Result.bind_eq_ok.mp h
    obtain rfl := Result.pure_eq_ok.mp h
    have hb := b.toNat_lt
    have hc := c.toNat_lt
    have hmod : (c.toNat * 256 + b.toNat) % 256 = b.toNat := by omega
    have hdiv : (c.toNat * 256 + b.toNat) / 256 = c.toNat := by omega
    refine decode_reads ht hop hp hhead (by simp [← hf]) ?_
    simp only [decodeOperands, ← hf, toUInt8_toNat]
    refine (unit_reads (by omega)).bind_last ?_
    simp only [hmod, hdiv, toUInt8_toNat]
    exact Reads.pure _
  | f22b a b literal =>
    obtain ⟨bits, hbits, h⟩ := Result.bind_eq_ok.mp h
    obtain ⟨head, hhead, h⟩ := Result.bind_eq_ok.mp h
    obtain rfl := Result.pure_eq_ok.mp h
    obtain ⟨hlt, hliteral⟩ := fitSigned_eq_ok (by simp) hbits
    have hb := b.toNat_lt
    have hmod : (bits * 256 + b.toNat) % 256 = b.toNat := by omega
    have hdiv : (bits * 256 + b.toNat) / 256 = bits := by omega
    refine decode_reads ht hop hp hhead (by simp [← hf]) ?_
    simp only [decodeOperands, ← hf, toUInt8_toNat]
    refine (unit_reads (by omega)).bind_last ?_
    simp only [hmod, hdiv, hliteral, toUInt8_toNat]
    exact Reads.pure _
  | f32x a b =>
    obtain ⟨head, hhead, h⟩ := Result.bind_eq_ok.mp h
    obtain rfl := Result.pure_eq_ok.mp h
    rw [List.append_assoc]
    refine decode_reads ht hop hp hhead (by simp [← hf]) ?_
    simp only [decodeOperands, ← hf]
    exact (u2_reads a).bind (u2_reads b).map
  | f31c a reference =>
    obtain ⟨index, hindex, h⟩ := Result.bind_eq_ok.mp h
    obtain ⟨head, hhead, h⟩ := Result.bind_eq_ok.mp h
    obtain rfl := Result.pure_eq_ok.mp h
    have hresolve := referenceIndex_eq_ok hrs hindex
    refine decode_reads ht hop hp hhead (by simp [← hf]) ?_
    simp only [decodeOperands, ← hf, toUInt8_toNat]
    exact (unitPair_reads index).bind_last (Reads.lift hresolve (Reads.pure _))
  | f51l a literal =>
    obtain ⟨head, hhead, h⟩ := Result.bind_eq_ok.mp h
    obtain rfl := Result.pure_eq_ok.mp h
    rw [List.append_assoc]
    refine decode_reads ht hop hp hhead (by simp [← hf]) ?_
    simp only [decodeOperands, ← hf, toUInt8_toNat]
    have hwords := congrArg UInt64.toInt64 (Bytes.toWord64_words literal.toUInt64)
    refine (unitPair_reads _).bind ((unitPair_reads _).bind_last ?_)
    rw [hwords]
    exact Reads.pure _
  | f35c registers reference =>
    obtain ⟨_, hindex, h⟩ := Result.bind_eq_ok.mp h
    obtain ⟨⟨argument, _⟩, hpack, h⟩ := Result.bind_eq_ok.mp h
    obtain ⟨head, hhead, h⟩ := Result.bind_eq_ok.mp h
    obtain rfl := Result.pure_eq_ok.mp h
    obtain ⟨n, hn, rfl, hresolve⟩ := shortIndex_eq_ok hrs hindex
    obtain ⟨-, fedc, hfedc, rfl, hunpack⟩ := packRegisters_eq_ok hpack
    rw [List.append_assoc]
    refine decode_reads ht hop hp hhead (by simp [← hf]) ?_
    simp only [decodeOperands, ← hf]
    exact (unit_reads hn).map.bind ((unit_reads hfedc).bind_last
      (Reads.lift hunpack (Reads.lift hresolve (Reads.pure _))))
  | f3rc start count reference =>
    obtain ⟨_, hindex, h⟩ := Result.bind_eq_ok.mp h
    obtain ⟨head, hhead, h⟩ := Result.bind_eq_ok.mp h
    obtain rfl := Result.pure_eq_ok.mp h
    obtain ⟨n, hn, rfl, hresolve⟩ := shortIndex_eq_ok hrs hindex
    rw [List.append_assoc]
    refine decode_reads ht hop hp hhead (by simp [← hf]) ?_
    simp only [decodeOperands, ← hf, toUInt8_toNat]
    exact (unit_reads hn).map.bind ((u2_reads start).bind_last
      (Reads.lift hresolve (Reads.pure _)))
  | f45cc registers reference reference2 =>
    obtain ⟨_, hindex, h⟩ := Result.bind_eq_ok.mp h
    obtain ⟨_, hindex2, h⟩ := Result.bind_eq_ok.mp h
    obtain ⟨⟨argument, _⟩, hpack, h⟩ := Result.bind_eq_ok.mp h
    obtain ⟨head, hhead, h⟩ := Result.bind_eq_ok.mp h
    obtain rfl := Result.pure_eq_ok.mp h
    obtain ⟨n, hn, rfl, hresolve⟩ := shortIndex_eq_ok hrs hindex
    obtain ⟨n2, hn2, rfl, hresolve2⟩ := shortIndex_eq_ok hrs hindex2
    obtain ⟨-, fedc, hfedc, rfl, hunpack⟩ := packRegisters_eq_ok hpack
    rw [List.append_assoc, List.append_assoc]
    refine decode_reads ht hop hp hhead (by simp [← hf]) ?_
    simp only [decodeOperands, ← hf]
    exact (unit_reads hn).map.bind ((unit_reads hfedc).bind ((unit_reads hn2).map.bind_last
      (Reads.lift hunpack (Reads.lift hresolve (Reads.lift hresolve2 (Reads.pure _))))))
  | f4rcc start count reference reference2 =>
    obtain ⟨_, hindex, h⟩ := Result.bind_eq_ok.mp h
    obtain ⟨_, hindex2, h⟩ := Result.bind_eq_ok.mp h
    obtain ⟨head, hhead, h⟩ := Result.bind_eq_ok.mp h
    obtain rfl := Result.pure_eq_ok.mp h
    obtain ⟨n, hn, rfl, hresolve⟩ := shortIndex_eq_ok hrs hindex
    obtain ⟨n2, hn2, rfl, hresolve2⟩ := shortIndex_eq_ok hrs hindex2
    rw [List.append_assoc, List.append_assoc]
    refine decode_reads ht hop hp hhead (by simp [← hf]) ?_
    simp only [decodeOperands, ← hf, toUInt8_toNat]
    exact (unit_reads hn).map.bind ((u2_reads start).bind ((unit_reads hn2).map.bind_last
      (Reads.lift hresolve (Reads.lift hresolve2 (Reads.pure _)))))
  | arrayPayload | packedSwitchPayload | sparseSwitchPayload =>
    rw [← hf] at hp
    cases hp

/-! ## Sizes -/

theorem length_firstUnit {argument : Nat} {out : Bytes} (h : firstUnit op argument = .ok out) :
    out.length = 2 := by
  obtain ⟨-, -, rfl⟩ := firstUnit_eq_ok h
  rfl

theorem length_shortIndex {kind : ReferenceKind} {reference : Reference} {out : Bytes}
    (h : shortIndex r kind reference = .ok out) : out.length = 2 := by
  obtain ⟨_, -, h⟩ := Result.bind_eq_ok.mp h
  obtain ⟨_, -, h⟩ := Result.bind_eq_ok.mp h
  obtain rfl := Result.pure_eq_ok.mp h
  rfl

theorem length_packRegisters {registers : List UInt8} {argument : Nat} {out : Bytes}
    (h : packRegisters o registers = .ok (argument, out)) : out.length = 2 := by
  obtain ⟨-, _, -, rfl, -⟩ := packRegisters_eq_ok h
  rfl

theorem length_encode_of_not_payload {operands : Operands} (hp : operands.format.isPayload = false)
    {position : Nat} {out : Bytes} (h : encode table r position ⟨o, operands⟩ = .ok out) :
    out.length = 2 * operands.units := by
  obtain ⟨op, hop, h⟩ := Result.bind_eq_ok.mp h
  cases operands with simp only [Operands.units, Operands.format, Format.units]
  | arrayPayload | packedSwitchPayload | sparseSwitchPayload => cases hp
  | _ =>
    simp only [Result.bind_eq_ok, Result.pure_eq_ok] at h
    grind [length_firstUnit, length_shortIndex, length_packRegisters, length_unitBytes,
      length_pairBytes, Bytes.length_u2]

end Instruction

end Dalvik
