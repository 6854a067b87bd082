import Dalvik.Proofs.Instruction.FirstUnit
import Dalvik.Proofs.Takes

/-!
# What instructions are read from

The first unit says which opcode an instruction has, and its other byte and the units behind it hold
the operands. That is one relation with a case for each format, so how many units are taken and
whether they are written again are matters of that relation alone.
-/
namespace Dalvik.Instruction
open Decoder

variable {s : Source} {o : Opcode} {argument : Nat}

/-! ## Units -/

section
variable {β : Type} {S : List UInt16 → β → Prop}

theorem takes_unit {f : Nat → Decoder β}
    (hf : ∀ v : UInt16, Takes (f v.toNat) fun more b => S (v :: more) b) : Takes (unit >>= f) S := by
  rw [unit, bind_assoc]
  exact .u2_bind fun v => by simpa using hf v

theorem takes_signedUnit {f : Int32 → Decoder β}
    (hf : ∀ v : UInt16, Takes (f (extendSign 16 v.toNat)) fun more b => S (v :: more) b) :
    Takes (signedUnit >>= f) S := by
  rw [signedUnit, bind_assoc]
  exact takes_unit fun v => by simpa using hf v

theorem takes_index {f : UInt32 → Decoder β}
    (hf : ∀ v : UInt16, Takes (f (UInt32.ofNat v.toNat)) fun more b => S (v :: more) b) :
    Takes ((do return UInt32.ofNat (← unit)) >>= f) S := by
  rw [bind_assoc]
  exact takes_unit fun v => by simpa using hf v

theorem takes_unitPair {f : UInt32 → Decoder β}
    (hf : ∀ low high : UInt16, Takes (f (UInt32.ofNat (low.toNat + 0x10000 * high.toNat)))
      fun more b => S (low :: high :: more) b) : Takes (unitPair >>= f) S := by
  simp only [unitPair, bind_assoc]
  exact takes_unit fun low => takes_unit fun high => by simpa using hf low high

/-- The number of the entries of a table, behind a first unit that holds nothing else. -/
theorem takes_size {c : Prop} [Decidable c] {reason : Malformed} {f : Nat → Decoder β}
    (hf : ∀ v : UInt16, Takes (f v.toNat) fun more b => S (v :: more) b) :
    Takes (((if c then pure () else Decoder.fail reason) >>= fun _ => unit) >>= f) S := by
  rw [bind_assoc]
  exact .check_bind fun _ => takes_unit hf

end

theorem takes_word : Takes word fun units _ => units.length = 2 :=
  Takes.u4.bind fun units _ h => .pure (by simpa using h)

/-! ## Operands -/

/-- The operands that the argument of the first unit and the units behind it hold, for every format
but the one of arrays, whose elements need not fill whole units. -/
inductive Held (s : Source) (o : Opcode) (argument : Nat) : List UInt16 → Operands → Prop
  | f10x (h : argument = 0) : Held s o argument [] .f10x
  | f12x : Held s o argument [] (.f12x (argument % 16).toUInt8 (argument / 16).toUInt8)
  | f11n : Held s o argument [] (.f11n (argument % 16).toUInt8 (extendSign 4 (argument / 16)))
  | f11x : Held s o argument [] (.f11x argument.toUInt8)
  | f10t : Held s o argument [] (.f10t (extendSign 8 argument))
  | f20t (h : argument = 0) (v : UInt16) : Held s o argument [v] (.f20t (extendSign 16 v.toNat))
  | f22x (v : UInt16) : Held s o argument [v] (.f22x argument.toUInt8 v)
  | f21t (v : UInt16) : Held s o argument [v] (.f21t argument.toUInt8 (extendSign 16 v.toNat))
  | f21s (v : UInt16) : Held s o argument [v] (.f21s argument.toUInt8 (extendSign 16 v.toNat))
  | f21ih (v : UInt16) :
    Held s o argument [v] (.f21ih argument.toUInt8 (UInt32.ofNat (v.toNat * 0x10000)).toInt32)
  | f21lh (v : UInt16) : Held s o argument [v]
      (.f21lh argument.toUInt8 (UInt64.ofNat (v.toNat * 0x1000000000000)).toInt64)
  | f21c (v : UInt16) {x : Reference} (h : resolve s o.reference (.ofNat v.toNat) = .ok x) :
    Held s o argument [v] (.f21c argument.toUInt8 x)
  | f22c (v : UInt16) {x : Reference} (h : resolve s o.reference (.ofNat v.toNat) = .ok x) :
    Held s o argument [v] (.f22c (argument % 16).toUInt8 (argument / 16).toUInt8 x)
  | f23x (v : UInt16) : Held s o argument [v]
      (.f23x argument.toUInt8 (v.toNat % 256).toUInt8 (v.toNat / 256).toUInt8)
  | f22b (v : UInt16) : Held s o argument [v]
      (.f22b argument.toUInt8 (v.toNat % 256).toUInt8 (extendSign 8 (v.toNat / 256)))
  | f22t (v : UInt16) : Held s o argument [v]
      (.f22t (argument % 16).toUInt8 (argument / 16).toUInt8 (extendSign 16 v.toNat))
  | f22s (v : UInt16) : Held s o argument [v]
      (.f22s (argument % 16).toUInt8 (argument / 16).toUInt8 (extendSign 16 v.toNat))
  | f30t (h : argument = 0) (low high : UInt16) : Held s o argument [low, high]
      (.f30t (UInt32.ofNat (low.toNat + 0x10000 * high.toNat)).toInt32)
  | f32x (h : argument = 0) (a b : UInt16) : Held s o argument [a, b] (.f32x a b)
  | f31i (low high : UInt16) : Held s o argument [low, high]
      (.f31i argument.toUInt8 (UInt32.ofNat (low.toNat + 0x10000 * high.toNat)).toInt32)
  | f31t (low high : UInt16) : Held s o argument [low, high]
      (.f31t argument.toUInt8 (UInt32.ofNat (low.toNat + 0x10000 * high.toNat)).toInt32)
  | f31c (low high : UInt16) {x : Reference}
      (h : resolve s o.reference (.ofNat (low.toNat + 0x10000 * high.toNat)) = .ok x) :
    Held s o argument [low, high] (.f31c argument.toUInt8 x)
  | f35c (v fedc : UInt16) {registers : List UInt8} {x : Reference}
      (hregs : unpackRegisters o (argument / 16) (argument % 16) fedc.toNat = .ok registers)
      (h : resolve s o.reference (.ofNat v.toNat) = .ok x) :
    Held s o argument [v, fedc] (.f35c registers x)
  | f3rc (v start : UInt16) {x : Reference} (h : resolve s o.reference (.ofNat v.toNat) = .ok x) :
    Held s o argument [v, start] (.f3rc start argument.toUInt8 x)
  | f45cc (v fedc w : UInt16) {registers : List UInt8} {x y : Reference}
      (hregs : unpackRegisters o (argument / 16) (argument % 16) fedc.toNat = .ok registers)
      (h : resolve s o.reference (.ofNat v.toNat) = .ok x)
      (h2 : resolve s o.reference2 (.ofNat w.toNat) = .ok y) :
    Held s o argument [v, fedc, w] (.f45cc registers x y)
  | f4rcc (v start w : UInt16) {x y : Reference}
      (h : resolve s o.reference (.ofNat v.toNat) = .ok x)
      (h2 : resolve s o.reference2 (.ofNat w.toNat) = .ok y) :
    Held s o argument [v, start, w] (.f4rcc start argument.toUInt8 x y)
  | f51l (a b c d : UInt16) : Held s o argument [a, b, c, d]
      (.f51l argument.toUInt8 (Bytes.toWord64 (.ofNat (a.toNat + 0x10000 * b.toNat))
        (.ofNat (c.toNat + 0x10000 * d.toNat))).toInt64)
  | packedSwitchPayload {units : List UInt16} {firstKey : Int32} {targets : List Int32}
      (h : units.length = 3 + 2 * targets.length) :
    Held s o argument units (.packedSwitchPayload firstKey targets)
  | sparseSwitchPayload {units : List UInt16} {cases : List SwitchCase}
      (h : units.length = 1 + 4 * cases.length) :
    Held s o argument units (.sparseSwitchPayload cases)

/-- The only place where the reader of operands is opened for what it takes. -/
theorem takes_decodeOperands (hf : o.format ≠ .arrayPayload) :
    Takes (decodeOperands s o argument) fun units operands =>
      operands.format = o.format ∧ Held s o argument units operands := by
  unfold decodeOperands
  cases h : o.format with
  | arrayPayload => exact absurd h hf
  | f10x => exact .check_bind fun h => .pure ⟨rfl, .f10x h⟩
  | f12x => exact .pure ⟨rfl, .f12x⟩
  | f11n => exact .pure ⟨rfl, .f11n⟩
  | f11x => exact .pure ⟨rfl, .f11x⟩
  | f10t => exact .pure ⟨rfl, .f10t⟩
  | f20t => exact .check_bind fun h => takes_signedUnit fun v => .pure ⟨rfl, .f20t h v⟩
  | f21t => exact takes_signedUnit fun v => .pure ⟨rfl, .f21t v⟩
  | f21s => exact takes_signedUnit fun v => .pure ⟨rfl, .f21s v⟩
  | f22t => exact takes_signedUnit fun v => .pure ⟨rfl, .f22t v⟩
  | f22s => exact takes_signedUnit fun v => .pure ⟨rfl, .f22s v⟩
  | f22x => exact .u2_bind fun v => .pure ⟨rfl, .f22x v⟩
  | f21ih => exact takes_unit fun v => .pure ⟨rfl, .f21ih v⟩
  | f21lh => exact takes_unit fun v => .pure ⟨rfl, .f21lh v⟩
  | f23x => exact takes_unit fun v => .pure ⟨rfl, .f23x v⟩
  | f22b => exact takes_unit fun v => .pure ⟨rfl, .f22b v⟩
  | f21c => exact takes_index fun v => .lift_bind fun _ h => .pure ⟨rfl, .f21c v h⟩
  | f22c => exact takes_index fun v => .lift_bind fun _ h => .pure ⟨rfl, .f22c v h⟩
  | f30t => exact .check_bind fun h => takes_unitPair fun v w => .pure ⟨rfl, .f30t h v w⟩
  | f32x => exact .check_bind fun h => .u2_bind fun a => .u2_bind fun b => .pure ⟨rfl, .f32x h a b⟩
  | f31i => exact takes_unitPair fun v w => .pure ⟨rfl, .f31i v w⟩
  | f31t => exact takes_unitPair fun v w => .pure ⟨rfl, .f31t v w⟩
  | f31c => exact takes_unitPair fun v w => .lift_bind fun _ h => .pure ⟨rfl, .f31c v w h⟩
  | f35c =>
    exact takes_index fun v => takes_unit fun fedc => .lift_bind fun _ hregs =>
      .lift_bind fun _ h => .pure ⟨rfl, .f35c v fedc hregs h⟩
  | f3rc =>
    exact takes_index fun v => .u2_bind fun start => .lift_bind fun _ h =>
      .pure ⟨rfl, .f3rc v start h⟩
  | f45cc =>
    exact takes_index fun v => takes_unit fun fedc => takes_index fun w => .lift_bind fun _ hregs =>
      .lift_bind fun _ h => .lift_bind fun _ h2 => .pure ⟨rfl, .f45cc v fedc w hregs h h2⟩
  | f4rcc =>
    exact takes_index fun v => .u2_bind fun start => takes_index fun w => .lift_bind fun _ h =>
      .lift_bind fun _ h2 => .pure ⟨rfl, .f4rcc v start w h h2⟩
  | f51l =>
    exact takes_unitPair fun a b => takes_unitPair fun c d => .pure ⟨rfl, .f51l a b c d⟩
  | packedSwitchPayload =>
    refine takes_size fun count => takes_word.bind fun first firstKey hfirst =>
      (takes_word.repeated count.toNat).bind fun rest targets hrest => .pure ⟨rfl, ?_⟩
    apply Held.packedSwitchPayload
    simp
    omega
  | sparseSwitchPayload =>
    refine takes_size fun count => (takes_word.repeated count.toNat).bind fun first keys hfirst =>
      (takes_word.repeated count.toNat).bind fun rest offsets hrest => .pure ⟨rfl, ?_⟩
    apply Held.sparseSwitchPayload
    simp
    omega

/-! ## Arrays -/

section
variable {bytes : ByteArray} {index after : Nat}

/-- What an array is read as behind its first unit and its size. -/
def elementsFrom (width : UInt16) (count : Nat) : Decoder Operands := do
  if (← Decoder.available) < count * width.toNat then Decoder.fail (.arrayPayloadSize count)
  let start ← Decoder.position
  let after := start + count * width.toNat
  let payload ← Access.slice (← Decoder.input) start after
  let elements ← ((element width.toNat).repeated count).valueAt payload 0
  Decoder.seek (after + after % 2)
  return .arrayPayload width elements

theorem elementsFrom_eq_ok_iff {width : UInt16} {count : Nat} {operands : Operands} :
    elementsFrom width count bytes index = .ok operands after ↔
      index + count * width.toNat ≤ bytes.size ∧ ∃ elements,
        ((element width.toNat).repeated count).valueAt
            (bytes.extract index (index + count * width.toNat)) 0 = .ok elements ∧
          operands = .arrayPayload width elements ∧
          after = index + count * width.toNat + (index + count * width.toNat) % 2 := by
  change (if bytes.size - index < count * width.toNat then _ else _ : Decoder Operands) bytes index
    = _ ↔ _
  by_cases hle : index + count * width.toNat ≤ bytes.size
  · rw [if_neg (by omega)]
    change (liftM (Access.slice bytes index (index + count * width.toNat)) >>= _ : Decoder Operands)
      bytes index = _ ↔ _
    rw [lift_of_ok (Access.slice_eq_ok (Nat.le_add_right _ _) hle), lift_bind_eq_ok, and_iff_right hle]
    refine exists_congr fun elements => and_congr_right fun _ => ?_
    rw [seek_bind, Decoder.pure_eq_ok, eq_comm, @eq_comm _ after]
  · refine iff_of_false (fun hrun => ?_) fun h => hle h.1
    split at hrun
    · cases hrun
    · obtain ⟨_, hslice, -⟩ := lift_bind_eq_ok.mp hrun
      obtain ⟨_, hrange, -⟩ := Result.bind_eq_ok.mp hslice
      unfold Access.range at hrange
      split at hrange
      next h => exact hle h.2
      · cases hrange

/-- Behind its first unit an array has its width and the number of its elements in three units. -/
theorem decodeOperands_of_array (hf : o.format = .arrayPayload) :
    decodeOperands s o argument = (do
      let _ ← (if argument = 0 then pure () else Decoder.fail (.nonzeroArgument o.name argument) :
        Decoder Unit)
      let width ← Decoder.u2
      let count ← Decoder.u4
      if width ∉ elementWidths then Decoder.fail (.elementWidth width.toNat)
      elementsFrom width count.toNat) := by
  unfold decodeOperands
  rw [hf]
  rfl

theorem array_of_decodeOperands (hf : o.format = .arrayPayload) {operands : Operands}
    (h : decodeOperands s o argument bytes index = .ok operands after) :
    ∃ width elements size, operands = .arrayPayload width elements ∧
      elements.length < UInt32.size ∧ elements.length * width.toNat = size ∧
      after = index + 6 + size + (index + 6 + size) % 2 := by
  rw [decodeOperands_of_array hf] at h
  have hnone : argument = 0 := by
    by_contra hne
    rw [if_neg hne] at h
    cases h
  rw [if_pos hnone, pure_bind] at h
  obtain ⟨width, _, hwidth, h⟩ := bind_eq_ok.mp h
  obtain ⟨-, rfl⟩ := u2_eq_ok hwidth
  obtain ⟨count, _, hcount, h⟩ := bind_eq_ok.mp h
  obtain ⟨rfl, -⟩ := after_of_u4 hcount
  split at h
  · cases h
  · obtain ⟨-, elements, helements, rfl, rfl⟩ := elementsFrom_eq_ok_iff.mp h
    obtain ⟨_, helements⟩ := valueAt_eq_ok.mp helements
    have hlength := length_of_repeated helements
    exact ⟨width, elements, _, rfl, hlength ▸ count.toNat_lt, by rw [hlength], rfl⟩

end

/-! ## Instructions -/

/-- The argument that a first unit is read with. -/
def argumentIn (first : Nat) : Nat := if first % 256 = 0 then 0 else first / 256

theorem decode_eq_ok {table : OpcodeTable} {i : Instruction} {bytes : ByteArray} {index after : Nat}
    (h : decode table s bytes index = .ok i after) : ∃ first : UInt16,
      (Bytes.u2 first).Stands bytes index ∧ table.opcode (numberIn first.toNat) = .ok i.opcode ∧
        decodeOperands s i.opcode (argumentIn first.toNat) bytes (index + 2) =
          .ok i.operands after := by
  obtain ⟨_, _, hfirst, h⟩ := bind_eq_ok.mp h
  obtain ⟨first, _, hfirst, hpure⟩ := bind_eq_ok.mp hfirst
  obtain ⟨hs, rfl⟩ := u2_eq_ok hfirst
  obtain ⟨rfl, rfl⟩ := Decoder.pure_eq_ok.mp hpure
  obtain ⟨o, ho, h⟩ := lift_bind_eq_ok.mp h
  obtain ⟨operands, _, hoperands, h⟩ := bind_eq_ok.mp h
  obtain ⟨rfl, rfl⟩ := Decoder.pure_eq_ok.mp h
  refine ⟨first, hs, ?_, ?_⟩
  · simpa only [numberIn, decide_eq_true_eq] using ho
  · simpa only [argumentIn, decide_eq_true_eq] using hoperands

/-- What is read has the operands that its opcode asks for. -/
theorem format_of_decode {table : OpcodeTable} {i : Instruction} {bytes : ByteArray}
    {index after : Nat} (h : decode table s bytes index = .ok i after) :
    i.format = i.opcode.format := by
  obtain ⟨first, -, -, h⟩ := decode_eq_ok h
  by_cases hf : i.opcode.format = .arrayPayload
  · obtain ⟨width, elements, _, hoperands, -⟩ := array_of_decodeOperands hf h
    rw [hf, format, hoperands]
    rfl
  · obtain ⟨units, -, -, hformat, -⟩ := takes_decodeOperands hf h
    exact hformat

end Dalvik.Instruction
