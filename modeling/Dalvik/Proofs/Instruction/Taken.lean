import Dalvik.Proofs.Instruction.Held
import Dalvik.Proofs.Instruction.RoundTrip

/-!
# The size of what is read

An instruction takes its code units, with one exception: an array that begins at an odd position is
filled up to an even one. The cursor is even from then on and never comes to the end of the code,
which is odd, so a list that is read has exactly the units that were asked for. An instruction that
lies across the end is reported: the bytes behind the end are out of reach, and what is read without
them stops elsewhere.
-/
namespace Dalvik

namespace Decoder
variable {α β : Type}

/-- On the bytes before a limit alone the decoder gives the same, or it reports a format error. -/
def StopsAt (limit : Nat) (d : Decoder α) : Prop :=
  ∀ ⦃bytes : ByteArray⦄ ⦃index : Nat⦄ ⦃a : α⦄ ⦃after : Nat⦄, d bytes index = .ok a after →
    d (bytes.extract 0 limit) index = .ok a after ∨
      ∃ e stop, d (bytes.extract 0 limit) index = .error e stop ∧ e.kind = .invalidFormat

theorem within_eq_ok {d : Decoder α} {place : String} {bytes : ByteArray} {index after : Nat} {a : α} :
    d.within place bytes index = .ok a after ↔ d bytes index = .ok a after := by
  unfold Decoder.within
  cases d bytes index <;> simp

theorem checked_apply {size : Nat} {reason : Nat → Malformed} {value : ByteArray → Nat → Decoder α}
    (bytes : ByteArray) (index : Nat) : (do
      let bytes ← input
      let index ← position
      if bytes.size < index + size then Decoder.fail (reason index)
      value bytes index : Decoder α) bytes index =
      if bytes.size < index + size then .error (.ofCause (.malformed (reason index))) index
      else value bytes index bytes index := by
  change (if bytes.size < index + size then _ else _ : Decoder α) bytes index = _
  split <;> rfl

namespace StopsAt
variable {limit : Nat} {d : Decoder α} {f : α → Decoder β}

@[simp] theorem pure (a : α) : StopsAt limit (Pure.pure a) := fun _ _ _ _ h => .inl h

@[simp] theorem lift (r : Result α) : StopsAt limit (liftM r : Decoder α) := fun _ _ _ _ h => .inl h

@[simp] theorem fail (reason : Malformed) : StopsAt limit (Decoder.fail reason : Decoder α) := nofun

@[simp] theorem bind (hd : StopsAt limit d) (hf : ∀ a, StopsAt limit (f a)) :
    StopsAt limit (d >>= f) := by
  intro bytes index b after hrun
  obtain ⟨a, between, hfirst, hrun⟩ := bind_eq_ok.mp hrun
  rcases hd hfirst with hcut | ⟨e, stop, hcut, hkind⟩
  · rw [bind_of_ok hcut]
    exact hf a hrun
  · exact .inr ⟨e, stop, by rw [bind_eq, hcut], hkind⟩

@[simp] theorem map {g : α → β} (hd : StopsAt limit d) : StopsAt limit (g <$> d) :=
  hd.bind fun a => pure (g a)

@[simp] theorem ite {c : Prop} [Decidable c] {d e : Decoder α} (hd : StopsAt limit d)
    (he : StopsAt limit e) : StopsAt limit (if c then d else e) := by
  split
  · exact hd
  · exact he

@[simp] theorem go (hd : StopsAt limit d) (count : Nat) (found : List α) :
    StopsAt limit (repeated.go d count found) := by
  induction count generalizing found with
  | zero => exact pure _
  | succ count ih => exact hd.bind fun a => ih (a :: found)

@[simp] theorem repeated (hd : StopsAt limit d) (count : Nat) : StopsAt limit (d.repeated count) :=
  hd.go count []

@[simp] theorem within {place : String} (hd : StopsAt limit d) : StopsAt limit (d.within place) := by
  intro bytes index a after hrun
  rcases hd (within_eq_ok.mp hrun) with hcut | ⟨e, stop, hcut, hkind⟩
  · exact .inl (within_eq_ok.mpr hcut)
  · exact .inr ⟨e.within place, stop, by rw [Decoder.within, hcut], hkind⟩

/-- A word of `size` bytes, taken behind the check that it lies inside. -/
theorem word {size : Nat} {reason : Nat → Malformed} {value : ByteArray → Nat → Decoder α}
    (h : ∀ bytes index, index + size ≤ (bytes.extract 0 limit).size →
      value (bytes.extract 0 limit) index (bytes.extract 0 limit) index =
        value bytes index bytes index) :
    StopsAt limit (do
      let bytes ← input
      let index ← position
      if bytes.size < index + size then Decoder.fail (reason index)
      value bytes index) := by
  intro bytes index a after hrun
  rw [checked_apply] at hrun ⊢
  split at hrun
  · cases hrun
  · split
    · exact .inr ⟨_, _, rfl, rfl⟩
    next hle => exact .inl ((h bytes index (Nat.not_lt.mp hle)).trans hrun)

theorem byte_extract {bytes : ByteArray} {i : Nat} (h : i < (bytes.extract 0 limit).size) :
    Access.byte (bytes.extract 0 limit) i = Access.byte bytes i := by
  have hi : i < bytes.size := by
    rw [ByteArray.size_extract] at h
    omega
  rw [Access.byte_eq_ok (getElem?_pos _ i h), Access.byte_eq_ok (getElem?_pos _ i hi),
    ByteArray.getElem_extract]
  simp

@[simp] theorem u2 : StopsAt limit u2 := by
  refine word fun bytes index h => ?_
  rw [byte_extract (show index + 1 < _ by omega), byte_extract (show index < _ by omega)]
  rfl

@[simp] theorem u4 : StopsAt limit u4 := by
  refine word fun bytes index h => ?_
  rw [byte_extract (show index + 3 < _ by omega), byte_extract (show index + 2 < _ by omega),
    byte_extract (show index + 1 < _ by omega), byte_extract (show index < _ by omega)]
  rfl

end StopsAt

end Decoder

namespace Instruction
open Decoder

variable {table : OpcodeTable} {s : Source} {o : Opcode} {argument : Nat} {i : Instruction}
  {is : List Instruction} {bytes : ByteArray} {index after : Nat}

/-! ## The size of an instruction -/

theorem Held.size_eq {units : List UInt16} {operands : Operands}
    (h : Held s o argument units operands) : operands.units = 1 + units.length := by
  cases h with
  | packedSwitchPayload h =>
    rw [Operands.units, h]
    omega
  | sparseSwitchPayload h =>
    rw [Operands.units, h]
    omega
  | _ => rfl

/-- Only an array that begins at an odd position ends at an even one. -/
theorem after_of_decode (h : decode table s bytes index = .ok i after) :
    after = index + 2 * i.units ∨ (index % 2 = 1 ∧ after % 2 = 0 ∧ index + 2 ≤ after) := by
  obtain ⟨first, -, -, h⟩ := decode_eq_ok h
  by_cases hf : i.opcode.format = .arrayPayload
  · obtain ⟨width, elements, size, hoperands, -, hsize, rfl⟩ := array_of_decodeOperands hf h
    rw [units, hoperands, Operands.units, hsize]
    omega
  · obtain ⟨units, -, rfl, -, hheld⟩ := takes_decodeOperands hf h
    rw [Instruction.units, hheld.size_eq]
    omega

theorem lt_of_decode (h : decode table s bytes index = .ok i after) : index + 2 ≤ after := by
  have hpos := units_pos i
  rcases after_of_decode h with h | h <;> omega

/-! ## Instructions in a row -/

/-- The instructions that are read one after another from a place on, and where the last one ends. -/
inductive Stream (table : OpcodeTable) (s : Source) (bytes : ByteArray) :
    Nat → List Instruction → Nat → Prop
  | done (index : Nat) : Stream table s bytes index [] index
  | next {index between after : Nat} {i : Instruction} {is : List Instruction}
      (h : decode table s bytes index = .ok i between) (rest : Stream table s bytes between is after) :
    Stream table s bytes index (i :: is) after

theorem Stream.le (h : Stream table s bytes index is after) : index ≤ after := by
  induction h with
  | done => exact Nat.le_refl _
  | next h _ ih => exact (Nat.le_of_add_right_le (lt_of_decode h)).trans ih

/-- Once the cursor is even it stays so. -/
theorem Stream.size (h : Stream table s bytes index is after) :
    after = index + 2 * unitsOf is ∨ (index % 2 = 1 ∧ after % 2 = 0) := by
  induction h with
  | done => exact .inl rfl
  | next h _ ih =>
    rw [unitsOf_cons]
    have hfirst := after_of_decode h
    omega

theorem stream_of_decodeUpTo {start limit room : Nat} {found : List Instruction}
    (h : decodeUpTo table s start limit room found bytes index = .ok is after) :
    ∃ more, is = found.reverse ++ more ∧ Stream table s bytes index more after := by
  induction room generalizing found index with
  | zero =>
    obtain ⟨rfl, rfl⟩ := Decoder.pure_eq_ok.mp h
    exact ⟨[], by simp, .done _⟩
  | succ room ih =>
    rw [decodeUpTo, position_bind] at h
    split at h
    · obtain ⟨rfl, rfl⟩ := Decoder.pure_eq_ok.mp h
      exact ⟨[], by simp, .done _⟩
    · obtain ⟨i, between, hfirst, h⟩ := bind_eq_ok.mp h
      obtain ⟨more, rfl, hmore⟩ := ih h
      refine ⟨i :: more, by simp, .next ?_ hmore⟩
      exact within_eq_ok.mp hfirst

theorem decodeUpTo_of_stream (start : Nat) (found : List Instruction) {limit room : Nat}
    (h : Stream table s bytes index is limit) (hroom : limit ≤ index + 2 * room) :
    decodeUpTo table s start limit room found bytes index = .ok (found.reverse ++ is) limit := by
  induction h generalizing found room with
  | done index => rw [decodeUpTo_end (Nat.le_refl index), List.append_nil]
  | next hi rest ih =>
    have hnext := lt_of_decode hi
    have hle := rest.le
    obtain ⟨room, rfl⟩ : ∃ n, room = n + 1 := Nat.exists_eq_succ_of_ne_zero (by omega)
    rw [decodeUpTo_step (by omega) hi, ih _ (by omega)]
    simp

theorem decodeAll_apply (table : OpcodeTable) (s : Source) (count : Nat) (bytes : ByteArray)
    (index : Nat) : decodeAll table s count bytes index =
      if bytes.size < index + 2 * count then
        .error (.ofCause (.malformed (.instructionsPastEnd index))) index
      else match decodeUpTo table s index (index + 2 * count) count []
          (bytes.extract 0 (index + 2 * count)) index with
        | .ok is after =>
          if after ≠ index + 2 * count then
            .error (.ofCause (.malformed (.unitCount ((after - index) / 2) count))) after
          else .ok is after
        | .error e after => .error e after := by
  change (if bytes.size < index + 2 * count then _ else _ : Decoder _) bytes index = _
  split
  · rfl
  next hle =>
    rw [bind_eq, upTo, Access.slice_eq_ok (Nat.zero_le _) (Nat.not_lt.mp hle)]
    dsimp only
    cases decodeUpTo table s index (index + 2 * count) count []
      (bytes.extract 0 (index + 2 * count)) index with
    | ok is after =>
      change (if after ≠ index + 2 * count then _ else _ : Decoder _) bytes after =
        if after ≠ index + 2 * count then _ else _
      split <;> rfl
    | error e after => rfl

/-- A list is read if the instructions in the bytes before the end come to it exactly. -/
theorem decodeAll_eq_ok_iff {count : Nat} : decodeAll table s count bytes index = .ok is after ↔
    after ≤ bytes.size ∧ after = index + 2 * count ∧
      Stream table s (bytes.extract 0 after) index is after := by
  rw [decodeAll_apply]
  constructor
  · intro hrun
    split at hrun
    · cases hrun
    next hle =>
      split at hrun
      next found stop hfound =>
        split at hrun
        · cases hrun
        next hstop =>
          cases hrun
          obtain rfl := not_ne_iff.mp hstop
          obtain ⟨more, rfl, hstream⟩ := stream_of_decodeUpTo hfound
          exact ⟨Nat.not_lt.mp hle, rfl, hstream⟩
      · cases hrun
  · rintro ⟨hle, rfl, hstream⟩
    rw [if_neg (Nat.not_lt.mpr hle), decodeUpTo_of_stream index [] hstream (Nat.le_refl _)]
    exact if_neg (not_ne_iff.mpr rfl)

/-! ## What lies across the end -/

section
variable {limit : Nat}

theorem elementsFrom_eq_error {width : UInt16} {count : Nat}
    (h : bytes.size - index < count * width.toNat) :
    elementsFrom width count bytes index =
      .error (.ofCause (.malformed (.arrayPayloadSize count))) index := by
  change (if bytes.size - index < count * width.toNat then _ else _ : Decoder Operands) bytes index
    = _
  rw [if_pos h]
  rfl

/-- An array asks how many bytes are left, and they are fewer before a limit. -/
theorem stopsAt_elements (width : UInt16) : StopsAt limit (do
    let count ← Decoder.u4
    if width ∉ elementWidths then Decoder.fail (.elementWidth width.toNat)
    elementsFrom width count.toNat) := by
  intro bytes index operands after hrun
  obtain ⟨count, between, hcount, hrun⟩ := bind_eq_ok.mp hrun
  rcases StopsAt.u4 hcount with hcut | ⟨e, stop, hcut, hkind⟩
  · rw [bind_of_ok hcut]
    obtain ⟨-, hinside⟩ := after_of_u4 hcut
    split at hrun
    · cases hrun
    next hwidth =>
      rw [if_neg hwidth]
      obtain ⟨-, elements, helements, rfl, rfl⟩ := elementsFrom_eq_ok_iff.mp hrun
      by_cases hle : between + count.toNat * width.toNat ≤ (bytes.extract 0 limit).size
      · refine .inl (elementsFrom_eq_ok_iff.mpr ⟨hle, elements, ?_, rfl, rfl⟩)
        rw [ByteArray.size_extract] at hle
        rw [← helements, ByteArray.extract_extract, Nat.zero_add, Nat.zero_add,
          Nat.min_eq_left (by omega)]
      · exact .inr ⟨_, _, elementsFrom_eq_error (by omega), rfl⟩
  · exact .inr ⟨e, stop, by rw [bind_eq, hcut], hkind⟩

@[simp] theorem stopsAt_unit : StopsAt limit unit := StopsAt.u2.bind fun _ => .pure _

@[simp] theorem stopsAt_signedUnit : StopsAt limit signedUnit := stopsAt_unit.bind fun _ => .pure _

@[simp] theorem stopsAt_unitPair : StopsAt limit unitPair :=
  stopsAt_unit.bind fun _ => stopsAt_unit.bind fun _ => .pure _

@[simp] theorem stopsAt_word : StopsAt limit word := StopsAt.u4.bind fun _ => .pure _

theorem stopsAt_decodeOperands (s : Source) (o : Opcode) (argument : Nat) :
    StopsAt limit (decodeOperands s o argument) := by
  have hnone : StopsAt limit (if argument = 0 then pure ()
      else Decoder.fail (.nonzeroArgument o.name argument)) := by simp
  have hindex : StopsAt limit (do return UInt32.ofNat (← unit)) := by simp
  cases hf : o.format with
  | arrayPayload =>
    rw [decodeOperands_of_array hf]
    exact hnone.bind fun _ => StopsAt.u2.bind stopsAt_elements
  | f32x =>
    simp only [decodeOperands, hf]
    exact hnone.bind fun _ => StopsAt.u2.bind fun _ => by simp
  | f35c =>
    simp only [decodeOperands, hf]
    exact hindex.bind fun _ => stopsAt_unit.bind fun _ => .bind (by simp) fun _ => by simp
  | f3rc =>
    simp only [decodeOperands, hf]
    exact hindex.bind fun _ => StopsAt.u2.bind fun _ => by simp
  | f45cc =>
    simp only [decodeOperands, hf]
    exact hindex.bind fun _ => stopsAt_unit.bind fun _ => hindex.bind fun _ =>
      (StopsAt.lift _).bind fun _ => (StopsAt.lift _).bind fun _ => by simp
  | f4rcc =>
    simp only [decodeOperands, hf]
    exact hindex.bind fun _ => StopsAt.u2.bind fun _ => hindex.bind fun _ =>
      (StopsAt.lift _).bind fun _ => by simp
  | packedSwitchPayload =>
    simp only [decodeOperands, hf]
    exact (hnone.bind fun _ => stopsAt_unit).bind fun _ => stopsAt_word.bind fun _ => by simp
  | sparseSwitchPayload =>
    simp only [decodeOperands, hf]
    exact (hnone.bind fun _ => stopsAt_unit).bind fun _ =>
      (stopsAt_word.repeated _).bind fun _ => by simp
  | _ => simp [decodeOperands, hf]

theorem stopsAt_decode (table : OpcodeTable) (s : Source) : StopsAt limit (decode table s) :=
  stopsAt_unit.bind fun _ => (StopsAt.lift _).bind fun o =>
    (stopsAt_decodeOperands s o _).bind fun _ => .pure _

/-- What the next instruction of the whole bytes does to a reader of those before the limit. -/
theorem decodeUpTo_next {start room between : Nat} {found : List Instruction} (hlt : index < limit)
    (h : decode table s bytes index = .ok i between) :
    decodeUpTo table s start limit (room + 1) found (bytes.extract 0 limit) index =
        decodeUpTo table s start limit room (i :: found) (bytes.extract 0 limit) between ∨
      ∃ e stop, decodeUpTo table s start limit (room + 1) found (bytes.extract 0 limit) index =
        .error e stop ∧ e.kind = .invalidFormat := by
  rcases stopsAt_decode table s h with hcut | ⟨e, stop, hcut, hkind⟩
  · exact .inl (decodeUpTo_step hlt hcut)
  · refine .inr ⟨e.within s!"instruction at unit {(index - start) / 2}", stop, ?_, hkind⟩
    rw [decodeUpTo, position_bind, if_neg (by omega), bind_eq, Decoder.within, hcut]

/-- A reader of the bytes before the limit follows the stream to the instruction across it. There it
fails, or it stops behind the limit. -/
theorem decodeUpTo_across (start : Nat) (found : List Instruction) {room place : Nat}
    (h : Stream table s bytes index is place) (hlt : place < limit)
    (hi : decode table s bytes place = .ok i after) (hacross : limit < after)
    (hroom : limit ≤ index + 2 * room) :
    (∃ all, decodeUpTo table s start limit room found (bytes.extract 0 limit) index =
        .ok all after) ∨
      ∃ e stop, decodeUpTo table s start limit room found (bytes.extract 0 limit) index =
        .error e stop ∧ e.kind = .invalidFormat := by
  have hpos : index < limit := h.le.trans_lt hlt
  induction h generalizing found room with
  | done index =>
    obtain ⟨room, rfl⟩ : ∃ n, room = n + 1 := Nat.exists_eq_succ_of_ne_zero (by omega)
    rcases decodeUpTo_next hpos hi with hrun | hrun
    · rw [hrun, decodeUpTo_end hacross.le]
      exact .inl ⟨_, rfl⟩
    · exact .inr hrun
  | next hj rest ih =>
    obtain ⟨room, rfl⟩ : ∃ n, room = n + 1 := Nat.exists_eq_succ_of_ne_zero (by omega)
    have hnext := lt_of_decode hj
    rcases decodeUpTo_next hpos hj with hrun | hrun
    · rw [hrun]
      exact ih _ hlt hi (by omega) (rest.le.trans_lt hlt)
    · exact .inr hrun

end

/-- A list that is read has the units that were asked for, and the cursor has moved over them; both
hold at odd positions too, and whatever the opcodes of the table and the pools are. If an instruction
that begins before the end goes beyond it, then a format error is reported. -/
theorem decodeAll_exact (table : OpcodeTable) (s : Source) (count : Nat) (bytes : ByteArray)
    (index : Nat) :
    (∀ is after, (decodeAll table s count).decodeAt bytes index = .ok (is, after) →
      unitsOf is = count ∧ after = index + 2 * count) ∧
    ∀ before place i after, Stream table s bytes index before place → place < index + 2 * count →
      (decode table s).decodeAt bytes place = .ok (i, after) → index + 2 * count < after →
        ∃ e, (decodeAll table s count).decodeAt bytes index = .error e ∧
          e.kind = .invalidFormat := by
  constructor
  · intro is after hrun
    obtain ⟨-, hafter, hstream⟩ := decodeAll_eq_ok_iff.mp (decodeAt_eq_ok.mp hrun)
    have hsize := hstream.size
    exact ⟨by omega, hafter⟩
  · intro before place i after hstream hlt hi hacross
    suffices h : ∃ e stop, decodeAll table s count bytes index = .error e stop ∧
        e.kind = .invalidFormat by
      obtain ⟨e, stop, hrun, hkind⟩ := h
      exact ⟨e, by rw [Decoder.decodeAt, hrun], hkind⟩
    rw [decodeAll_apply]
    split
    · exact ⟨_, _, rfl, rfl⟩
    · rcases decodeUpTo_across index [] hstream hlt (decodeAt_eq_ok.mp hi) hacross (Nat.le_refl _)
        with ⟨all, hrun⟩ | ⟨e, stop, hrun, hkind⟩
      · rw [hrun]
        dsimp only
        rw [if_pos (by omega)]
        exact ⟨_, _, rfl, rfl⟩
      · rw [hrun]
        exact ⟨e, stop, rfl, hkind⟩

/-- A literal and a string, without the array between them. -/
def oddCode : List Instruction := arrayCode.eraseIdx 1

def oddBytes : ByteArray := ([9, 0x12, 0xf1, 26, 0, 1, 0] : Bytes).toByteArray

/-- The code begins at an odd position, and with two units the string lies across the end. -/
theorem decodeAll_exact_oddCode :
    (decodeAll (.ofTarget (WriteOptions.target {})) twoNamesSource 3).decodeAt oddBytes 1 =
      .ok (oddCode, 7) ∧ unitsOf oddCode = 3 ∧
    ∃ e, (decodeAll (.ofTarget (WriteOptions.target {})) twoNamesSource 2).decodeAt oddBytes 1 =
      .error e ∧ e.kind = .invalidFormat := by
  have ht := WriteOptions.faithful (o := {}) rfl
  have hliteral : (⟨⟨18, by decide⟩, .f11n 1 (-1)⟩ : Instruction).encode
      (.ofTarget (WriteOptions.target {})) twoNames 1 = .ok [0x12, 0xf1] := by decide +kernel
  have hstring : (⟨⟨26, by decide⟩, .f21c 0 (.string "b")⟩ : Instruction).encode
      (.ofTarget (WriteOptions.target {})) twoNames 3 = .ok [26, 0, 1, 0] := by decide +kernel
  have hs : Bytes.Stands ([0x12, 0xf1] ++ [26, 0, 1, 0]) oddBytes 1 :=
    Bytes.stands_toByteArray [9] [0x12, 0xf1, 26, 0, 1, 0] []
  have first {bytes : ByteArray} (hs : Bytes.Stands [0x12, 0xf1] bytes 1) :=
    decode_eq_ok_of_encode (i := ⟨⟨18, by decide⟩, .f11n 1 (-1)⟩) ht inverse_twoNames
      ⟨by decide +kernel, trivial⟩ trivial hliteral (.inl rfl) hs
        ((Nat.le_add_right 1 2).trans (hs.inside (by decide)))
  have second {bytes : ByteArray} (hs : Bytes.Stands [26, 0, 1, 0] bytes 3) :=
    decode_eq_ok_of_encode (i := ⟨⟨26, by decide⟩, .f21c 0 (.string "b")⟩) ht inverse_twoNames
      ⟨by decide +kernel, trivial⟩ trivial hstring (.inl rfl) hs
        ((Nat.le_add_right 3 4).trans (hs.inside (by decide)))
  have hall : decodeAll (.ofTarget (WriteOptions.target {})) twoNamesSource 3 oddBytes 1 =
      .ok oddCode 7 :=
    decodeAll_eq_ok_iff.mpr ⟨by decide, rfl,
      .next (first (hs.left.take (by decide))) (.next (second (hs.right.take (by decide))) (.done 7))⟩
  have hall := decodeAt_eq_ok.mpr hall
  refine ⟨hall, ((decodeAll_exact _ _ 3 oddBytes 1).1 _ _ hall).1, ?_⟩
  exact (decodeAll_exact _ _ 2 oddBytes 1).2 _ 3 _ 7 (.next (first hs.left) (.done 3)) (by decide)
    (decodeAt_eq_ok.mpr (second hs.right)) (by decide)

end Instruction

end Dalvik
