import Dalvik.Proofs.Instruction.Tables
import Dalvik.Proofs.Placement.Decoders

/-!
# Instructions read the same wherever they lie

A payload is read up to the next even position, and an array asks how many bytes are left. So the
bytes from the cursor on have to be the same to their end, and the two cursors even or odd together.
Nothing else matters: the instructions need not have the formats of their opcodes.
-/
namespace Dalvik

/-- From the two places on the bytes are the same up to their ends. -/
structure Alike (bytes bytes' : ByteArray) (index index' : Nat) : Prop where
  size : bytes.size + index' = bytes'.size + index
  parity : index % 2 = index' % 2
  rest : bytes.data.toList.drop index = bytes'.data.toList.drop index'

namespace Alike
variable {bytes bytes' : ByteArray} {index index' n : Nat}

theorem add (h : Alike bytes bytes' index index') (n : Nat) :
    Alike bytes bytes' (index + n) (index' + n) where
  size := by have := h.size; omega
  parity := by have := h.parity; omega
  rest := by rw [← List.drop_drop, h.rest, List.drop_drop]

/-- The same bytes at two places, cut off where they end. -/
theorem of_stands {part : Bytes} (hs : part.Stands bytes index) (hs' : part.Stands bytes' index')
    (hle : index + part.length ≤ bytes.size) (hle' : index' + part.length ≤ bytes'.size)
    (hparity : index % 2 = index' % 2) :
    Alike (bytes.extract 0 (index + part.length)) (bytes'.extract 0 (index' + part.length)) index
      index' where
  size := by
    simp only [ByteArray.size_extract]
    omega
  parity := hparity
  rest := by
    have cut {bytes : ByteArray} {index : Nat} (hs : part.Stands bytes index) :
        (bytes.extract 0 (index + part.length)).data.toList.drop index = part := by
      rw [ByteArray.data_extract, Array.toList_extract, List.extract_eq_take_drop, List.drop_zero,
        Nat.sub_zero, List.drop_take, Nat.add_sub_cancel_left]
      exact (List.prefix_iff_eq_take.mp hs).symm
    rw [cut hs, cut hs']

theorem exists_byte (h : Alike bytes bytes' index index') (hn : index + n < bytes.size) :
    ∃ b, Access.byte bytes (index + n) = .ok b ∧ Access.byte bytes' (index' + n) = .ok b := by
  have hlt : n < (bytes.data.toList.drop index).length := by
    simp
    omega
  have hfirst : Bytes.Stands (bytes.data.toList.drop index) bytes index := List.prefix_rfl
  have hsecond : Bytes.Stands (bytes.data.toList.drop index) bytes' index' :=
    h.rest ▸ List.prefix_rfl
  exact ⟨_, Access.byte_eq_ok (hfirst.getElem? hlt), Access.byte_eq_ok (hsecond.getElem? hlt)⟩

theorem extract_eq (h : Alike bytes bytes' index index') :
    bytes'.extract index' (index' + n) = bytes.extract index (index + n) := by
  apply ByteArray.ext
  apply Array.ext'
  rw [ByteArray.data_extract, ByteArray.data_extract, Array.toList_extract, Array.toList_extract,
    List.extract_eq_take_drop, List.extract_eq_take_drop, h.rest, Nat.add_sub_cancel_left,
    Nat.add_sub_cancel_left]

theorem slice (h : Alike bytes bytes' index index') {part : ByteArray}
    (hpart : Access.slice bytes index (index + n) = .ok part) :
    Access.slice bytes' index' (index' + n) = .ok part := by
  obtain ⟨⟨⟩, hrange, hpart⟩ := Result.bind_eq_ok.mp hpart
  obtain rfl := Result.pure_eq_ok.mp hpart
  unfold Access.range at hrange
  split at hrange
  next hin =>
    have hsize := h.size
    rw [Access.slice_eq_ok (by omega) (by omega), h.extract_eq]
  · cases hrange

end Alike

namespace Decoder
variable {α β : Type}

/-- Where the bytes from the cursor on are the same, the second decoder gives what the first one gives
and takes as many bytes. -/
def Shifts (d e : Decoder α) : Prop :=
  ∀ ⦃bytes bytes' : ByteArray⦄ ⦃index index' : Nat⦄, Alike bytes bytes' index index' →
    ∀ a after, d bytes index = .ok a after →
      ∃ size, after = index + size ∧ e bytes' index' = .ok a (index' + size)

namespace Shifts

variable {d e : Decoder α} {f g : α → Decoder β}

@[simp] theorem pure (a : α) : Shifts (Pure.pure a) (Pure.pure a) := by
  intro bytes bytes' index index' _ b after hrun
  cases hrun
  exact ⟨0, rfl, rfl⟩

@[simp] theorem fail (reason : Malformed) : Shifts (Decoder.fail reason : Decoder α) e := nofun

@[simp] theorem fail_bind (reason : Malformed) {e : Decoder β} :
    Shifts (Decoder.fail reason >>= f) e := nofun

@[simp] theorem bind (h : Shifts d e) (hf : ∀ a, Shifts (f a) (g a)) : Shifts (d >>= f) (e >>= g) := by
  intro bytes bytes' index index' halike b after hrun
  obtain ⟨a, between, hd, hrun⟩ := bind_eq_ok.mp hrun
  obtain ⟨size, rfl, he⟩ := h halike a between hd
  obtain ⟨more, rfl, hg⟩ := hf a (halike.add size) b after hrun
  rw [bind_of_ok he, hg, Nat.add_assoc, Nat.add_assoc]
  exact ⟨size + more, rfl, rfl⟩

@[simp] theorem map {k : α → β} (h : Shifts d e) : Shifts (k <$> d) (k <$> e) :=
  h.bind fun a => pure (k a)

theorem lift {r r' : Result α} (h : ∀ a, r = .ok a → r' = .ok a) :
    Shifts (liftM r : Decoder α) (liftM r' : Decoder α) := by
  intro bytes bytes' index index' _ a after hrun
  obtain ⟨ha, rfl⟩ := lift_eq_ok.mp hrun
  exact ⟨0, rfl, lift_eq_ok.mpr ⟨h a ha, rfl⟩⟩

@[simp] theorem lift_self (r : Result α) : Shifts (liftM r : Decoder α) (liftM r : Decoder α) :=
  lift fun _ ha => ha

@[simp] theorem available : Shifts Decoder.available Decoder.available := by
  intro bytes bytes' index index' halike n after hrun
  cases hrun
  have hleft : bytes.size - index = bytes'.size - index' := by
    have := halike.size
    omega
  exact ⟨0, rfl, by rw [hleft]; rfl⟩

@[simp] theorem within {place place' : String} (h : Shifts d e) :
    Shifts (d.within place) (e.within place') := by
  intro bytes bytes' index index' halike a after hrun
  unfold Decoder.within at hrun ⊢
  split at hrun
  next value stop hd =>
    cases hrun
    obtain ⟨size, rfl, he⟩ := h halike _ _ hd
    exact ⟨size, rfl, by rw [he]⟩
  · cases hrun

@[simp] theorem ite {c : Prop} [Decidable c] {d e d' e' : Decoder α} (hd : c → Shifts d d')
    (he : ¬ c → Shifts e e') : Shifts (if c then d else e) (if c then d' else e') := by
  split
  next h => exact hd h
  next h => exact he h

@[simp] theorem go (h : Shifts d d) (count : Nat) (found : List α) :
    Shifts (repeated.go d count found) (repeated.go d count found) := by
  induction count generalizing found with
  | zero => exact pure _
  | succ count ih => exact h.bind fun a => ih (a :: found)

@[simp] theorem repeated (h : Shifts d d) (count : Nat) :
    Shifts (d.repeated count) (d.repeated count) := h.go count []

/-! ## Words -/

@[simp] theorem u2 : Shifts u2 u2 := by
  intro bytes bytes' index index' halike v after hrun
  have hsize := halike.size
  change (if bytes.size < index + 2 then _ else _ : Decoder UInt16) bytes index = _ at hrun
  change ∃ size, after = index + size ∧
    (if bytes'.size < index' + 2 then _ else _ : Decoder UInt16) bytes' index' = _
  split at hrun
  · cases hrun
  next hle =>
    obtain ⟨b1, h1, h1'⟩ := halike.exists_byte (n := 1) (by omega)
    obtain ⟨b0, h0, h0'⟩ := halike.exists_byte (n := 0) (by omega)
    rw [Nat.add_zero] at h0 h0'
    rw [lift_of_ok h1, lift_of_ok h0, seek_bind] at hrun
    cases hrun
    refine ⟨2, rfl, ?_⟩
    rw [if_neg (by omega), lift_of_ok h1', lift_of_ok h0', seek_bind]
    rfl

@[simp] theorem u4 : Shifts u4 u4 := by
  intro bytes bytes' index index' halike v after hrun
  have hsize := halike.size
  change (if bytes.size < index + 4 then _ else _ : Decoder UInt32) bytes index = _ at hrun
  change ∃ size, after = index + size ∧
    (if bytes'.size < index' + 4 then _ else _ : Decoder UInt32) bytes' index' = _
  split at hrun
  · cases hrun
  next hle =>
    obtain ⟨b3, h3, h3'⟩ := halike.exists_byte (n := 3) (by omega)
    obtain ⟨b2, h2, h2'⟩ := halike.exists_byte (n := 2) (by omega)
    obtain ⟨b1, h1, h1'⟩ := halike.exists_byte (n := 1) (by omega)
    obtain ⟨b0, h0, h0'⟩ := halike.exists_byte (n := 0) (by omega)
    rw [Nat.add_zero] at h0 h0'
    rw [lift_of_ok h3, lift_of_ok h2, lift_of_ok h1, lift_of_ok h0, seek_bind] at hrun
    cases hrun
    refine ⟨4, rfl, ?_⟩
    rw [if_neg (by omega), lift_of_ok h3', lift_of_ok h2', lift_of_ok h1', lift_of_ok h0', seek_bind]
    rfl

/-- A slice of any length that is filled up to an even one. -/
theorem slice_even {size : Nat} {read : ByteArray → Result α} {value : α → β} :
    Shifts (do
      let start ← position
      let slice ← Access.slice (← input) start (start + size)
      let a ← read slice
      seek (start + size + (start + size) % 2)
      return value a) (do
      let start ← position
      let slice ← Access.slice (← input) start (start + size)
      let a ← read slice
      seek (start + size + (start + size) % 2)
      return value a) := by
  intro bytes bytes' index index' halike b after hrun
  rw [position_bind, input_bind] at hrun ⊢
  obtain ⟨slice, hslice, hrun⟩ := lift_bind_eq_ok.mp hrun
  obtain ⟨a, hread, hrun⟩ := lift_bind_eq_ok.mp hrun
  have hparity := halike.parity
  rw [lift_of_ok (halike.slice hslice), lift_of_ok hread]
  cases hrun
  refine ⟨size + (index + size) % 2, Nat.add_assoc _ _ _, ?_⟩
  have hplace : index' + size + (index' + size) % 2 = index' + (size + (index + size) % 2) := by omega
  rw [hplace]
  rfl

end Shifts

end Decoder

/-- The second source gives whatever the first one gives. Only call sites can be read from the one and
not from the other. -/
structure Source.Extends (t s : Source) : Prop where
  string : s.string = t.string
  type : s.type = t.type
  proto : s.proto = t.proto
  field : s.field = t.field
  method : s.method = t.method
  methodHandle : s.methodHandle = t.methodHandle
  callSite : ∀ i x, s.callSite i = .ok x → t.callSite i = .ok x

namespace Instruction
open Decoder Result

/-! ## Writing -/

section
variable {table : OpcodeTable} {r : Resolver} {position position' : Nat} {i : Instruction}
  {is : List Instruction} {out out' : Bytes}

theorem padding_of_even {n : Nat} (h : position % 2 = 0) :
    padding (position + n) 2 = List.replicate (n % 2) 0 := by
  rw [padding, alignUp_two]
  congr 1
  omega

/-- The position only decides whether a table may stand there. -/
theorem eq_of_encode (h : i.encode table r position = .ok out)
    (h' : i.encode table r position' = .ok out') : out = out' := by
  have switch {op : UInt16} {size : Nat} {head head' : Bytes}
      (h : switchHead position op size = .ok head) (h' : switchHead position' op size = .ok head') :
      head = head' := by
    obtain ⟨-, -, h⟩ := bind_eq_ok.mp h
    obtain ⟨-, -, h'⟩ := bind_eq_ok.mp h'
    exact Except.ok.inj (h.symm.trans h')
  obtain ⟨op, hop, h⟩ := bind_eq_ok.mp h
  obtain ⟨op', hop', h'⟩ := bind_eq_ok.mp h'
  obtain rfl := Except.ok.inj (hop.symm.trans hop')
  obtain ⟨o, operands⟩ := i
  cases operands with
  | packedSwitchPayload firstKey targets =>
    obtain ⟨head, hhead, h⟩ := bind_eq_ok.mp h
    obtain ⟨head', hhead', h'⟩ := bind_eq_ok.mp h'
    obtain rfl := switch hhead hhead'
    exact Except.ok.inj (h.symm.trans h')
  | sparseSwitchPayload cases =>
    obtain ⟨-, h⟩ := violation_guard_eq_ok.mp h
    obtain ⟨-, h'⟩ := violation_guard_eq_ok.mp h'
    obtain ⟨head, hhead, h⟩ := bind_eq_ok.mp h
    obtain ⟨head', hhead', h'⟩ := bind_eq_ok.mp h'
    obtain rfl := switch hhead hhead'
    exact Except.ok.inj (h.symm.trans h')
  | arrayPayload width elements =>
    obtain ⟨_, halign, h⟩ := bind_eq_ok.mp h
    obtain ⟨_, halign', h'⟩ := bind_eq_ok.mp h'
    have heven : position % 2 = 0 := by
      have : position % 4 = 0 := (ite_violation_eq_ok.mp halign).1
      omega
    have heven' : position' % 2 = 0 := by
      have : position' % 4 = 0 := (ite_violation_eq_ok.mp halign').1
      omega
    obtain ⟨parts, hparts, h⟩ := bind_eq_ok.mp h
    obtain ⟨parts', hparts', h'⟩ := bind_eq_ok.mp h'
    obtain rfl := Except.ok.inj (hparts.symm.trans hparts')
    obtain rfl := pure_eq_ok.mp h
    obtain rfl := pure_eq_ok.mp h'
    rw [padding_of_even heven, padding_of_even heven']
  | _ => exact Except.ok.inj (h.symm.trans h')

theorem eq_of_encodeAll (h : encodeAll table r position is = .ok out)
    (h' : encodeAll table r position' is = .ok out') : out = out' := by
  suffices go : ∀ done all all' : Array UInt8,
      is.foldlM (fun (out : Array UInt8) i => do
        let part : Bytes ← (i.encode table r (position + out.size)).within
          s!"{i.opcode.name} at unit {out.size / 2}"
        return out ++ part) done = Except.ok all →
      is.foldlM (fun (out : Array UInt8) i => do
        let part : Bytes ← (i.encode table r (position' + out.size)).within
          s!"{i.opcode.name} at unit {out.size / 2}"
        return out ++ part) done = Except.ok all' → all = all' by
    obtain ⟨all, hall, h⟩ := bind_eq_ok.mp h
    obtain ⟨all', hall', h'⟩ := bind_eq_ok.mp h'
    rw [← pure_eq_ok.mp h, ← pure_eq_ok.mp h', go _ _ _ hall hall']
  clear h h'
  induction is with
  | nil => exact fun done all all' h h' => (pure_eq_ok.mp h).symm.trans (pure_eq_ok.mp h')
  | cons i is ih =>
    intro done all all' h h'
    rw [List.foldlM_cons] at h h'
    obtain ⟨next, hnext, h⟩ := bind_eq_ok.mp h
    obtain ⟨next', hnext', h'⟩ := bind_eq_ok.mp h'
    obtain ⟨part, hpart, hnext⟩ := bind_eq_ok.mp hnext
    obtain ⟨part', hpart', hnext'⟩ := bind_eq_ok.mp hnext'
    obtain rfl := eq_of_encode (within_eq_ok_iff.mp hpart) (within_eq_ok_iff.mp hpart')
    obtain rfl := Except.ok.inj (hnext.symm.trans hnext')
    exact ih _ _ _ h h'

end

/-! ## Reading -/

@[simp] theorem shifts_unit : Shifts unit unit := Shifts.u2.bind fun _ => .pure _

@[simp] theorem shifts_signedUnit : Shifts signedUnit signedUnit := shifts_unit.bind fun _ => .pure _

@[simp] theorem shifts_unitPair : Shifts unitPair unitPair :=
  shifts_unit.bind fun _ => shifts_unit.bind fun _ => .pure _

@[simp] theorem shifts_word : Shifts word word := Shifts.u4.bind fun _ => .pure _

section
variable {s t : Source} (h : t.Extends s)
include h

theorem resolve_eq_ok {kind : ReferenceKind} {index : UInt32} {x : Reference}
    (hx : resolve s kind index = .ok x) : resolve t kind index = .ok x := by
  cases kind with
  | callSite =>
    obtain ⟨site, hsite, hx⟩ := bind_eq_ok.mp hx
    exact bind_eq_ok.mpr ⟨site, h.callSite index site hsite, hx⟩
  | _ => simpa only [resolve, h.string, h.type, h.proto, h.field, h.method, h.methodHandle] using hx

theorem shifts_decodeOperands (o : Opcode) (argument : Nat) :
    Shifts (decodeOperands s o argument) (decodeOperands t o argument) := by
  have hnone : Shifts (if argument = 0 then pure ()
      else Decoder.fail (.nonzeroArgument o.name argument))
      (if argument = 0 then pure () else Decoder.fail (.nonzeroArgument o.name argument)) :=
    .ite (fun _ => .pure _) fun _ => .fail _
  have hresolve (kind : ReferenceKind) (index : UInt32) :
      Shifts (liftM (resolve s kind index) : Decoder Reference) (liftM (resolve t kind index)) :=
    .lift fun _ => resolve_eq_ok h
  have hindex : Shifts (do return UInt32.ofNat (← unit)) (do return UInt32.ofNat (← unit)) := by simp
  unfold decodeOperands
  cases o.format with
  | f32x => exact hnone.bind fun _ => Shifts.u2.bind fun _ => by simp
  | f35c => exact hindex.bind fun _ => shifts_unit.bind fun _ => by simp [hresolve]
  | f3rc => exact hindex.bind fun _ => Shifts.u2.bind fun _ => by simp [hresolve]
  | f45cc =>
    exact hindex.bind fun _ => shifts_unit.bind fun _ => hindex.bind fun _ =>
      (Shifts.lift_self _).bind fun _ => by simp [hresolve]
  | f4rcc =>
    exact hindex.bind fun _ => Shifts.u2.bind fun _ => hindex.bind fun _ => by simp [hresolve]
  | arrayPayload =>
    refine hnone.bind fun _ => Shifts.u2.bind fun width => Shifts.u4.bind fun count => ?_
    refine .ite (fun _ => .fail_bind _) fun _ => Shifts.available.bind fun room => ?_
    exact .ite (fun _ => .fail_bind _) fun _ => .slice_even
  | packedSwitchPayload =>
    exact (hnone.bind fun _ => shifts_unit).bind fun _ => shifts_word.bind fun _ => by simp
  | sparseSwitchPayload =>
    exact (hnone.bind fun _ => shifts_unit).bind fun _ =>
      (shifts_word.repeated _).bind fun _ => by simp
  | _ => simp [hresolve, hnone]

theorem shifts_decode (table : OpcodeTable) : Shifts (decode table s) (decode table t) :=
  shifts_unit.bind fun _ => (Shifts.lift_self _).bind fun o =>
    (shifts_decodeOperands h o _).bind fun _ => .pure _

/-- The limits are as far away as the cursors. -/
theorem decodeUpTo_alike {table : OpcodeTable} {start start' limit limit' room : Nat}
    {found is : List Instruction} {bytes bytes' : ByteArray} {index index' after : Nat}
    (halike : Alike bytes bytes' index index') (hlimit : limit + index' = limit' + index)
    (hrun : decodeUpTo table s start limit room found bytes index = .ok is after) :
    ∃ size, after = index + size ∧
      decodeUpTo table t start' limit' room found bytes' index' = .ok is (index' + size) := by
  induction room generalizing found index index' with
  | zero =>
    cases hrun
    exact ⟨0, rfl, rfl⟩
  | succ room ih =>
    rw [decodeUpTo, position_bind] at hrun ⊢
    by_cases hle : limit ≤ index
    · rw [if_pos hle] at hrun
      rw [if_pos (by omega)]
      exact Shifts.pure _ halike is after hrun
    · rw [if_neg hle] at hrun
      rw [if_neg (by omega)]
      obtain ⟨i, between, hfirst, hrest⟩ := bind_eq_ok.mp hrun
      obtain ⟨size, rfl, hdecode⟩ := (shifts_decode h table).within halike i between hfirst
      obtain ⟨more, rfl, hlast⟩ := ih (halike.add size) (by omega) hrest
      rw [bind_of_ok hdecode, hlast, Nat.add_assoc, Nat.add_assoc]
      exact ⟨size + more, rfl, rfl⟩

/-- The same code units are read alike at two places that are even or odd together. -/
theorem decodeAll_alike {table : OpcodeTable} {count : Nat} {code : Bytes} {bytes bytes' : ByteArray}
    {index index' after : Nat} {is : List Instruction} (hs : code.Stands bytes index)
    (hs' : code.Stands bytes' index') (hlength : code.length = 2 * count)
    (hparity : index % 2 = index' % 2) (hle' : index' ≤ bytes'.size)
    (hrun : decodeAll table s count bytes index = .ok is after) :
    after = index + code.length ∧
      decodeAll table t count bytes' index' = .ok is (index' + code.length) := by
  have hinside := hs'.length_le
  change (if bytes.size < index + 2 * count then _ else _ : Decoder _) bytes index = _ at hrun
  change _ ∧ (if bytes'.size < index' + 2 * count then _ else _ : Decoder _) bytes' index' = _
  rw [← hlength] at hrun ⊢
  split at hrun
  · cases hrun
  next hle =>
    rw [if_neg (by omega)]
    obtain ⟨found, stop, hfound, hlast⟩ := bind_eq_ok.mp hrun
    change (if stop ≠ index + code.length then _ else _ : Decoder _) bytes stop = _ at hlast
    split at hlast
    · cases hlast
    next hstop =>
      obtain rfl := not_ne_iff.mp hstop
      cases hlast
      have hagain : (decodeUpTo table t index' (index' + code.length) count []).upTo
          (index' + code.length) bytes' index' = .ok is (index' + code.length) := by
        unfold upTo at hfound ⊢
        rw [Access.slice_eq_ok (Nat.zero_le _) (by omega)] at hfound ⊢
        obtain ⟨size, hsize, hagain⟩ := decodeUpTo_alike h
          (.of_stands hs hs' (by omega) (by omega) hparity)
          (show index + code.length + index' = index' + code.length + index by omega) hfound
        obtain rfl : size = code.length := by omega
        exact hagain
      refine ⟨rfl, (bind_of_ok hagain).trans ?_⟩
      change (if index' + code.length ≠ index' + code.length then _ else _ : Decoder _) bytes' _ = _
      rw [if_neg (not_ne_iff.mpr rfl)]
      rfl

end

end Instruction

end Dalvik
