import Dalvik.AnnotationItem
import Dalvik.Code.Item
import Dalvik.Debug.Decode
import Dalvik.Debug.OffsetTable
import Dalvik.Header
import Dalvik.HiddenApi
import Dalvik.IdItem
import Dalvik.MapList
import Dalvik.Proofs.Faultless
import Dalvik.Proofs.Instruction.Tables

/-!
# The readers of items are faultless

Strings, values, annotations, debug information, code and the records of fixed size. Those that
refer to ids are faultless if the readers of the ids are. The only sums that may leave their words are
that of the code units of a compact item, and the place of a class among the restrictions.
-/
namespace Dalvik
open Decoder

variable {may : Operation → Prop}

/-! ## Strings -/

namespace Text

theorem findIdx?_bounds {p : UInt8 → Bool} {bytes : ByteArray} {start i : Nat}
    (h : bytes.findIdx? p start = some i) : start ≤ i ∧ i < bytes.size := by
  unfold ByteArray.findIdx? at h
  fun_induction ByteArray.findIdx?.loop with
  | case1 i hlt _ =>
    obtain rfl := Option.some.inj h
    exact ⟨Nat.le_refl _, hlt⟩
  | case2 i hlt _ ih =>
    obtain ⟨hle, hlt⟩ := ih h
    exact ⟨Nat.le_of_succ_le hle, hlt⟩
  | case3 => cases h

@[simp] theorem faultless_decodeStringData : decodeStringData.Faultless may := by
  refine faultless_position.bind fun start => faultless_uleb.bind fun declared => ?_
  refine faultless_position.bind fun first => faultless_input.bind fun bytes => ?_
  split
  next last hlast =>
    -- the zero byte lies inside, and not before the first byte of the string
    obtain ⟨hfirst, hlast⟩ := findIdx?_bounds hlast
    refine (faultless_lift (Access.faultless_slice.mpr ⟨hfirst, Nat.le_of_lt hlast⟩)).bind fun part => ?_
    split <;> simp
  · simp

end Text

/-! ## Values -/

/-- The readers of the ids that a file refers to. -/
structure Source.Faultless (may : Operation → Prop) (s : Source) : Prop where
  string : ∀ i, (s.string i).Faultless may
  type : ∀ i, (s.type i).Faultless may
  proto : ∀ i, (s.proto i).Faultless may
  field : ∀ i, (s.field i).Faultless may
  method : ∀ i, (s.method i).Faultless may
  methodHandle : ∀ i, (s.methodHandle i).Faultless may
  callSite : ∀ i, (s.callSite i).Faultless may

@[simp] theorem Packed.faultless_payload (width : UInt8) : (payload width).Faultless may := by
  simp [payload]

@[simp] theorem faultless_readIndex (width : UInt8) : (readIndex width).Faultless may := by
  simp [readIndex, Packed.readUnsigned]

theorem faultless_counted {α : Type} {item : Decoder α} (h : item.Faultless may) :
    (counted item).Faultless may :=
  faultless_uleb.bind fun n => h.repeated n.toNat

section
variable {s : Source} (hs : s.Faultless may)
include hs

theorem faultless_annotationBody {value : Decoder Value} (h : value.Faultless may) :
    (annotationBody s value).Faultless may := by
  have helement : (elementBody s value).Faultless may :=
    faultless_uleb.bind fun i => (faultless_lift (hs.string i)).bind fun _ => h.bind fun _ => by simp
  exact faultless_uleb.bind fun i => (faultless_lift (hs.type i)).bind fun _ =>
    (faultless_counted helement).bind fun _ => by simp

theorem Value.faultless_decodeNested (room : Nat) : (decodeNested s room).Faultless may := by
  induction room with
  | zero => simp [decodeNested]
  | succ room ih =>
    refine faultless_u1.bind fun first => ?_
    dsimp only
    split <;> simp [Packed.readSigned, Packed.readUnsigned, Packed.readFloat, Packed.readDouble,
      Packed.readRightExtended, hs.proto, hs.methodHandle, hs.string, hs.type, hs.field, hs.method,
      faultless_counted ih, faultless_annotationBody hs ih]

theorem faultless_decodeArray : (decodeArray s).Faultless may :=
  faultless_counted (Value.faultless_decodeNested hs _)

theorem AnnotationItem.faultless_decode : (decode s).Faultless may := by
  have hvisibility (code : UInt8) : (Visibility.ofCode code).Faultless may := by
    unfold Visibility.ofCode
    split <;> simp
  have hvalue : (AnnotationValue.decode s).Faultless may :=
    faultless_annotationBody hs (Value.faultless_decodeNested hs _)
  simp [decode, hvisibility, hvalue]

end

@[simp] theorem faultless_decodeOffsets (kind : OffsetListKind) :
    (decodeOffsets kind).Faultless may :=
  faultless_u4.bind fun _ => faultless_available.bind fun _ => by simp

@[simp] theorem MemberOffset.faultless_decode : MemberOffset.decode.Faultless may := by
  simp [decode]

@[simp] theorem OffsetDirectory.faultless_decode : OffsetDirectory.decode.Faultless may := by
  refine faultless_position.bind fun start => faultless_u4.bind fun classOffset => ?_
  refine faultless_u4.bind fun fields => faultless_u4.bind fun methods => ?_
  refine faultless_u4.bind fun parameters => faultless_available.bind fun room => ?_
  refine faultless_guard fun _ => ?_
  refine (MemberOffset.faultless_decode.repeated _).bind fun _ => ?_
  exact (MemberOffset.faultless_decode.repeated _).bind fun _ => by simp

/-! ## Debug information -/

@[simp] theorem DebugTable.faultless_accumulate (offset : UInt32) (count : Nat) :
    (accumulate offset count).Faultless may := by
  induction count generalizing offset with
  | zero => simp [accumulate]
  | succ n ih => simp [accumulate, ih]

@[simp] theorem faultless_checkIndex (name : String) (index : UInt32) (size : Nat) :
    (checkIndex name index size).Faultless may := by
  unfold checkIndex
  split <;> simp

@[simp] theorem DebugTable.faultless_lookup (table index : Nat) (base : UInt32) (methods : Nat)
    (method : UInt32) : (lookup table index base methods method).Faultless may := by
  refine faultless_ite.mpr ⟨fun _ => faultless_pure 0, fun _ => ?_⟩
  refine (faultless_lift (faultless_checkIndex ..)).bind fun block => ?_
  refine (faultless_seek _).bind fun _ => faultless_u4.bind fun start => ?_
  refine (faultless_seek _).bind fun _ => faultless_u1.bind fun high => faultless_u1.bind fun low => ?_
  simp

theorem faultless_optionalAt {α : Type} {fetch : UInt32 → Result α}
    (h : ∀ i, (fetch i).Faultless may) (index : Int32) : (optionalAt fetch index).Faultless may := by
  unfold optionalAt
  split
  · trivial
  · exact (h _).bind fun _ _ => trivial

section
variable {s : Source} (hs : s.Faultless may)
include hs

theorem DebugItem.faultless_step (m : Machine) (op : UInt8) : (step s m op).Faultless may := by
  have hname : Decoder.Faultless may (do optionalAt s.string (← Decoder.ulebPlusOne)) :=
    faultless_ulebPlusOne.bind fun i => faultless_lift (faultless_optionalAt hs.string i)
  have htype := faultless_optionalAt hs.type
  unfold step
  dsimp only
  split
  case h_3 =>
    exact faultless_uleb.bind fun _ => hname.bind fun _ =>
      faultless_ulebPlusOne.bind fun _ => by simp [htype]
  case h_4 =>
    exact faultless_uleb.bind fun _ => hname.bind fun _ =>
      faultless_ulebPlusOne.bind fun _ => (faultless_lift (htype _)).bind fun _ =>
        hname.bind fun _ => by simp
  case h_9 => exact hname.bind fun _ => by simp
  all_goals simp

theorem DebugItem.faultless_run (room : Nat) (m : Machine) (found : List DebugItem) :
    (run s room m found).Faultless may := by
  induction room generalizing m found with
  | zero => simp [run]
  | succ room ih =>
    refine faultless_u1.bind fun op => faultless_ite.mpr ⟨fun _ => by simp, fun _ => ?_⟩
    exact (faultless_step hs m op).bind fun (items, m) => ih m (items.reverse ++ found)

theorem DebugInfo.faultless_decode : (decode s).Faultless may := by
  have hname : Decoder.Faultless may (do optionalAt s.string (← Decoder.ulebPlusOne)) :=
    faultless_ulebPlusOne.bind fun i => faultless_lift (faultless_optionalAt hs.string i)
  refine faultless_position.bind fun start => faultless_uleb.bind fun lineStart => ?_
  refine faultless_uleb.bind fun count => faultless_available.bind fun room => ?_
  refine faultless_guard fun _ => (hname.repeated _).bind fun parameters => ?_
  exact (faultless_available.bind fun _ => DebugItem.faultless_run hs _ _ _).bind fun _ => by simp

/-! ## Instructions -/

namespace Instruction

theorem faultless_resolve (kind : ReferenceKind) (index : UInt32) :
    (resolve s kind index).Faultless may := by
  cases kind with
  | none => simp [resolve]
  | string => exact (hs.string _).bind fun _ _ => trivial
  | type => exact (hs.type _).bind fun _ _ => trivial
  | field => exact (hs.field _).bind fun _ _ => trivial
  | method => exact (hs.method _).bind fun _ _ => trivial
  | proto => exact (hs.proto _).bind fun _ _ => trivial
  | callSite => exact (hs.callSite _).bind fun _ _ => trivial
  | methodHandle => exact (hs.methodHandle _).bind fun _ _ => trivial
  | raw => trivial

omit hs in
theorem faultless_unpackRegisters (o : Opcode) (count g fedc : Nat) :
    (unpackRegisters o count g fedc).Faultless may := by
  unfold unpackRegisters
  dsimp only
  split
  · simp
  next h =>
    -- there are five registers
    have hcount : count ≤ 5 := Nat.not_lt.mp h
    exact (Access.faultless_range.mpr ⟨Nat.zero_le count, hcount⟩).bind fun _ _ => trivial

omit hs in
@[simp] theorem faultless_unit : unit.Faultless may := by simp [unit]

omit hs in
@[simp] theorem faultless_unitPair : unitPair.Faultless may := by simp [unitPair]

omit hs in
@[simp] theorem faultless_word : word.Faultless may := by simp [word]

omit hs in
/-- A number fits a word of eight bytes. -/
theorem faultless_element {width : Nat} (h : width ≤ 8) : (element width).Faultless may := by
  have hrange := Access.range_eq_ok (Nat.zero_le width) h
  refine (faultless_raw width).bind fun chunk => (faultless_lift ?_).bind fun _ => faultless_pure _
  rw [hrange]
  trivial

omit hs in
/-- The elements of an array behind their width. Their number has been read, so that the cursor is
inside, and they are taken only if they are all there. -/
theorem faultless_elements (width : UInt16) : Decoder.Faultless may (do
    let count := (← Decoder.u4).toNat
    if width ∉ elementWidths then Decoder.fail (.elementWidth width.toNat)
    if (← Decoder.available) < count * width.toNat then Decoder.fail (.arrayPayloadSize count)
    let start ← Decoder.position
    let after := start + count * width.toNat
    let payload ← Access.slice (← Decoder.input) start after
    let elements ← ((element width.toNat).repeated count).valueAt payload 0
    Decoder.seek (after + after % 2)
    return Operands.arrayPayload width elements) := by
  intro bytes index
  refine faultless_bind_at (faultless_u4 bytes index) fun count start hcount => ?_
  have hstart := (after_of_u4 hcount).2
  dsimp only
  split
  · exact faultless_fail_bind _ _ _
  next hwidth =>
    have hwide : width.toNat ≤ 8 := by
      have := toNat_elementWidth (not_not.mp hwidth)
      omega
    change (valueAt (if bytes.size - start < count.toNat * width.toNat then _ else _) bytes
      start).Faultless may
    split
    · exact faultless_fail_bind _ _ _
    next hroom =>
      have hslice : (Access.slice bytes start (start + count.toNat * width.toNat)).Faultless may :=
        Access.faultless_slice.mpr ⟨Nat.le_add_right _ _, by omega⟩
      have helements (payload : ByteArray) :
          (((element width.toNat).repeated count.toNat).valueAt payload 0).Faultless may :=
        (faultless_element hwide).repeated _ payload 0
      exact (faultless_lift hslice).bind (fun payload =>
        (faultless_lift (helements payload)).bind fun _ => by simp) bytes start

theorem faultless_decodeOperands (o : Opcode) (argument : Nat) :
    (decodeOperands s o argument).Faultless may := by
  have hnone : Decoder.Faultless may (if argument = 0 then pure ()
      else Decoder.fail (.nonzeroArgument o.name argument)) := by simp
  have hresolve := faultless_resolve hs
  have hindex : Decoder.Faultless may (do return UInt32.ofNat (← unit)) := by simp
  have hregisters (fedc : Nat) :
      (unpackRegisters o (argument / 16) (argument % 16) fedc).Faultless may :=
    faultless_unpackRegisters o _ _ fedc
  unfold decodeOperands
  cases o.format with
  | f35c =>
    exact hindex.bind fun _ => faultless_unit.bind fun fedc =>
      (faultless_lift (hregisters fedc)).bind fun _ => by simp [hresolve]
  | f45cc =>
    exact hindex.bind fun _ => faultless_unit.bind fun fedc => hindex.bind fun _ =>
      (faultless_lift (hregisters fedc)).bind fun _ => by simp [hresolve]
  | f4rcc =>
    exact hindex.bind fun _ => faultless_u2.bind fun _ => hindex.bind fun _ => by simp [hresolve]
  | packedSwitchPayload =>
    exact (hnone.bind fun _ => faultless_unit).bind fun _ => by simp
  | sparseSwitchPayload =>
    exact (hnone.bind fun _ => faultless_unit).bind fun _ => by simp
  | arrayPayload => exact hnone.bind fun _ => faultless_u2.bind faultless_elements
  | _ => simp [hresolve, signedUnit]

theorem faultless_decode (table : OpcodeTable) : (decode table s).Faultless may := by
  refine faultless_unit.bind fun first => (faultless_lift ?_).bind fun o => ?_
  · unfold OpcodeTable.opcode
    split <;> simp
  · exact (faultless_decodeOperands hs o _).bind fun _ => by simp

theorem faultless_decodeUpTo (table : OpcodeTable) (start limit room : Nat)
    (found : List Instruction) : (decodeUpTo table s start limit room found).Faultless may := by
  induction room generalizing found with
  | zero => simp [decodeUpTo]
  | succ room ih =>
    refine faultless_position.bind fun position => faultless_ite.mpr ⟨fun _ => by simp, fun _ => ?_⟩
    exact (faultless_within.mpr (faultless_decode hs table)).bind fun i => ih (i :: found)

/-- The instructions are read from the slice that ends with them, which has been checked to lie
inside. -/
theorem faultless_decodeAll (table : OpcodeTable) (count : Nat) :
    (decodeAll table s count).Faultless may := by
  refine faultless_position.bind fun start bytes index => ?_
  change (valueAt (if bytes.size < start + 2 * count then _ else _) bytes index).Faultless may
  split
  · exact faultless_fail_bind _ _ _
  next hsize =>
    refine faultless_bind_at ?_ fun instructions after _ => ?_
    · have hslice := Access.slice_eq_ok (Nat.zero_le _) (Nat.not_lt.mp hsize)
      have hrun := faultless_decodeUpTo hs table start (start + 2 * count) count []
        (bytes.extract 0 (start + 2 * count)) index
      unfold valueAt upTo at *
      rw [hslice]
      exact hrun
    · exact faultless_position.bind (fun after => faultless_guard fun _ => faultless_pure _) bytes after

end Instruction

/-! ## Code items -/

omit hs in
@[simp] theorem CodeHeader.faultless_unitBefore (place : Nat) : (unitBefore place).Faultless may := by
  refine faultless_guard fun _ => faultless_position.bind fun after => ?_
  exact (faultless_seek _).bind fun _ => faultless_u2.bind fun _ => by simp

omit hs in
@[simp] theorem CodeHeader.faultless_extended (flags flag place count : Nat) :
    (extended flags flag place count).Faultless may := by
  simp [extended]

omit hs in
theorem CodeHeader.faultless_extendedUnits (hadd : may .add) (flags place : Nat) (count : UInt32) :
    (extendedUnits flags place count).Faultless may := by
  refine faultless_ite.mpr ⟨fun _ => ?_, fun _ => by simp⟩
  have hsum (b : UInt32) : (Arithmetic.add32 count b).Faultless may :=
    Arithmetic.faultless_add32.mpr fun _ => hadd
  refine (faultless_unitBefore _).bind fun low => (faultless_unitBefore _).bind fun high => ?_
  simp [hsum]

omit hs in
theorem CodeHeader.faultless_walk_at {fields flags start : Nat} {bytes : ByteArray} {index : Nat}
    (h : ((extendedUnits flags start (UInt32.ofNat (flags >>> flagBits))).valueAt bytes
      index).Faultless may) : ((walk fields flags start).valueAt bytes index).Faultless may := by
  refine faultless_bind_at h fun (_, _) after _ => ?_
  refine (faultless_extended _ _ _ _).bind (fun (_, _) => ?_) bytes after
  refine (faultless_extended _ _ _ _).bind fun (_, _) => ?_
  refine (faultless_extended _ _ _ _).bind fun (_, _) => ?_
  exact (faultless_extended _ _ _ _).bind fun (_, _) => faultless_pure _

omit hs in
theorem CodeHeader.faultless_walk (hadd : may .add) (fields flags start : Nat) :
    (walk fields flags start).Faultless may :=
  fun bytes index => faultless_walk_at (faultless_extendedUnits hadd _ _ _ bytes index)

omit hs in
theorem CodeHeader.faultless_decodeCompact (hadd : may .add) : decodeCompact.Faultless may := by
  refine faultless_position.bind fun start => faultless_u2.bind fun fields => ?_
  refine faultless_u2.bind fun flags => (faultless_walk hadd _ _ _).bind fun (_, _, _) => ?_
  exact faultless_guard fun _ => faultless_pure _

omit hs in
theorem CodeHeader.faultless_decode : decode.Faultless may := by
  refine faultless_u2.bind fun registers => faultless_u2.bind fun incoming => ?_
  refine faultless_u2.bind fun outgoing => faultless_u2.bind fun tries => ?_
  simp

theorem CatchHandler.faultless_decode : (decode s).Faultless may := by
  have hhandler : Decoder.Faultless may (do
      let type ← s.type (← Decoder.uleb)
      return ExceptionHandler.mk type (← Decoder.uleb)) :=
    faultless_uleb.bind fun i => (faultless_lift (hs.type i)).bind fun _ => by simp
  refine faultless_sleb.bind fun size => faultless_available.bind fun room => ?_
  refine faultless_guard fun _ => (hhandler.repeated _).bind fun handlers => ?_
  simp

omit hs in
theorem TryBlock.faultless_decode (handlers : List (Nat × CatchHandler)) :
    (decode handlers).Faultless may := by
  refine faultless_u4.bind fun start => faultless_u2.bind fun units => faultless_u2.bind fun _ => ?_
  dsimp only
  split <;> simp

theorem TryBlock.faultless_decodeAll (item count : Nat) : (decodeAll s item count).Faultless may := by
  have hhandler (base : Nat) : Decoder.Faultless may (do
      return ((← Decoder.position) - base, ← CatchHandler.decode s)) :=
    faultless_position.bind fun _ => by simp [CatchHandler.faultless_decode hs]
  refine faultless_ite.mpr ⟨fun _ => by simp, fun _ => faultless_position.bind fun place => ?_⟩
  refine (faultless_seek _).bind fun _ => faultless_uleb.bind fun handlerCount => ?_
  refine faultless_available.bind fun room => faultless_guard fun _ => ?_
  refine ((hhandler _).repeated _).bind fun handlers => faultless_position.bind fun after => ?_
  refine (faultless_seek _).bind fun _ => ((faultless_decode handlers).repeated _).bind fun _ => ?_
  simp

/-- Behind its header an item is read without a fault. -/
theorem CodeItem.faultless_decode_at {compact : Bool} {table : OpcodeTable} {bytes : ByteArray}
    {index : Nat} (h : compact → (CodeHeader.decodeCompact.valueAt bytes index).Faultless may) :
    ((decode compact table s).valueAt bytes index).Faultless may := by
  have hrest (start : Nat) (h : CodeHeader) : Decoder.Faultless may (do
      let instructions ← Instruction.decodeAll table s h.units.toNat
      return CodeItem.mk h.registers h.incoming h.outgoing h.debugOffset instructions
        (← TryBlock.decodeAll s start h.tries)) :=
    (Instruction.faultless_decodeAll hs table _).bind fun _ => by
      simp [TryBlock.faultless_decodeAll hs]
  refine faultless_bind_at (faultless_position bytes index) fun start after hstart => ?_
  cases hstart
  split
  next hcompact => exact faultless_bind_at (h hcompact) fun h after _ => hrest index h bytes after
  · exact CodeHeader.faultless_decode.bind (hrest index) bytes index

theorem CodeItem.faultless_decode {compact : Bool} (hadd : compact → may .add) (table : OpcodeTable) :
    (decode compact table s).Faultless may :=
  fun bytes index => faultless_decode_at hs fun hcompact =>
    CodeHeader.faultless_decodeCompact (hadd hcompact) bytes index

end

/-! ## Records of fixed size -/

@[simp] theorem Extent.faultless_decode : Extent.decode.Faultless may := by simp [decode]

@[simp] theorem Header.faultless_decode (v : Version) : (Header.decode v).Faultless may := by
  have hcompact : decodeCompactFields.Faultless may := by
    refine faultless_u4.bind fun _ => faultless_u4.bind fun _ => faultless_u4.bind fun _ => ?_
    exact faultless_u4.bind fun _ => faultless_u4.bind fun _ => by simp
  have hcontainer : decodeContainerFields.Faultless may := faultless_u4.bind fun _ => by simp
  refine (faultless_raw _).bind fun _ => faultless_u4.bind fun _ => (faultless_raw _).bind fun _ => ?_
  refine faultless_u4.bind fun _ => faultless_u4.bind fun _ => faultless_u4.bind fun _ => ?_
  refine Extent.faultless_decode.bind fun _ => faultless_u4.bind fun _ => ?_
  refine Extent.faultless_decode.bind fun _ => Extent.faultless_decode.bind fun _ => ?_
  refine Extent.faultless_decode.bind fun _ => Extent.faultless_decode.bind fun _ => ?_
  refine Extent.faultless_decode.bind fun _ => Extent.faultless_decode.bind fun _ => ?_
  refine Extent.faultless_decode.bind fun _ => ?_
  refine faultless_ite_bind (faultless_map.mpr hcompact) (faultless_pure none) fun _ => ?_
  refine faultless_ite_bind (faultless_map.mpr hcontainer) (faultless_pure none) fun _ => ?_
  exact faultless_pure _

@[simp] theorem MapItem.faultless_decode : MapItem.decode.Faultless may := by
  refine faultless_u2.bind fun _ => faultless_u2.bind fun _ => ?_
  simp

theorem MapItem.faultless_decodeList : decodeList.Faultless may := by
  refine faultless_u4.bind fun size => faultless_input.bind fun bytes => faultless_guard fun _ => ?_
  exact MapItem.faultless_decode.repeated _

namespace IdItem

@[simp] theorem Proto.faultless_decode : Proto.decode.Faultless may := by
  simp [Proto.decode]

@[simp] theorem Member.faultless_decode : Member.decode.Faultless may := by
  simp [Member.decode]

@[simp] theorem Handle.faultless_decode : Handle.decode.Faultless may := by
  simp [Handle.decode]

@[simp] theorem Class.faultless_decode : Class.decode.Faultless may := by
  refine faultless_u4.bind fun _ => faultless_u4.bind fun _ => faultless_u4.bind fun _ => ?_
  refine faultless_u4.bind fun _ => faultless_u4.bind fun _ => faultless_u4.bind fun _ => ?_
  simp

end IdItem

/-! ## Restrictions -/

namespace HiddenApi

/-- The entry of a class can be found without a fault, if a place behind it is one, or if multiplying
and adding may leave their words. -/
theorem faultless_locate {start index : Nat}
    (h : start + 4 + 4 * index + 4 < 2 ^ 64 ∨ may .multiply ∧ may .add) :
    (locate start index).Faultless may := by
  refine faultless_ite.mpr ⟨fun _ => by simp, fun _ => (faultless_seek _).bind fun _ => ?_⟩
  refine faultless_u4.bind fun size => ?_
  have hmay {n : Nat} (hn : n ≤ start + 4 + 4 * index + 4) (hlarge : 2 ^ 64 ≤ n) :
      may .multiply ∧ may .add := h.resolve_left (by omega)
  refine faultless_size_bind (fun hlarge => (hmay (by omega) hlarge).1) ?_
  refine faultless_size_bind (fun hlarge => (hmay (by omega) hlarge).2) ?_
  refine faultless_size_bind (fun hlarge => (hmay (by omega) hlarge).2) ?_
  refine faultless_guard fun _ => ?_
  simp

theorem faultless_next (bytes : ByteArray) (place : Option Nat) :
    (next bytes place).Faultless may := by
  cases place with
  | none => trivial
  | some place => exact (faultless_uleb.decodeAt bytes place).bind fun _ _ => trivial

end HiddenApi

end Dalvik
