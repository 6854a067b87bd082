import Dalvik.File.Source
import Dalvik.Proofs.File.Container
import Dalvik.Proofs.Text.ModifiedUtf8
import Dalvik.Proofs.Value.RoundTrip

/-!
# An opened file gives the entries of its pools

The tables of a file refer to each other by index, as resolving gave it, and to the data by offset.
So each entry is read from entries that are read already: strings first, call sites last.
-/
namespace Dalvik
open Result

/-- A call site as it is read at an index. -/
def CallSite.readAt (index : Nat) (s : CallSite) : CallSite :=
  { s with name := nameOf index, arguments := s.arguments.map Value.sorted }

/-- A call site that has been read once changes nothing but its name. -/
theorem CallSite.readAt_readAt (s : CallSite) (i j : Nat) :
    (s.readAt i).readAt j = { s.readAt i with name := nameOf j } := by
  have hsorted : (s.arguments.map Value.sorted).map Value.sorted = s.arguments.map Value.sorted := by
    rw [List.map_map]
    exact List.map_congr_left fun v _ => v.sorted_sorted
  simp only [readAt, hsorted]

/-- A call site as it is read at its own index. -/
def Contents.readSite (c : Contents) (s : CallSite) : CallSite :=
  match c.pools.callSites.id? s with
  | some index => s.readAt index
  | none => s

theorem Contents.short_of_ofDex {o : WriteOptions} {d : Dex} {c : Contents} (h : ofDex o d = .ok c) :
    c.pools.Short := by
  obtain ⟨_, -, h⟩ := bind_eq_ok.mp h
  obtain ⟨_, -, h⟩ := bind_eq_ok.mp h
  obtain ⟨_, hpools, h⟩ := bind_eq_ok.mp h
  obtain rfl := pure_eq_ok.mp h
  exact Pools.short_of_build hpools

namespace DexFile

variable {α β : Type} {f : DexFile} {o : WriteOptions} {c : Contents} {d : Contents.Data}
  {ids : IdSection} {name : String} {encode : α → Result Bytes} {items : List α} {dec : Decoder β}
  {index : UInt32} {a : α} {b : β}

/-! ## Items of fixed size -/

theorem item_eq (hs : ids.Shows name f.bytes encode items) (ha : items[index.toNat]? = some a)
    (hread : ∀ part place, encode a = .ok part → part.Stands f.bytes place →
      dec.valueAt f.bytes place = .ok b) : f.item ids dec index = .ok b := by
  obtain ⟨part, hpart, hstands⟩ := hs.stands _ _ ha
  have hlt : index.toNat < ids.size := by
    rw [hs.size]
    exact (List.getElem?_eq_some_iff.mp ha).1
  have hplace : ids.position index =
      .ok (ids.offset + index.toNat * ids.itemSize) := by
    rw [IdSection.position, checkIndex, if_pos hlt]
    rfl
  rw [item, hplace, ok_bind, Access.entry, if_pos hlt]
  exact hread _ _ hpart hstands

/-- An item that is read is one of those in the section. -/
theorem lt_of_item (h : f.item ids dec index = .ok b) : index.toNat < ids.size := by
  obtain ⟨position, -, h⟩ := bind_eq_ok.mp h
  obtain ⟨_, hentry, -⟩ := bind_eq_ok.mp h
  unfold Access.entry at hentry
  split at hentry
  next hlt => exact hlt
  · cases hentry

/-- An index behind the last item is refused. -/
theorem item_eq_error (hs : ids.Shows name f.bytes encode items)
    (hi : items.length ≤ index.toNat) :
    f.item ids dec index = .error (.ofCause (.bounds name index.toNat items.length)) := by
  rw [← hs.size] at hi
  rw [item, IdSection.position, checkIndex, if_neg (Nat.not_lt.mpr hi), hs.name_eq, hs.size]
  rfl

/-- What reads every entry of a pool at its index, and nothing behind the last one, fetches from it. -/
theorem eq_fetch {α : Type} [BEq α] [LawfulBEq α] [Hashable α] {set : ItemSet α} {kind : PoolKind}
    {read : UInt32 → Result α}
    (hin : ∀ (i : UInt32) a, set.toList[i.toNat]? = some a → read i = .ok a)
    (hout : ∀ i : UInt32, set.toList.length ≤ i.toNat →
      read i = .error (.ofCause (.bounds kind.name i.toNat set.toList.length))) :
    read = Pools.fetch set kind := by
  funext i
  unfold Pools.fetch
  cases hget : set.get? i.toNat with
  | some a => exact hin i a (by rw [ItemSet.getElem?_toList, hget])
  | none =>
    have hlen : set.toList.length ≤ i.toNat := by
      rw [← List.getElem?_eq_none_iff, ItemSet.getElem?_toList, hget]
    rw [hout i hlen, ItemSet.length_toList]

/-- An item that is written in a form of its own is read back in it. -/
theorem exists_item {γ : Type} {form : α → Result γ} {bytes : γ → Bytes} {dec : Decoder γ}
    (hs : ids.Shows name f.bytes (fun a => bytes <$> form a) items)
    (hread : ∀ x place, (bytes x).Stands f.bytes place → dec.valueAt f.bytes place = .ok x)
    (ha : items[index.toNat]? = some a) : ∃ x, form a = .ok x ∧ f.item ids dec index = .ok x := by
  obtain ⟨part, hpart, -⟩ := hs.stands _ _ ha
  obtain ⟨x, hx, -⟩ := map_eq_ok.mp hpart
  refine ⟨x, hx, item_eq hs ha fun part place hpart hstands => ?_⟩
  rw [hx] at hpart
  cases hpart
  exact hread x place hstands

theorem exists_word {word : α → Result UInt32}
    (hs : ids.Shows name f.bytes (fun a => return Bytes.u4 (← word a)) items)
    (ha : items[index.toNat]? = some a) :
    ∃ w, word a = .ok w ∧ f.item ids Decoder.u4 index = .ok w := by
  have heq : (fun a => return Bytes.u4 (← word a) : α → Result Bytes) =
      fun a => Bytes.u4 <$> word a := rfl
  rw [heq] at hs
  exact exists_item hs (fun x _ hstands => (Decoder.u4_reads x).valueAt hstands) ha

/-! ## Strings and types -/

section
variable (h : f.Holds o c d)
include h

theorem strings_le : c.pools.strings.size ≤ UInt32.size := by
  have := h.stringCount
  omega

theorem string_eq {s : String} (hs : c.pools.strings.toList[index.toNat]? = some s) :
    f.string index = .ok s := by
  obtain ⟨p, b, hp, hb, hstands, hle⟩ := h.data.strings _ _ hs
  have hsmall := h.small
  have hnat : (UInt32.ofNat p.offset).toNat = p.offset := UInt32.toNat_ofNat_of_lt' (by omega)
  obtain rfl := pure_eq_ok.mp hb
  have hinside := hstands.length_le
  have hitem : f.item f.strings Decoder.u4 index = .ok (UInt32.ofNat p.offset) :=
    item_eq h.strings hp fun part place hpart hstands => by
      obtain rfl := pure_eq_ok.mp hpart
      exact (Decoder.u4_reads _).valueAt hstands
  rw [string, hitem, ok_bind, hnat, (Text.decodeStringData_reads (by omega)).valueAt hstands]
  rfl

theorem string_eq_fetch : f.string = Pools.fetch c.pools.strings .string := by
  refine eq_fetch (fun i s hs => string_eq h hs) fun i hi => ?_
  have hlen : d.strings.items.length = c.pools.strings.toList.length := by
    rw [h.stringItems, ItemSet.length_toList]
  rw [string, item_eq_error h.strings (by rwa [hlen]), hlen]
  rfl

/-- A string is read at the index that it has in the pool. -/
theorem string_of_lookup {s : String} (hs : c.resolver.string s = .ok index) :
    f.string index = .ok s :=
  string_eq h (Pools.getElem?_of_lookup (strings_le h) hs)

theorem type_eq {t : TypeId} (ht : c.pools.types.toList[index.toNat]? = some t) :
    f.type index = .ok t := by
  obtain ⟨w, hw, hitem⟩ := exists_word h.types ht
  rw [type, hitem, ok_bind, string_of_lookup h hw]
  rfl

theorem type_eq_fetch : f.type = Pools.fetch c.pools.types .type := by
  refine eq_fetch (fun i t ht => type_eq h ht) fun i hi => ?_
  rw [type, item_eq_error h.types hi]
  rfl

end

end DexFile

namespace Pools

/-- An index of 16 bits is not changed by being stored with as many. -/
theorem toUInt32_toUInt16_of_lookup {α : Type} [BEq α] [Hashable α] {cmp : α → α → Ordering}
    [Std.LawfulEqCmp cmp] {set : ItemSet α} {kind : PoolKind} {text : String} {a : α} {i : UInt32}
    (hsize : set.size ≤ maxSize) (h : lookup cmp set kind text a = .ok i) :
    i.toUInt16.toUInt32 = i := by
  have hlt := toNat_lt_of_lookup (Nat.le_trans hsize (by decide)) h
  have hmax : maxSize = 65536 := rfl
  apply UInt32.toNat_inj.mp
  simp
  omega

end Pools

namespace DexFile
section
variable {f : DexFile} {o : WriteOptions} {c : Contents} {d : Contents.Data} {index : UInt32}
  (h : f.Holds o c d) (hp : c.pools.Short)
include h hp

theorem type_of_lookup {t : TypeId} (ht : c.resolver.type t = .ok index) :
    f.type index = .ok t :=
  type_eq h (Pools.getElem?_of_lookup (Nat.le_trans hp.types (by decide)) ht)

/-- Types are stored with 16 bits where they come in numbers. -/
theorem short_type_of_lookup {t : TypeId} (ht : c.resolver.type t = .ok index) :
    f.type index.toUInt16.toUInt32 = .ok t := by
  rw [Pools.toUInt32_toUInt16_of_lookup hp.types ht, type_of_lookup h hp ht]

theorem decodeTypes_reads {types : List TypeId} {part : Bytes}
    (hpart : Contents.encodeTypeList c.resolver types = .ok part)
    (hl : part.length < UInt32.size) : f.decodeTypes.Reads part types := by
  obtain ⟨indices, hindices, hpart⟩ := bind_eq_ok.mp hpart
  obtain rfl := pure_eq_ok.mp hpart
  have heach := mapM_eq_ok.mp hindices
  have hlength : (indices.flatMap (Bytes.u2 ·.toUInt16)).length = indices.length * 2 := by
    simp [List.length_flatMap]
  have hread : List.Forall₂ (do f.type (← Decoder.u2).toUInt32 : Decoder TypeId).Reads
      (indices.map (Bytes.u2 ·.toUInt16)) types := by
    rw [List.forall₂_map_left_iff]
    refine heach.flip.imp fun i t ht => ?_
    exact (Decoder.u2_reads i.toUInt16).bind_last (.ofResult (short_type_of_lookup h hp ht))
  rw [List.length_append, hlength] at hl
  have hnat : (UInt32.ofNat indices.length).toNat = types.length := by
    rw [UInt32.toNat_ofNat_of_lt' (by omega), heach.length_eq]
  apply Decoder.Reads.position
  intro start
  apply (Decoder.u4_reads _).bind
  apply Decoder.Reads.available
  intro room hroom
  rw [hlength, ← heach.length_eq] at hroom
  rw [hnat, if_neg (by omega), List.flatMap_def]
  exact Decoder.Reads.repeated hread

theorem typeList_eq {types : List TypeId} {offset : UInt32} {what : String}
    (ho : d.typeLists.offset what (c.items.typeLists.id? types) = .ok offset) :
    f.typeList offset = .ok types := by
  obtain ⟨hne, part, hpart, hstands⟩ := h.data.typeLists.of_offset_id h.small ho
  have hsmall := h.small
  have hinside := hstands.length_le
  rw [typeList, if_neg hne]
  exact (decodeTypes_reads h hp hpart (by omega)).valueAt hstands

/-! ## Prototypes and members -/

theorem proto_eq {p : ProtoId} (hin : c.pools.protos.toList[index.toNat]? = some p) :
    f.proto index = .ok p := by
  obtain ⟨item, hitem, hread⟩ := exists_item h.protos
    (fun x _ hstands => (IdItem.Proto.decode_reads x).valueAt hstands) hin
  obtain ⟨shorty, -, hitem⟩ := bind_eq_ok.mp hitem
  obtain ⟨returnType, hreturn, hitem⟩ := bind_eq_ok.mp hitem
  obtain ⟨parameters, htypes, rfl⟩ : ∃ parameters, f.typeList parameters = .ok p.parameters ∧
      item = ⟨shorty, returnType, parameters⟩ := by
    dsimp only at hitem
    split at hitem
    next hempty =>
      rw [List.isEmpty_iff.mp hempty]
      exact ⟨0, rfl, (pure_eq_ok.mp hitem).symm⟩
    next =>
      obtain ⟨offset, hoffset, hitem⟩ := bind_eq_ok.mp hitem
      exact ⟨offset, typeList_eq h hp hoffset, (pure_eq_ok.mp hitem).symm⟩
  rw [proto, hread, ok_bind, type_of_lookup h hp hreturn, ok_bind, htypes]
  rfl

theorem proto_eq_fetch : f.proto = Pools.fetch c.pools.protos .proto := by
  refine eq_fetch (fun i p hin => proto_eq h hp hin) fun i hi => ?_
  rw [proto, item_eq_error h.protos hi]
  rfl

theorem proto_of_lookup {p : ProtoId} (hin : c.resolver.proto p = .ok index) :
    f.proto index = .ok p :=
  proto_eq h hp (Pools.getElem?_of_lookup (Nat.le_trans hp.protos (by decide)) hin)

theorem field_eq {x : FieldId} (hin : c.pools.fields.toList[index.toNat]? = some x) :
    f.field index = .ok x := by
  obtain ⟨item, hitem, hread⟩ := exists_item h.fields
    (fun x _ hstands => (IdItem.Member.decode_reads x).valueAt hstands) hin
  obtain ⟨declaringClass, hclass, hitem⟩ := bind_eq_ok.mp hitem
  obtain ⟨type, htype, hitem⟩ := bind_eq_ok.mp hitem
  obtain ⟨name, hname, hitem⟩ := bind_eq_ok.mp hitem
  obtain rfl := pure_eq_ok.mp hitem
  rw [field, hread, ok_bind, short_type_of_lookup h hp hclass, ok_bind,
    short_type_of_lookup h hp htype, ok_bind, string_of_lookup h hname]
  rfl

theorem field_eq_fetch : f.field = Pools.fetch c.pools.fields .field := by
  refine eq_fetch (fun i x hin => field_eq h hp hin) fun i hi => ?_
  rw [field, item_eq_error h.fields hi]
  rfl

theorem field_of_lookup {x : FieldId} (hin : c.resolver.field x = .ok index) :
    f.field index = .ok x :=
  field_eq h hp (Pools.getElem?_of_lookup (Nat.le_trans hp.fields (by decide)) hin)

theorem method_eq {m : MethodId} (hin : c.pools.methods.toList[index.toNat]? = some m) :
    f.method index = .ok m := by
  obtain ⟨item, hitem, hread⟩ := exists_item h.methods
    (fun x _ hstands => (IdItem.Member.decode_reads x).valueAt hstands) hin
  obtain ⟨declaringClass, hclass, hitem⟩ := bind_eq_ok.mp hitem
  obtain ⟨proto, hproto, hitem⟩ := bind_eq_ok.mp hitem
  obtain ⟨name, hname, hitem⟩ := bind_eq_ok.mp hitem
  obtain rfl := pure_eq_ok.mp hitem
  have hproto : f.proto proto.toUInt16.toUInt32 = .ok m.proto := by
    rw [Pools.toUInt32_toUInt16_of_lookup hp.protos hproto, proto_of_lookup h hp hproto]
  rw [method, hread, ok_bind, short_type_of_lookup h hp hclass, ok_bind, hproto, ok_bind,
    string_of_lookup h hname]
  rfl

theorem method_eq_fetch : f.method = Pools.fetch c.pools.methods .method := by
  refine eq_fetch (fun i m hin => method_eq h hp hin) fun i hi => ?_
  rw [method, item_eq_error h.methods hi]
  rfl

theorem method_of_lookup {m : MethodId} (hin : c.resolver.method m = .ok index) :
    f.method index = .ok m :=
  method_eq h hp (Pools.getElem?_of_lookup (Nat.le_trans hp.methods (by decide)) hin)

/-! ## Method handles -/

theorem methodHandle_eq {m : MethodHandle}
    (hin : c.pools.methodHandles.toList[index.toNat]? = some m) (hm : m.IsConsistent) :
    f.methodHandle index = .ok m := by
  obtain ⟨item, hitem, hread⟩ := exists_item h.methodHandles
    (fun x _ hstands => IdItem.Handle.decode_eq x hstands) hin
  obtain ⟨kind, member⟩ := m
  cases member with
  | field x =>
    obtain ⟨i, hi, hitem⟩ := bind_eq_ok.mp hitem
    obtain rfl := pure_eq_ok.mp hitem
    have hkind : kind.isMethodAccess = false := hm
    rw [methodHandle, hread, ok_bind, HandleKind.ofCode_code, ok_bind]
    simp only [hkind, Bool.false_eq_true, if_false]
    rw [Pools.toUInt32_toUInt16_of_lookup hp.fields hi, field_of_lookup h hp hi]
    rfl
  | method x =>
    obtain ⟨i, hi, hitem⟩ := bind_eq_ok.mp hitem
    obtain rfl := pure_eq_ok.mp hitem
    have hkind : kind.isMethodAccess = true := hm
    rw [methodHandle, hread, ok_bind, HandleKind.ofCode_code, ok_bind]
    simp only [hkind, if_true]
    rw [Pools.toUInt32_toUInt16_of_lookup hp.methods hi, method_of_lookup h hp hi]
    rfl

variable (hm : ∀ m ∈ c.pools.methodHandles.toList, m.IsConsistent)
include hm

theorem methodHandle_eq_fetch :
    f.methodHandle = Pools.fetch c.pools.methodHandles .methodHandle := by
  refine eq_fetch (fun i m hin => methodHandle_eq h hp hin (hm m (List.mem_of_getElem? hin)))
    fun i hi => ?_
  rw [methodHandle, item_eq_error h.methodHandles hi]
  rfl

theorem methodHandle_of_lookup {m : MethodHandle} (hin : c.resolver.methodHandle m = .ok index) :
    f.methodHandle index = .ok m := by
  have hget := Pools.getElem?_of_lookup (Nat.le_trans hp.methodHandles (by decide)) hin
  exact methodHandle_eq h hp hget (hm m (List.mem_of_getElem? hget))

/-! ## Call sites -/

theorem valueSource_inverse : c.resolver.InverseOnValues f.valueSource where
  string := string_of_lookup h
  type := type_of_lookup h hp
  proto := proto_of_lookup h hp
  field := field_of_lookup h hp
  method := method_of_lookup h hp
  methodHandle := methodHandle_of_lookup h hp hm

variable (hn : c.Shallow)
include hn

omit hp hm in
/-- A list of values is read in its sorted form at the offset that is stored for it. -/
theorem encodedArray_eq {s : Source} (hrs : c.resolver.InverseOnValues s) {values : List Value}
    {offset : UInt32} {what : String}
    (ho : d.encodedArrays.offset what (c.items.encodedArrays.id? values) = .ok offset) :
    offset ≠ 0 ∧ (decodeArray s).valueAt f.data offset.toNat = .ok (Value.sortedAll values) := by
  obtain ⟨hne, part, hpart, hstands⟩ := h.data.encodedArrays.of_offset_id h.small ho
  have hsmall := h.small
  have hinside := hstands.length_le
  have hmem := DataSection.mem_of_offset_id ho
  have hread := decodeArray_reads_of_length hrs (hn.encodedArrays values hmem) hpart (by omega)
  exact ⟨hne, hread.valueAt hstands⟩

/-- A call site has its name from its index, and the annotations among its arguments are sorted. -/
theorem callSite_eq {s : CallSite} (hin : c.pools.callSites.toList[index.toNat]? = some s) :
    f.callSite index = .ok (s.readAt index.toNat) := by
  obtain ⟨offset, hoffset, hread⟩ := exists_word h.callSites hin
  obtain ⟨-, hvalues⟩ := encodedArray_eq h hn (valueSource_inverse h hp hm) hoffset
  have hsorted : Value.sortedAll s.toValues =
      { s with arguments := s.arguments.map Value.sorted }.toValues := by
    rw [← Value.sortedAll_eq_map]
    rfl
  rw [callSite, hread, ok_bind, hvalues, hsorted]
  exact CallSite.ofValues_toValues _ _

theorem callSite_eq_fetch (i : UInt32) :
    f.callSite i = CallSite.readAt i.toNat <$> Pools.fetch c.pools.callSites .callSite i := by
  unfold Pools.fetch
  cases hget : c.pools.callSites.get? i.toNat with
  | some s => exact callSite_eq h hp hm hn (by rw [ItemSet.getElem?_toList, hget])
  | none =>
    have hlen : c.pools.callSites.toList.length ≤ i.toNat := by
      rw [← List.getElem?_eq_none_iff, ItemSet.getElem?_toList, hget]
    rw [callSite, item_eq_error h.callSites hlen, ItemSet.length_toList]
    rfl

/-- Every index that resolving gives leads back to its entry in the file. -/
theorem source_inverse : c.resolver.InverseUpTo f.source c.readSite where
  toInverseOnValues :=
    have := valueSource_inverse h hp hm
    ⟨this.string, this.type, this.proto, this.field, this.method, this.methodHandle⟩
  callSite {s i} hin := by
    have hget := Pools.getElem?_of_lookup (Nat.le_trans hp.callSites (by decide)) hin
    have hid : c.pools.callSites.id? s = some i.toNat := ItemSet.id?_eq_iff_getElem?.mpr hget
    change f.callSite i = _
    rw [callSite_eq h hp hm hn hget, Contents.readSite, hid]

end

end DexFile

/-- The file that is written for classes is opened with the same options, and reading an index gives
what the pools have there: a call site with the name of its index, and an error behind the last
entry. The indices that are stored with 16 bits lose nothing by that. -/
theorem Dex.exists_entries_of_encode {o : WriteOptions} {d : Dex} {c : Contents} {bytes : Bytes}
    (h : d.encode o = .ok bytes) (hc : Contents.ofDex o d = .ok c)
    (hm : ∀ m ∈ c.pools.methodHandles.toList, m.IsConsistent) :
    ∃ f, DexFile.ofBytes o.options bytes.toByteArray 0 = .ok f ∧
      f.string = Pools.fetch c.pools.strings .string ∧
      f.type = Pools.fetch c.pools.types .type ∧
      f.proto = Pools.fetch c.pools.protos .proto ∧
      f.field = Pools.fetch c.pools.fields .field ∧
      f.method = Pools.fetch c.pools.methods .method ∧
      f.methodHandle = Pools.fetch c.pools.methodHandles .methodHandle ∧
      (∀ i, f.callSite i = (fun s : CallSite => { s with
          name := CallSite.nameOf i.toNat
          arguments := s.arguments.map Value.sorted }) <$>
        Pools.fetch c.pools.callSites .callSite i) ∧
      (∀ t i, c.resolver.type t = .ok i → i.toUInt16.toUInt32 = i) ∧
      (∀ p i, c.resolver.proto p = .ok i → i.toUInt16.toUInt32 = i) ∧
      (∀ x i, c.resolver.field x = .ok i → i.toUInt16.toUInt32 = i) ∧
      (∀ x i, c.resolver.method x = .ok i → i.toUInt16.toUInt32 = i) := by
  obtain ⟨c', data, f, hc', hopen, hf⟩ := exists_file_of_encode h
  obtain rfl := Except.ok.inj (hc.symm.trans hc')
  have hp := Contents.short_of_ofDex hc
  have hn := Contents.shallow_of_ofDex hc
  exact ⟨f, hopen, DexFile.string_eq_fetch hf, DexFile.type_eq_fetch hf, DexFile.proto_eq_fetch hf hp,
    DexFile.field_eq_fetch hf hp, DexFile.method_eq_fetch hf hp,
    DexFile.methodHandle_eq_fetch hf hp hm, DexFile.callSite_eq_fetch hf hp hm hn,
    fun _ _ => Pools.toUInt32_toUInt16_of_lookup hp.types,
    fun _ _ => Pools.toUInt32_toUInt16_of_lookup hp.protos,
    fun _ _ => Pools.toUInt32_toUInt16_of_lookup hp.fields,
    fun _ _ => Pools.toUInt32_toUInt16_of_lookup hp.methods⟩

/-- A class without members. -/
def bareClass : ClassDef := { type := ⟨"LA;"⟩ }

namespace Contents
open Gather

def bareEntry : ClassEntry := ⟨bareClass, none, none, none, [], [], [], []⟩

def bare : Contents where
  pools := { strings := .ofList ["LA;"], types := .ofList [⟨"LA;"⟩] }
  items := {}
  classes := [bareEntry]

section
variable {o : WriteOptions} {start : Nat}

theorem ofDex_bareClass : ofDex o ⟨[bareClass]⟩ = .ok bare := by
  have hentry (g : Gathered) : classEntry o bareClass g = .ok (bareEntry, g.addType ⟨"LA;"⟩) := by
    cbv
  have hentries : classEntries o ∅ [bareClass] {} =
      .ok ([bareEntry], Gathered.addType {} ⟨"LA;"⟩) := by
    rw [classEntries, ItemSet.contains, ItemSet.id?_empty, if_neg (by simp)]
    change (Result.within _ (classEntry o bareClass {}) >>= _) = _
    rw [hentry]
    rfl
  have hpools : (Gathered.addType {} ⟨"LA;"⟩).toPools = .ok bare.pools := by
    have hstrings : (Gathered.addType {} ⟨"LA;"⟩).strings.toList = ["LA;"] :=
      ItemSet.toList_insert ∅ "LA;"
    have htypes : (Gathered.addType {} ⟨"LA;"⟩).types.toList = [⟨"LA;"⟩] :=
      ItemSet.toList_insert ∅ (TypeId.mk "LA;")
    have hstring (cmp : String → String → Ordering) : sortedBy cmp ["LA;"] = ["LA;"] := by cbv
    have htype (cmp : TypeId → TypeId → Ordering) : sortedBy cmp [⟨"LA;"⟩] = [⟨"LA;"⟩] := by cbv
    rw [Gathered.toPools, hstrings, htypes]
    simp only [Pools.build, Pools.pool, hstring, htype]
    cbv
  exact bind_eq_ok.mpr ⟨_, hentries, bind_eq_ok.mpr ⟨Gathered.addType {} ⟨"LA;"⟩, rfl,
    bind_eq_ok.mpr ⟨_, hpools, rfl⟩⟩⟩

/-- The data of the class: the name of its type and nothing else. -/
def bareData (start : Nat) : Data :=
  ⟨.empty .debugInfo start, .empty .codeItems start, .empty .encodedArrays start,
    .empty .annotationItems start, .empty .annotationSets start, .empty .annotationSetLists start,
    .empty .annotationDirectories start, .empty .typeLists start, ⟨.classData, start, [.nothing]⟩,
    ⟨.stringData, start, [⟨[3, 76, 65, 59, 0], start⟩]⟩, .empty .hiddenApi (start + 5)⟩

theorem toList_bareStrings : bare.pools.strings.toList = ["LA;"] :=
  ItemSet.toList_ofList_of_nodup (List.nodup_singleton _)

theorem toList_bareTypes : bare.pools.types.toList = [⟨"LA;"⟩] :=
  ItemSet.toList_ofList_of_nodup (List.nodup_singleton _)

theorem data_bare : bare.data o start = .ok (bareData start) := by
  have hstrings : bare.stringSection start = .ok (bareData start).strings := by
    have hplaced : Placed.aligned 1 start (Text.encodeStringData "LA;") =
        ⟨[3, 76, 65, 59, 0], start⟩ := by
      have hpadding : padding start 1 = [] := by simp [padding, alignUp]
      have hstring : Text.encodeStringData "LA;" = [3, 76, 65, 59, 0] := by cbv
      rw [Placed.aligned, hpadding, hstring]
      rfl
    rw [stringSection, toList_bareStrings]
    exact bind_eq_ok.mpr ⟨[_], bind_eq_ok.mpr ⟨_, congrArg Except.ok hplaced, rfl⟩, rfl⟩
  have hhidden : bare.hiddenApiSection o (start + 5) = .ok (bareData start).hiddenApi := by
    have hnone : bare.classes.map restrictions = [none] := rfl
    unfold hiddenApiSection
    rw [hnone, if_pos (by simp)]
    rfl
  have hcode : bare.codeSections o start =
      .ok ((bareData start).debugInfos, (bareData start).code) := by
    unfold codeSections
    cases o.version.isCompact <;> rfl
  have hbehind : (if o.version.isCompact then (bareData start).debugInfos.stop
      else (bareData start).code.stop) = start := ite_self start
  exact data_of_built {
    codeSections := hcode
    encodedArrays := by rw [hbehind]; rfl
    annotations := rfl
    annotationSets := rfl
    annotationSetLists := rfl
    directories := rfl
    typeLists := rfl
    classData := rfl
    strings := hstrings
    hiddenApi := hhidden }

theorem exists_ids_bare : ∃ ids, bare.encodeIds (bareData start) = .ok ids := by
  have hstring : bare.resolver.string "LA;" = .ok 0 :=
    Pools.lookup_ofList (List.pairwise_singleton _ _) (k := 0) rfl
  have htype : bare.resolver.type ⟨"LA;"⟩ = .ok 0 :=
    Pools.lookup_ofList (List.pairwise_singleton _ _) (k := 0) rfl
  refine Encodable.exists_ids {
    types := ?_
    protos := List.forall_mem_nil _
    fields := List.forall_mem_nil _
    methods := List.forall_mem_nil _
    classes := List.forall_mem_singleton.mpr ⟨_, bind_eq_ok.mpr ⟨_, htype, rfl⟩⟩
    callSites := List.forall_mem_nil _
    methodHandles := List.forall_mem_nil _ }
  rw [toList_bareTypes]
  exact List.forall_mem_singleton.mpr ⟨_, bind_eq_ok.mpr ⟨_, hstring, rfl⟩⟩

theorem exists_encodeStandard_bare {headerOffset : Nat} (hsmall : headerOffset < 0x10000) :
    ∃ file, bare.encodeStandard o headerOffset = .ok file := by
  have hsizeOf : Header.sizeOf o.version ≤ 136 := by cases o.version <;> decide
  have hlayout : (bare.layout (headerOffset + Header.sizeOf o.version)).stop =
      headerOffset + Header.sizeOf o.version + 40 := by
    rw [layout, ← ItemSet.length_toList, toList_bareStrings, ← ItemSet.length_toList,
      toList_bareTypes]
    rfl
  have hstart := alignUp_le (headerOffset + Header.sizeOf o.version + 40) mapAlignment
  have hlength (start : Nat) : ((bareData start).bytes false).length = 5 := rfl
  obtain ⟨ids, hids⟩ := exists_ids_bare
  refine exists_encodeStandard (congrArg (alignUp · mapAlignment) hlayout) data_bare hids ?_
  rw [hlength]
  simp only [mapAlignment] at hstart ⊢
  omega

end

end Contents

theorem Dex.exists_encode_bareClass : ∃ bytes, Dex.encode {} ⟨[bareClass]⟩ = .ok bytes := by
  obtain ⟨file, hfile⟩ : ∃ file, Contents.bare.encodeStandard {} 0 = .ok file :=
    Contents.exists_encodeStandard_bare (by decide)
  exact ⟨_, map_eq_ok.mpr ⟨file, bind_eq_ok.mpr ⟨(), rfl, bind_eq_ok.mpr
    ⟨_, Contents.ofDex_bareClass, hfile⟩⟩, rfl⟩⟩

/-- The file of a class without members names its type. -/
theorem Dex.exists_entries_of_encode_bareClass : ∃ bytes f, Dex.encode {} ⟨[bareClass]⟩ = .ok bytes ∧
    DexFile.ofBytes {} bytes.toByteArray 0 = .ok f ∧ f.type 0 = .ok ⟨"LA;"⟩ ∧
      f.type 1 = .error (.ofCause (.bounds "type" 1 1)) := by
  obtain ⟨bytes, hbytes⟩ := Dex.exists_encode_bareClass
  obtain ⟨f, hopen, -, htype, -⟩ := Dex.exists_entries_of_encode hbytes Contents.ofDex_bareClass
    fun m hmem => absurd hmem List.not_mem_nil
  refine ⟨bytes, f, hbytes, hopen, ?_, ?_⟩
  · rw [htype, Pools.fetch, ← ItemSet.getElem?_toList, Contents.toList_bareTypes]
    rfl
  · rw [htype, Pools.fetch, ← ItemSet.getElem?_toList, ← ItemSet.length_toList,
      Contents.toList_bareTypes]
    rfl

end Dalvik
