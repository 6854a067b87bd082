import Dalvik.Proofs.File.RoundTrip
import Dalvik.Proofs.Gather.Order
import Dalvik.Proofs.Gather.Ordered
import Dalvik.Proofs.Value.Names

/-!
# The data of a file is in order

Four kinds of items hold indices of pools: sets of annotations by the types of these, annotations by
the names of their elements, directories by members, and the data of classes by members. Each is
sorted by a key of its own when it is gathered or written, and the pools are sorted by the same
keys, so the indices ascend. The decoders here take the indices as they stand in the bytes.
-/
namespace Dalvik
open Result

/-! ## Indices as they stand -/

/-- The index of the type of an annotation. -/
def decodeAnnotationType : Decoder UInt32 := do
  let _ ← Decoder.u1
  Decoder.uleb

/-- Steps over numbers. -/
def skipNumbers : (count : Nat) → Decoder Unit
  | 0 => return ()
  | count + 1 => do
    let _ ← Decoder.uleb
    skipNumbers count

/-- The indices of members, each stored as the difference to the one before and followed by `more`
numbers. -/
def decodeIndices (more : Nat) : (count : Nat) → (previous : UInt32) → Decoder (List UInt32)
  | 0, _ => return []
  | count + 1, previous => do
    let index := previous + (← Decoder.uleb)
    skipNumbers more
    return index :: (← decodeIndices more count index)

/-- The indices of the members of a class in four lists: static fields, other fields, direct methods
and virtual ones. A field has its flags behind the index, and a method the offset of its code too. -/
def decodeMemberIndices : Decoder (List (List UInt32)) := do
  let staticFields := (← Decoder.uleb).toNat
  let instanceFields := (← Decoder.uleb).toNat
  let directMethods := (← Decoder.uleb).toNat
  let virtualMethods := (← Decoder.uleb).toNat
  let staticFields ← decodeIndices 1 staticFields 0
  let instanceFields ← decodeIndices 1 instanceFields 0
  let directMethods ← decodeIndices 2 directMethods 0
  let virtualMethods ← decodeIndices 2 virtualMethods 0
  return [staticFields, instanceFields, directMethods, virtualMethods]

namespace DexFile

/-- The indices of the types of the annotations in the set at an offset. -/
def setTypes (f : DexFile) (offset : Nat) : Result (List UInt32) := do
  let offsets ← (decodeOffsets .set).valueAt f.data offset
  offsets.mapM fun annotation => decodeAnnotationType.valueAt f.data annotation.toNat

/-- The indices of the names in the annotation at an offset and in all those inside of it. -/
def itemNames (f : DexFile) (offset : Nat) : Result (List (List UInt32)) :=
  (do let _ ← Decoder.u1; AnnotationValue.decodeNames : Decoder _).valueAt f.data offset

/-- The indices of the names in all annotations of the values at an offset. -/
def arrayNames (f : DexFile) (offset : Nat) : Result (List (List UInt32)) :=
  decodeArrayNames.valueAt f.data offset

/-- The indices of the members in the three lists of the directory at an offset. -/
def directoryMembers (f : DexFile) (offset : Nat) : Result (List (List UInt32)) := do
  let d ← OffsetDirectory.decode.valueAt f.data offset
  return [d.fields, d.methods, d.parameters].map (List.map MemberOffset.member)

/-- The indices of the members in the data of a class at an offset. -/
def memberIndices (f : DexFile) (offset : Nat) : Result (List (List UInt32)) :=
  decodeMemberIndices.valueAt f.data offset

end DexFile

/-- Lists of indices have been read, and each of them ascends. -/
def Result.Ascend (r : Result (List (List UInt32))) : Prop :=
  ∃ lists, r = .ok lists ∧ ∀ indices ∈ lists, indices.Pairwise (· < ·)

/-- The indices in the items of a file ascend. -/
structure DexFile.InOrderThroughout (f : DexFile) (d : Contents.Data) : Prop where
  sets : ∀ p ∈ d.annotationSets.items,
    ∃ types, f.setTypes p.offset = .ok types ∧ types.Pairwise (· < ·)
  annotations : ∀ p ∈ d.annotations.items, (f.itemNames p.offset).Ascend
  arrays : ∀ p ∈ d.encodedArrays.items, (f.arrayNames p.offset).Ascend
  directories : ∀ p ∈ d.directories.items, (f.directoryMembers p.offset).Ascend
  /-- A class without members has no data. -/
  classData : ∀ p ∈ d.classData.items, p.offset ≠ 0 → (f.memberIndices p.offset).Ascend

/-! ## Members of a class -/

/-- The differences by which indices behind `previous` are stored, modulo 2^32. -/
def deltas (previous : UInt32) : List UInt32 → List UInt32
  | [] => []
  | i :: indices => (i - previous) :: deltas i indices

/-- The bytes of members with these differences, each with `more` numbers behind it. -/
inductive MemberBytes (more : Nat) : List UInt32 → Bytes → Prop
  | nil : MemberBytes more [] []
  | cons {d : UInt32} {differences : List UInt32} {numbers part : Bytes}
      (skip : (skipNumbers more).Reads numbers ()) (rest : MemberBytes more differences part) :
      MemberBytes more (d :: differences) (Bytes.uleb d ++ (numbers ++ part))

section
variable {r : Resolver} {o : WriteOptions} {previous : UInt32} {part : Bytes}

/-- Sums modulo 2^32 undo the differences. -/
theorem MemberBytes.sums_reads {more : Nat} {indices : List UInt32}
    (h : MemberBytes more (deltas previous indices) part) :
    (decodeIndices more indices.length previous).Reads part indices := by
  induction indices generalizing previous part with
  | nil =>
    cases h
    exact .pure []
  | cons i indices ih =>
    cases h with
    | cons skip rest =>
      have hsum : previous + (i - previous) = i := by rw [UInt32.add_comm, UInt32.sub_add_cancel]
      apply (Decoder.uleb_reads (i - previous)).bind
      rw [hsum]
      exact skip.bind (ih rest).map

theorem exists_fieldIndices {fields : List FieldEntry}
    (h : Contents.encodeFields r o previous fields = .ok part) :
    ∃ indices, MemberBytes 1 (deltas previous indices) part ∧
      List.Forall₂ (fun id i => r.field id = .ok i) (fields.map FieldEntry.id) indices := by
  induction fields generalizing previous part with
  | nil =>
    cases h
    exact ⟨[], .nil, .nil⟩
  | cons y fields ih =>
    obtain ⟨index, stored, rest, hindex, -, hrest, rfl⟩ := Contents.exists_of_encodeFields h
    obtain ⟨indices, hbytes, hindices⟩ := ih hrest
    refine ⟨index :: indices, ?_, .cons hindex hindices⟩
    exact .cons ((Decoder.uleb_reads stored).bind_last (.pure ())) hbytes

theorem exists_methodIndices {code : DataSection} {methods : List MethodEntry}
    (h : Contents.encodeMethods r o code previous methods = .ok part) :
    ∃ indices, MemberBytes 2 (deltas previous indices) part ∧
      List.Forall₂ (fun id i => r.method id = .ok i) (methods.map MethodEntry.id) indices := by
  induction methods generalizing previous part with
  | nil =>
    cases h
    exact ⟨[], .nil, .nil⟩
  | cons y methods ih =>
    obtain ⟨index, stored, offset, rest, hindex, -, -, hrest, rfl⟩ :=
      Contents.exists_of_encodeMethods h
    obtain ⟨indices, hbytes, hindices⟩ := ih hrest
    refine ⟨index :: indices, ?_, .cons hindex hindices⟩
    rw [← List.append_assoc (Bytes.uleb stored)]
    have hskip : (skipNumbers 2).Reads (Bytes.uleb stored ++ Bytes.uleb offset) () :=
      (Decoder.uleb_reads stored).bind ((Decoder.uleb_reads offset).bind_last (.pure ()))
    exact .cons hskip hbytes

end

namespace DexFile

/-- The indices of members that are in order ascend. -/
theorem pairwise_of_ascending {α : Type} {index : α → Result UInt32} {ids : List α}
    {indices : List UInt32} (h : Ascending index none ids)
    (hi : List.Forall₂ (fun id i => index id = .ok i) ids indices) :
    indices.Pairwise (· < ·) := by
  suffices go : ∀ previous : Option UInt32, Ascending index previous ids →
      (∀ p ∈ previous, ∀ i ∈ indices, p < i) ∧ indices.Pairwise (· < ·) from (go none h).2
  clear h
  induction hi with
  | nil => exact fun _ _ => ⟨fun _ _ => nofun, .nil⟩
  | @cons _ i _ _ hindex _ ih =>
    intro previous h
    obtain ⟨hbehind, h⟩ := h i hindex
    obtain ⟨hfirst, hrest⟩ := ih (some i) h
    refine ⟨fun p hp => List.forall_mem_cons.mpr ⟨hbehind p hp, fun j hj => ?_⟩,
      List.pairwise_cons.mpr ⟨hfirst i rfl, hrest⟩⟩
    exact UInt32.lt_trans (hbehind p hp) (hfirst i rfl j hj)

theorem exists_memberIndices {r : Resolver} {o : WriteOptions} {code : DataSection}
    {e : ClassEntry} {part : Bytes} (horder : InOrder r e)
    (h : Contents.encodeClassData r o code e = .ok part) (hl : part.length < UInt32.size) :
    ∃ lists, decodeMemberIndices.Reads part lists ∧
      ∀ indices ∈ lists, indices.Pairwise (· < ·) := by
  have hcounted := Contents.counted_of_encodeClassData h hl
  obtain ⟨staticFields, instanceFields, directMethods, virtualMethods, hstaticFields,
    hinstanceFields, hdirectMethods, hvirtualMethods, rfl⟩ := Contents.exists_of_encodeClassData h
  obtain ⟨static, hstatic, hstaticIndices⟩ := exists_fieldIndices hstaticFields
  obtain ⟨instance', hinstance, hinstanceIndices⟩ := exists_fieldIndices hinstanceFields
  obtain ⟨direct, hdirect, hdirectIndices⟩ := exists_methodIndices hdirectMethods
  obtain ⟨virtual, hvirtual, hvirtualIndices⟩ := exists_methodIndices hvirtualMethods
  refine ⟨[static, instance', direct, virtual], ?_, ?_⟩
  · apply e.counts_reads
    rw [hcounted.staticFields, hcounted.instanceFields, hcounted.directMethods,
      hcounted.virtualMethods]
    have hstaticLength := hstaticIndices.length_eq
    have hinstanceLength := hinstanceIndices.length_eq
    have hdirectLength := hdirectIndices.length_eq
    have hvirtualLength := hvirtualIndices.length_eq
    rw [List.length_map] at hstaticLength hinstanceLength hdirectLength hvirtualLength
    rw [hstaticLength, hinstanceLength, hdirectLength, hvirtualLength]
    apply hstatic.sums_reads.bind
    apply hinstance.sums_reads.bind
    apply hdirect.sums_reads.bind
    exact hvirtual.sums_reads.map
  · simp only [List.mem_cons, List.not_mem_nil, or_false, forall_eq_or_imp, forall_eq]
    exact ⟨pairwise_of_ascending horder.staticFields hstaticIndices,
      pairwise_of_ascending horder.instanceFields hinstanceIndices,
      pairwise_of_ascending horder.directMethods hdirectIndices,
      pairwise_of_ascending horder.virtualMethods hvirtualIndices⟩

end DexFile

/-! ## Annotations -/

/-- An annotation begins with its visibility and the index of its type. -/
theorem AnnotationItem.exists_type_of_encode {r : Resolver} {a : AnnotationItem} {out : Bytes}
    (h : a.encode r = .ok out) :
    ∃ index rest, r.type a.type = .ok index ∧
      out = Bytes.u1 a.visibility.code ++ (Bytes.uleb index ++ rest) := by
  obtain ⟨value, hvalue, h⟩ := bind_eq_ok.mp h
  obtain rfl := pure_eq_ok.mp h
  obtain ⟨visibility, type, elements⟩ := a
  rw [AnnotationValue.encode] at hvalue
  split at hvalue
  · cases hvalue
  · obtain ⟨index, hindex, hvalue⟩ := bind_eq_ok.mp hvalue
    obtain ⟨body, -, hvalue⟩ := bind_eq_ok.mp hvalue
    obtain rfl := pure_eq_ok.mp hvalue
    exact ⟨index, _, hindex, by rw [List.append_assoc]; rfl⟩

theorem Contents.memberOffsets_ascend {α β : Type} {index : α → Result UInt32}
    {offset : β → Result UInt32} {entries : List (α × β)} {members : List MemberOffset}
    (hinjective : ∀ a b i, index a = .ok i → index b = .ok i → a = b)
    (hd : (entries.map Prod.fst).Nodup) (h : memberOffsets index offset entries = .ok members) :
    (members.map MemberOffset.member).Pairwise (· < ·) := by
  obtain ⟨found, hfound, h⟩ := bind_eq_ok.mp h
  obtain rfl := pure_eq_ok.mp h
  have heach : List.Forall₂ (fun (e : α × β) (m : MemberOffset) => index e.1 = .ok m.member)
      entries found := (mapM_eq_ok.mp hfound).imp fun e m hm => by
    obtain ⟨member, hmember, hm⟩ := bind_eq_ok.mp hm
    obtain ⟨place, -, hm⟩ := bind_eq_ok.mp hm
    obtain rfl := pure_eq_ok.mp hm
    exact hmember
  have hnodup := nodup_of_forall₂ hinjective heach hd
  have hsorted := pairwise_sortedBy (compareOn MemberOffset.member) found
  have hperm := (sortedBy_perm (compareOn MemberOffset.member) found).map MemberOffset.member
  have hne := List.pairwise_map.mp (hperm.nodup_iff.mpr hnodup)
  refine List.pairwise_map.mpr ((hsorted.and hne).imp fun ⟨hle, hne⟩ => ?_)
  have hle := Std.isLE_compare.mp hle
  exact UInt32.lt_of_le_of_ne hle hne

/-! ## Sections -/

/-- What stands at an item of a section is one of its values. -/
theorem DataSection.Shows.exists_of_mem {α : Type} {s : DataSection} {data : ByteArray}
    {encode : α → Result Bytes} {items : List α} (h : s.Shows data encode items)
    (hlength : s.items.length = items.length) {p : Placed} (hp : p ∈ s.items) :
    ∃ a ∈ items, ∃ b, encode a = .ok b ∧ b.Stands data p.offset := by
  obtain ⟨i, hlt, rfl⟩ := List.mem_iff_getElem.mp hp
  have ha := List.getElem?_eq_getElem (hlength ▸ hlt : i < items.length)
  obtain ⟨q, b, hq, hb, hstands, -⟩ := h i _ ha
  obtain rfl := Option.some.inj ((List.getElem?_eq_getElem hlt).symm.trans hq)
  exact ⟨_, List.mem_of_getElem? ha, b, hb, hstands⟩

namespace DexFile

variable {f : DexFile} {o : WriteOptions} {c : Contents} {d : Contents.Data}

theorem setTypes_ascend (h : f.Holds o c d) (hp : c.pools.Short) (hc : c.pools.Canonical)
    {set : List AnnotationItem} (hset : AnnotationItem.Ascending set) {b : Bytes}
    (hb : c.encodeSet d.annotations set = .ok b) {offset : Nat} (hstands : b.Stands f.data offset) :
    ∃ types, f.setTypes offset = .ok types ∧ types.Pairwise (· < ·) := by
  obtain ⟨offsets, hoffsets, hb⟩ := bind_eq_ok.mp hb
  obtain rfl := pure_eq_ok.mp hb
  have hsmall := h.small
  have hinside := hstands.length_le
  have heach : List.Forall₂ (fun a x => ∃ i, c.resolver.type a.type = .ok i ∧
      decodeAnnotationType.valueAt f.data x.toNat = .ok i) set offsets := by
    refine (mapM_eq_ok.mp hoffsets).imp fun a x hx => ?_
    obtain ⟨-, part, hpart, hstands⟩ := h.data.annotations.of_offset_id h.small hx
    obtain ⟨index, rest, hindex, rfl⟩ := AnnotationItem.exists_type_of_encode hpart
    rw [← List.append_assoc] at hstands
    have hread :
        decodeAnnotationType.Reads (Bytes.u1 a.visibility.code ++ Bytes.uleb index) index :=
      (Decoder.u1_reads _).bind (Decoder.uleb_reads index)
    exact ⟨index, hindex, hread.valueAt hstands.left⟩
  obtain ⟨types, htypes⟩ := exists_mapM_eq_ok (f := fun x : UInt32 =>
    decodeAnnotationType.valueAt f.data x.toNat) fun x hx => by
      obtain ⟨a, -, i, -, hread⟩ := exists_left_of_mem heach hx
      exact ⟨i, hread⟩
  refine ⟨types, ?_, ?_⟩
  · rw [setTypes, (decodeOffsets_reads .set (by omega)).valueAt hstands, ok_bind]
    exact htypes
  · refine pairwise_of_forall₂ (forall₂_of_common heach.flip (mapM_eq_ok.mp htypes)) hset ?_
    rintro a a' i i' hlt ⟨x, ⟨j, hj, hread⟩, hi⟩ ⟨x', ⟨j', hj', hread'⟩, hi'⟩
    obtain rfl := Except.ok.inj (hread.symm.trans hi)
    obtain rfl := Except.ok.inj (hread'.symm.trans hi')
    exact Pools.lt_of_lookup (hc.types.values.imp Ordering.isLE_of_eq_lt)
      (Nat.le_trans hp.types (by decide)) hlt hj hj'

theorem directoryMembers_ascend (h : f.Holds o c d) (hp : c.pools.Short)
    {a : AnnotationDirectory} (ha : a.Distinct) {b : Bytes}
    (hb : c.encodeDirectory d.annotationSets d.annotationSetLists a = .ok b) {offset : Nat}
    (hstands : b.Stands f.data offset) : (f.directoryMembers offset).Ascend := by
  obtain ⟨fields, hfields, hb⟩ := bind_eq_ok.mp hb
  obtain ⟨methods, hmethods, hb⟩ := bind_eq_ok.mp hb
  obtain ⟨parameters, hparameters, hb⟩ := bind_eq_ok.mp hb
  obtain ⟨ofClass, -, hb⟩ := bind_eq_ok.mp hb
  obtain rfl := pure_eq_ok.mp hb
  have hsmall := h.small
  have hinside := hstands.length_le
  refine ⟨[fields, methods, parameters].map (List.map MemberOffset.member), ?_, ?_⟩
  · rw [directoryMembers, (OffsetDirectory.decode_reads (by omega)).valueAt hstands]
    rfl
  · simp only [List.map_cons, List.map_nil, List.mem_cons, List.not_mem_nil, or_false,
      forall_eq_or_imp, forall_eq]
    exact ⟨Contents.memberOffsets_ascend hp.field_injective ha.fields hfields,
      Contents.memberOffsets_ascend hp.method_injective ha.methods hmethods,
      Contents.memberOffsets_ascend hp.method_injective ha.parameters hparameters⟩

theorem memberIndices_ascend (h : f.Holds o c d) (hp : c.pools.Short) {g : Gathered} {dex : Dex}
    (hf : g.Fills o dex c) (hlength : d.classData.items.length = c.classes.length) {p : Placed}
    (hmem : p ∈ d.classData.items) (hne : p.offset ≠ 0) : (f.memberIndices p.offset).Ascend := by
  obtain ⟨i, hlt, rfl⟩ := List.mem_iff_getElem.mp hmem
  have he := List.getElem?_eq_getElem (hlength ▸ hlt : i < c.classes.length)
  have hget := List.getElem?_eq_getElem hlt
  have hshows := h.data.classData i _ he
  split at hshows
  · obtain ⟨q, b, hq, hb, hstands, -⟩ := hshows
    obtain rfl := Option.some.inj (hget.symm.trans hq)
    obtain ⟨x, -, hhold⟩ := exists_left_of_mem hf.classes (List.mem_of_getElem? he)
    have hsmall := h.small
    have hinside := hstands.length_le
    obtain ⟨lists, hread, hlists⟩ := exists_memberIndices (hf.inOrder hp hhold) hb (by omega)
    exact ⟨lists, hread.valueAt hstands, hlists⟩
  · rw [Option.some.inj (hget.symm.trans hshows)] at hne
    exact absurd rfl hne

theorem inOrderThroughout (h : f.Holds o c d) {start : Nat} (hb : c.Built o start d) {dex : Dex}
    (hofDex : Contents.ofDex o dex = .ok c) : f.InOrderThroughout d := by
  have hp := Contents.short_of_ofDex hofDex
  have hc := Contents.canonical_of_ofDex hofDex
  have hordered := Contents.ordered_of_ofDex hofDex
  have hshallow := Contents.shallow_of_ofDex hofDex
  obtain ⟨g, hf⟩ := Contents.fills_of_ofDex hofDex
  have hsmall := h.small
  have hstrings : c.pools.strings.toList.Pairwise fun s t => (Text.compareUtf16 s t).isLE :=
    hc.strings.imp fun hlt => Ordering.isLE_of_eq_lt (Text.compareUtf16_eq_lt_iff.mpr hlt)
  have hr : c.resolver.KeepsOrder := Pools.lt_of_lookup hstrings (strings_le h)
  exact {
    sets := fun p hmem => by
      obtain ⟨set, hset, b, hb, hstands⟩ := h.data.annotationSets.exists_of_mem
        (DataSection.length_of_build hb.annotationSets) hmem
      exact setTypes_ascend h hp hc (hordered.sets set hset) hb hstands
    annotations := fun p hmem => by
      obtain ⟨a, ha, b, hb, hstands⟩ := h.data.annotations.exists_of_mem
        (DataSection.length_of_build hb.annotations) hmem
      obtain ⟨value, hvalue, hb⟩ := bind_eq_ok.mp hb
      obtain rfl := pure_eq_ok.mp hb
      have hinside := hstands.length_le
      rw [List.length_cons] at hinside
      obtain ⟨lists, hread, hlists⟩ :=
        AnnotationValue.names_ascend hr (hshallow.annotations a ha) hvalue (by omega)
      exact ⟨lists, (Decoder.u1_bind_reads hread).valueAt hstands, hlists⟩
    arrays := fun p hmem => by
      obtain ⟨values, hvalues, b, hb, hstands⟩ := h.data.encodedArrays.exists_of_mem
        (DataSection.length_of_build hb.encodedArrays) hmem
      have hinside := hstands.length_le
      obtain ⟨lists, hread, hlists⟩ :=
        arrayNames_ascend hr (hshallow.encodedArrays values hvalues) hb (by omega)
      exact ⟨lists, hread.valueAt hstands, hlists⟩
    directories := fun p hmem => by
      obtain ⟨a, ha, b, hb, hstands⟩ := h.data.directories.exists_of_mem
        (DataSection.length_of_build hb.directories) hmem
      exact directoryMembers_ascend h hp (hordered.directories a ha) hb hstands
    classData := fun p =>
      memberIndices_ascend h hp hf (DataSection.length_of_build hb.classData) }

end DexFile

namespace Dex

variable {o : WriteOptions} {d : Dex} {start stop : Nat} {bytes : Bytes}

/-- In every file that is written, alone or in a container, the annotations of each set ascend by
their types, the elements of each annotation by their names, however deep it lies, and the members
in each list of a directory and of the data of a class by themselves. -/
theorem exists_inOrder_of_written (h : Written o d start stop bytes) :
    ∃ (c : Contents) (data : Contents.Data) (f : DexFile), Contents.ofDex o d = .ok c ∧
      DexFile.ofBytes o.options bytes.toByteArray start = .ok f ∧ f.Holds o c data ∧
      f.InOrderThroughout data := by
  obtain ⟨length, rfl, c, data, rest, f, hofDex, hf, hlaid, rfl⟩ := h.laidIn
  obtain ⟨_, -, hb, -⟩ := hlaid.parts.built
  exact ⟨c, data, f, hofDex, hf, hlaid.holds,
    DexFile.inOrderThroughout hlaid.holds hb hofDex⟩

/-- A class with one field. -/
theorem exists_inOrder_of_written_number : ∃ bytes c data f,
    encode {} ⟨[numberClass 8 none]⟩ = .ok bytes ∧
      Contents.ofDex {} ⟨[numberClass 8 none]⟩ = .ok c ∧
      DexFile.ofBytes {} bytes.toByteArray 0 = .ok f ∧ f.InOrderThroughout data ∧
      ∃ p ∈ data.classData.items, p.offset ≠ 0 ∧ (f.memberIndices p.offset).Ascend := by
  have hstored : Contents.storedAccess {} 8 0 = .ok 8 := rfl
  have hb : Bytes.uleb 8 = [8] := by cbv
  obtain ⟨bytes, hbytes⟩ := exists_encode_number rfl Contents.ofDex_number_none hstored hb
  obtain ⟨c, data, f, hc, hf, hholds, horder⟩ := exists_inOrder_of_written (.alone hbytes)
  obtain rfl := Except.ok.inj (hc.symm.trans Contents.ofDex_number_none)
  obtain ⟨p, _, hp, -, -, hpos, -⟩ := hholds.data.classData 0 _ rfl
  have hmem := List.mem_of_getElem? hp
  have hne := Nat.ne_of_gt hpos
  exact ⟨bytes, _, data, f, hbytes, hc, hf, horder, p, hmem, hne, horder.classData p hmem hne⟩

end Dex

end Dalvik
