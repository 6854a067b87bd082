import Dalvik.Proofs.File.Classes
import Dalvik.Proofs.Placement.Instructions
import Dalvik.Proofs.Placement.Values

/-!
# Two files with the same contents

The files may lie at different places, so the offsets in them differ. Every index leads to the same
entry in both, and where an offset of the one file leads to an item, the offset that is stored for it
in the other file leads to the same item. The handles need not be consistent: what a file makes of one
that is not depends on the contents alone.
-/
namespace Dalvik
open Result

/-- Two offsets of an item that need not be are both 0, or both lead to the item. -/
theorem Gathered.Places.offsets_cases {g : Gathered} {part : Option Part} {id : Option Nat}
    (h : g.Places part id) {s s' : DataSection} {what : String} {offset offset' : UInt32}
    (ho : s.optionalOffset what id = .ok offset) (ho' : s'.optionalOffset what id = .ok offset') :
    (part = none ∧ offset = 0 ∧ offset' = 0) ∨ ∃ p ∈ part, s.offset what (g.id? p) = .ok offset ∧
      s'.offset what (g.id? p) = .ok offset' := by
  rcases h.offset_cases ho with ⟨hnone, rfl, hzero⟩ | ⟨p, hp, ho⟩
  · cases ho'
    exact .inl ⟨hnone, hzero, rfl⟩
  · rcases h.offset_cases ho' with ⟨hnone, -, -⟩ | ⟨p', hp', ho'⟩
    · rw [hnone] at hp
      cases hp
    · obtain rfl : p = p' := Option.some.inj (hp.symm.trans hp')
      exact .inr ⟨p, hp, ho, ho'⟩

/-- The entries of the members of a class come in the same order. -/
theorem Contents.forall₂_memberOffsets {α β : Type} {member : α → Result UInt32}
    {place place' : β → Result UInt32} {entries : List (α × β)} {ms ms' : List MemberOffset}
    (hms : memberOffsets member place entries = .ok ms)
    (hms' : memberOffsets member place' entries = .ok ms') :
    List.Forall₂ (fun m m' => m.member = m'.member ∧
      ∃ b, place b = .ok m.offset ∧ place' b = .ok m'.offset) ms ms' := by
  obtain ⟨found, hfound, hms⟩ := bind_eq_ok.mp hms
  obtain ⟨found', hfound', hms'⟩ := bind_eq_ok.mp hms'
  obtain rfl := pure_eq_ok.mp hms
  obtain rfl := pure_eq_ok.mp hms'
  refine forall₂_sortedBy compare ?_ fun _ _ hm => hm.1
  refine (forall₂_of_common (mapM_eq_ok.mp hfound) (mapM_eq_ok.mp hfound')).imp ?_
  rintro m m' ⟨⟨a, b⟩, hm, hm'⟩
  obtain ⟨index, hindex, hm⟩ := bind_eq_ok.mp hm
  obtain ⟨index', hindex', hm'⟩ := bind_eq_ok.mp hm'
  obtain ⟨offset, hoffset, hm⟩ := bind_eq_ok.mp hm
  obtain ⟨offset', hoffset', hm'⟩ := bind_eq_ok.mp hm'
  obtain rfl := pure_eq_ok.mp hm
  obtain rfl := pure_eq_ok.mp hm'
  exact ⟨Except.ok.inj (hindex.symm.trans hindex'), b, hoffset, hoffset'⟩

namespace DexFile

theorem decodeArray_source (f : DexFile) : decodeArray f.source = decodeArray f.valueSource :=
  congrArg counted (Value.decodeNested_callSite f.valueSource f.callSite (maxNesting + 1))

theorem decodeAnnotation_source (f : DexFile) :
    AnnotationItem.decode f.source = AnnotationItem.decode f.valueSource :=
  AnnotationItem.decode_callSite f.valueSource f.callSite

section
variable {f f' : DexFile} {o : WriteOptions} {c : Contents} {d d' : Contents.Data} {index : UInt32}
  (h : f.Holds o c d) (h' : f'.Holds o c d') (hp : c.pools.Short)
include h h' hp

/-! ## Entries -/

theorem methodHandle_eq_methodHandle : f.methodHandle = f'.methodHandle := by
  funext index
  unfold methodHandle
  rw [method_eq_fetch h hp, method_eq_fetch h' hp, field_eq_fetch h hp, field_eq_fetch h' hp]
  rcases Nat.lt_or_ge index.toNat c.pools.methodHandles.toList.length with hlt | hge
  · have hin := List.getElem?_eq_getElem hlt
    obtain ⟨item, hitem, hread⟩ := exists_item h.methodHandles
      (fun x _ hstands => IdItem.Handle.decode_eq x hstands) hin
    obtain ⟨item', hitem', hread'⟩ := exists_item h'.methodHandles
      (fun x _ hstands => IdItem.Handle.decode_eq x hstands) hin
    obtain rfl := Except.ok.inj (hitem.symm.trans hitem')
    rw [hread, hread']
  · rw [item_eq_error h.methodHandles hge, item_eq_error h'.methodHandles hge]

theorem valueSource_eq_valueSource : f.valueSource = f'.valueSource := by
  unfold valueSource
  rw [string_eq_fetch h, string_eq_fetch h', type_eq_fetch h, type_eq_fetch h', proto_eq_fetch h hp,
    proto_eq_fetch h' hp, field_eq_fetch h hp, field_eq_fetch h' hp, method_eq_fetch h hp,
    method_eq_fetch h' hp, methodHandle_eq_methodHandle h h' hp]

omit h' in
theorem valueSource_covers : f.valueSource.Covers c.pools.source where
  string := string_eq_fetch h
  type := type_eq_fetch h
  proto := proto_eq_fetch h hp
  field := field_eq_fetch h hp
  method := method_eq_fetch h hp
  methodHandle i x hx := by
    obtain ⟨item, hitem, -⟩ := bind_eq_ok.mp hx
    have hlt := lt_of_item hitem
    rw [h.methodHandles.size] at hlt
    refine ⟨c.pools.methodHandles.toList[i.toNat], ?_⟩
    have hget := List.getElem?_eq_getElem hlt
    rw [ItemSet.getElem?_toList] at hget
    change Pools.fetch _ _ _ = _
    rw [Pools.fetch, hget]

omit h' in
theorem pools_inverse : c.resolver.InverseOnValues c.pools.source :=
  (Pools.resolver_inverse (hp.indexed (strings_le h))).onValues

section
variable (hn : c.Shallow)
include hn

/-- A list of values is the same at its two offsets. -/
theorem encodedArray_eq_ok {values : List Value} {what what' : String} {offset offset' : UInt32}
    (ho : d.encodedArrays.offset what (c.items.encodedArrays.id? values) = .ok offset)
    (ho' : d'.encodedArrays.offset what' (c.items.encodedArrays.id? values) = .ok offset') :
    offset ≠ 0 ∧ offset' ≠ 0 ∧
      ∀ found, (decodeArray f.valueSource).valueAt f.data offset.toNat = .ok found →
        (decodeArray f'.valueSource).valueAt f'.data offset'.toNat = .ok found := by
  obtain ⟨hne, part, hpart, hstands⟩ := h.data.encodedArrays.of_offset_id h.small ho
  obtain ⟨hne', part', hpart', hstands'⟩ := h'.data.encodedArrays.of_offset_id h'.small ho'
  obtain rfl := Except.ok.inj (hpart.symm.trans hpart')
  have hsmall := h.small
  have hinside := hstands.length_le
  refine ⟨hne, hne', fun found hfound => ?_⟩
  rw [← valueSource_eq_valueSource h h' hp]
  obtain ⟨_, rfl, hagain⟩ := (decodeArray_follows (valueSource_covers h hp) (pools_inverse h hp)
    (hn.encodedArrays values (DataSection.mem_of_offset_id ho)) hpart (by omega)).valueAt hstands
      hstands' hfound
  exact hagain

theorem callSite_eq_ok {s : CallSite} (hs : f.callSite index = .ok s) :
    f'.callSite index = .ok s := by
  obtain ⟨offset, hread, hs⟩ := bind_eq_ok.mp hs
  obtain ⟨values, hvalues, hs⟩ := bind_eq_ok.mp hs
  have hlt := lt_of_item hread
  rw [h.callSites.size] at hlt
  have hin := List.getElem?_eq_getElem hlt
  obtain ⟨word, hword, hitem⟩ := exists_word h.callSites hin
  obtain ⟨word', hword', hitem'⟩ := exists_word h'.callSites hin
  obtain rfl := Except.ok.inj (hread.symm.trans hitem)
  obtain ⟨-, -, hagain⟩ := encodedArray_eq_ok h h' hp hn hword hword'
  exact bind_eq_ok.mpr ⟨word', hitem', bind_eq_ok.mpr ⟨values,
    within_eq_ok_iff.mpr (hagain _ (within_eq_ok_iff.mp hvalues)), hs⟩⟩

theorem source_extends : f'.source.Extends f.source := by
  have hsource := Source.mk.inj (valueSource_eq_valueSource h h' hp)
  obtain ⟨hstring, htype, hproto, hfield, hmethod, hmethodHandle, -⟩ := hsource
  exact {
    string := hstring
    type := htype
    proto := hproto
    field := hfield
    method := hmethod
    methodHandle := hmethodHandle
    callSite := fun _ _ hs => callSite_eq_ok h h' hp hn hs }

/-! ## Annotations -/

theorem annotationAt_eq_ok {a : AnnotationItem} {what what' : String} {offset offset' : UInt32}
    (ho : d.annotations.offset what (c.items.annotations.id? a) = .ok offset)
    (ho' : d'.annotations.offset what' (c.items.annotations.id? a) = .ok offset') :
    offset ≠ 0 ∧ offset' ≠ 0 ∧
      ∀ found, f.annotationAt offset = .ok found → f'.annotationAt offset' = .ok found := by
  obtain ⟨hne, part, hpart, hstands⟩ := h.data.annotations.of_offset_id h.small ho
  obtain ⟨hne', part', hpart', hstands'⟩ := h'.data.annotations.of_offset_id h'.small ho'
  obtain rfl := Except.ok.inj (hpart.symm.trans hpart')
  have hsmall := h.small
  have hinside := hstands.length_le
  refine ⟨hne, hne', fun found hfound => within_eq_ok_iff.mpr ?_⟩
  have hread := AnnotationItem.decode_reads (pools_inverse h hp)
    (AnnotationItem.counted_of_encode hpart (by omega))
    (hn.annotations a (DataSection.mem_of_offset_id ho)) hpart
  have hfollows := (AnnotationItem.tracks_decode (valueSource_covers h hp)).follows hread
  have hfound := within_eq_ok_iff.mp hfound
  rw [decodeAnnotation_source] at hfound ⊢
  rw [← valueSource_eq_valueSource h h' hp]
  obtain ⟨_, rfl, hagain⟩ := hfollows.valueAt hstands hstands' hfound
  exact hagain

theorem annotationSet_eq_ok {set found : List AnnotationItem} {offset offset' : UInt32}
    (ho : c.setOffset d.annotationSets set = .ok offset)
    (ho' : c.setOffset d'.annotationSets set = .ok offset')
    (hfound : f.annotationSet offset = .ok found) : f'.annotationSet offset' = .ok found := by
  unfold Contents.setOffset at ho ho'
  split at ho
  next hempty =>
    rw [if_pos hempty] at ho'
    obtain rfl := Except.ok.inj ho
    obtain rfl := Except.ok.inj ho'
    rw [annotationSet, if_pos rfl] at hfound ⊢
    exact hfound
  next hempty =>
    rw [if_neg hempty] at ho'
    obtain ⟨hne, part, hpart, hstands⟩ := h.data.annotationSets.of_offset_id h.small ho
    obtain ⟨hne', part', hpart', hstands'⟩ := h'.data.annotationSets.of_offset_id h'.small ho'
    obtain ⟨offsets, hoffsets, hpart⟩ := bind_eq_ok.mp hpart
    obtain ⟨offsets', hoffsets', hpart'⟩ := bind_eq_ok.mp hpart'
    obtain rfl := pure_eq_ok.mp hpart
    obtain rfl := pure_eq_ok.mp hpart'
    have hsmall := h.small
    have hsmall' := h'.small
    have hinside := hstands.length_le
    have hinside' := hstands'.length_le
    have heach : List.Forall₂ (fun x y => x ≠ 0 ∧ y ≠ 0 ∧
        ∀ a, f.annotationAt x = .ok a → f'.annotationAt y = .ok a) offsets offsets' := by
      refine (forall₂_of_common (mapM_eq_ok.mp hoffsets) (mapM_eq_ok.mp hoffsets')).imp ?_
      rintro x y ⟨a, hx, hy⟩
      exact annotationAt_eq_ok h h' hp hn hx hy
    have hall : offsets.filter (· ≠ 0) = offsets := List.filter_eq_self.mpr fun y hy => by
      obtain ⟨x, -, hx⟩ := exists_left_of_mem heach.flip hy
      simpa using hx.1
    have hall' : offsets'.filter (· ≠ 0) = offsets' := List.filter_eq_self.mpr fun y hy => by
      obtain ⟨x, -, hx⟩ := exists_left_of_mem heach hy
      simpa using hx.2.1
    rw [annotationSet, if_neg hne, (decodeOffsets_reads .set (by omega)).valueAt hstands, ok_bind,
      hall] at hfound
    rw [annotationSet, if_neg hne', (decodeOffsets_reads .set (by omega)).valueAt hstands', ok_bind,
      hall']
    exact mapM_eq_ok_of_forall₂ (heach.imp fun _ _ hx => hx.2.2) hfound

theorem annotationSetList_eq_ok {sets : List (List AnnotationItem)} {what what' : String}
    {offset offset' : UInt32}
    (ho : d.annotationSetLists.offset what (c.items.annotationSetLists.id? sets) = .ok offset)
    (ho' : d'.annotationSetLists.offset what' (c.items.annotationSetLists.id? sets) = .ok offset')
    {found : List (List AnnotationItem)} (hfound : f.annotationSetList offset = .ok found) :
    f'.annotationSetList offset' = .ok found := by
  obtain ⟨-, part, hpart, hstands⟩ := h.data.annotationSetLists.of_offset_id h.small ho
  obtain ⟨-, part', hpart', hstands'⟩ := h'.data.annotationSetLists.of_offset_id h'.small ho'
  obtain ⟨offsets, hoffsets, hpart⟩ := bind_eq_ok.mp hpart
  obtain ⟨offsets', hoffsets', hpart'⟩ := bind_eq_ok.mp hpart'
  obtain rfl := pure_eq_ok.mp hpart
  obtain rfl := pure_eq_ok.mp hpart'
  have hsmall := h.small
  have hsmall' := h'.small
  have hinside := hstands.length_le
  have hinside' := hstands'.length_le
  rw [annotationSetList, (decodeOffsets_reads .setList (by omega)).valueAt hstands, ok_bind]
    at hfound
  rw [annotationSetList, (decodeOffsets_reads .setList (by omega)).valueAt hstands', ok_bind]
  refine mapM_eq_ok_of_forall₂ ?_ hfound
  refine (forall₂_of_common (mapM_eq_ok.mp hoffsets) (mapM_eq_ok.mp hoffsets')).imp ?_
  rintro x y ⟨set, hx, hy⟩ found hfound
  exact annotationSet_eq_ok h h' hp hn hx hy hfound

theorem decodeDirectory_follows {x : AnnotationDirectory} {part part' : Bytes}
    (hpart : c.encodeDirectory d.annotationSets d.annotationSetLists x = .ok part)
    (hpart' : c.encodeDirectory d'.annotationSets d'.annotationSetLists x = .ok part')
    (hl : part.length < UInt32.size) (hl' : part'.length < UInt32.size) :
    Decoder.Follows Eq f.decodeDirectory f'.decodeDirectory part part' := by
  obtain ⟨fields, hfields, hpart⟩ := bind_eq_ok.mp hpart
  obtain ⟨methods, hmethods, hpart⟩ := bind_eq_ok.mp hpart
  obtain ⟨parameters, hparameters, hpart⟩ := bind_eq_ok.mp hpart
  obtain ⟨ofClass, hofClass, hpart⟩ := bind_eq_ok.mp hpart
  obtain rfl := pure_eq_ok.mp hpart
  obtain ⟨fields', hfields', hpart'⟩ := bind_eq_ok.mp hpart'
  obtain ⟨methods', hmethods', hpart'⟩ := bind_eq_ok.mp hpart'
  obtain ⟨parameters', hparameters', hpart'⟩ := bind_eq_ok.mp hpart'
  obtain ⟨ofClass', hofClass', hpart'⟩ := bind_eq_ok.mp hpart'
  obtain rfl := pure_eq_ok.mp hpart'
  have told {α β γ : Type} {member : α → Result UInt32} {place place' : β → Result UInt32}
      {read read' : UInt32 → Result γ} {entries : List (α × β)} {ms ms' : List MemberOffset}
      (hms : Contents.memberOffsets member place entries = .ok ms)
      (hms' : Contents.memberOffsets member place' entries = .ok ms')
      (hread : ∀ b x y, place b = .ok x → place' b = .ok y → ∀ z, read x = .ok z → read' y = .ok z) :
      Decoder.Follows Eq (ms.mapM fun m => return (m.member, ← read m.offset))
        (ms'.mapM fun m => return (m.member, ← read' m.offset)) [] [] := by
    refine .mapM ((Contents.forall₂_memberOffsets hms hms').imp fun m m' ⟨hmember, b, hx, hy⟩ => ?_)
    rw [hmember]
    exact .lift_eq (hread b _ _ hx hy) fun z => .pure rfl
  have sets (set : List AnnotationItem) (x y : UInt32) (hx : c.setOffset d.annotationSets set = .ok x)
      (hy : c.setOffset d'.annotationSets set = .ok y) (z : List AnnotationItem)
      (hz : f.annotationSet x = .ok z) : f'.annotationSet y = .ok z :=
    annotationSet_eq_ok h h' hp hn hx hy hz
  refine (Decoder.Follows.of_reads (OffsetDirectory.decode_reads hl)
    (OffsetDirectory.decode_reads hl')).bind_last fun x y ⟨hx, hy⟩ => ?_
  subst hx hy
  apply Decoder.Follows.lift_eq (sets _ _ _ hofClass hofClass')
  intro ofClass
  apply (told hfields hfields' sets).bind_last
  rintro ofFields _ rfl
  apply (told hmethods hmethods' sets).bind_last
  rintro ofMethods _ rfl
  apply (told hparameters hparameters' fun _ _ _ hx hy _ hz =>
    annotationSetList_eq_ok h h' hp hn hx hy hz).bind_last
  rintro ofParameters _ rfl
  exact .pure rfl

theorem annotations_eq_ok {g : Gathered} (hg : c.items = g.items) {part : Option AnnotationDirectory}
    {id : Option Nat} {what : String} {offset offset' : UInt32}
    (hplace : g.Places (part.map .directory) id)
    (ho : d.directories.optionalOffset what id = .ok offset)
    (ho' : d'.directories.optionalOffset what id = .ok offset') {a : Annotations}
    (ha : f.annotations offset = .ok a) : f'.annotations offset' = .ok a := by
  rcases hplace.offsets_cases ho ho' with ⟨-, rfl, rfl⟩ | ⟨p, hpart, ho, ho'⟩
  · rw [annotations, if_pos rfl] at ha ⊢
    exact ha
  · obtain ⟨directory, -, rfl⟩ := Option.map_eq_some_iff.mp hpart
    have ho : d.directories.offset what (g.items.directories.id? directory) = .ok offset := ho
    have ho' : d'.directories.offset what (g.items.directories.id? directory) = .ok offset' := ho'
    rw [← hg] at ho ho'
    obtain ⟨hne, part, hpart, hstands⟩ := h.data.directories.of_offset_id h.small ho
    obtain ⟨hne', part', hpart', hstands'⟩ := h'.data.directories.of_offset_id h'.small ho'
    have hsmall := h.small
    have hsmall' := h'.small
    have hinside := hstands.length_le
    have hinside' := hstands'.length_le
    rw [annotations, if_neg hne] at ha
    rw [annotations, if_neg hne']
    obtain ⟨_, rfl, hagain⟩ := (decodeDirectory_follows h h' hp hn hpart hpart' (by omega)
      (by omega)).valueAt hstands hstands' (within_eq_ok_iff.mp ha)
    exact within_eq_ok_iff.mpr hagain

/-! ## Initial values -/

theorem staticValues_eq_ok {g : Gathered} (hg : c.items = g.items) {values found : List Value}
    {id : Option Nat} {what : String} {offset offset' : UInt32}
    (hplace : g.Places (Part.unlessEmpty .encodedArray values) id)
    (ho : d.encodedArrays.optionalOffset what id = .ok offset)
    (ho' : d'.encodedArrays.optionalOffset what id = .ok offset')
    (hfound : f.staticValues offset = .ok found) : f'.staticValues offset' = .ok found := by
  rcases hplace.offsets_cases ho ho' with ⟨-, rfl, rfl⟩ | ⟨p, hpart, ho, ho'⟩
  · rw [staticValues, if_pos rfl] at hfound ⊢
    exact hfound
  · have hlist : p = .encodedArray values := by
      unfold Part.unlessEmpty at hpart
      split at hpart
      · cases hpart
      · exact (Option.some.inj hpart).symm
    subst hlist
    have ho : d.encodedArrays.offset what (g.items.encodedArrays.id? values) = .ok offset := ho
    have ho' : d'.encodedArrays.offset what (g.items.encodedArrays.id? values) = .ok offset' := ho'
    rw [← hg] at ho ho'
    obtain ⟨hne, hne', hagain⟩ := encodedArray_eq_ok h h' hp hn ho ho'
    rw [staticValues, if_neg hne, decodeArray_source] at hfound
    rw [staticValues, if_neg hne', decodeArray_source]
    exact within_eq_ok_iff.mpr (hagain found (within_eq_ok_iff.mp hfound))

end

end

end DexFile

end Dalvik
