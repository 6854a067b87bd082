import Dalvik.File.Classes
import Dalvik.Proofs.File.Entries
import Dalvik.Proofs.Gather.Classes
import Dalvik.Proofs.Lookup

/-!
# Annotations are read back

Sets of annotations are found by their offsets. A directory tells of members by their indices;
reading it gives each member of the class its own annotations, and none to those it leaves out.
-/
namespace Dalvik
open Result

namespace AnnotationItem

/-- An annotation as it is read back. -/
def normal (a : AnnotationItem) : AnnotationItem := { a with value := a.value.sorted }

/-- The annotations of one owner as they are read back. -/
def normalSet (annotations : List AnnotationItem) : List AnnotationItem :=
  (sortedBy (byKey compare type) annotations).map normal

theorem normalSet_of_sortedSet {annotations set : List AnnotationItem}
    (h : sortedSet annotations = .ok set) : set.map normal = normalSet annotations := by
  unfold sortedSet at h
  dsimp only at h
  split at h
  · cases h
  · cases h
    rfl

theorem decode_reads {r : Resolver} {s : Source} (hrs : r.InverseOnValues s) {a : AnnotationItem}
    {out : Bytes} (hc : a.value.Counted) (hd : a.value.depth ≤ maxNesting + 1)
    (h : a.encode r = .ok out) : (decode s).Reads out a.normal := by
  obtain ⟨value, hvalue, h⟩ := bind_eq_ok.mp h
  obtain rfl := pure_eq_ok.mp h
  apply (Decoder.u1_reads a.visibility.code).bind
  apply Decoder.Reads.lift (Visibility.ofCode_code a.visibility)
  exact (AnnotationValue.decode_reads hrs hc hd hvalue).map

theorem counted_of_encode {r : Resolver} {a : AnnotationItem} {out : Bytes}
    (h : a.encode r = .ok out) (hl : out.length < UInt32.size) : a.value.Counted := by
  obtain ⟨value, hvalue, h⟩ := bind_eq_ok.mp h
  obtain rfl := pure_eq_ok.mp h
  rw [List.length_cons] at hl
  exact AnnotationValue.counted_of_encode a.value hvalue (by omega)

end AnnotationItem

/-! ## Offsets -/

/-- The offset of an item that need not be is 0, or it leads to the item. -/
theorem Gathered.Places.offset_cases {g : Gathered} {part : Option Part} {id : Option Nat}
    (h : g.Places part id) {s : DataSection} {what : String} {offset : UInt32}
    (ho : s.optionalOffset what id = .ok offset) :
    (part = none ∧ id = none ∧ offset = 0) ∨
      ∃ p ∈ part, s.offset what (g.id? p) = .ok offset := by
  cases id with
  | none =>
    cases part with
    | none =>
      cases ho
      exact .inl ⟨rfl, rfl, rfl⟩
    | some p => exact h.elim
  | some i =>
    obtain ⟨p, hp, hid⟩ := h.exists_part rfl
    exact .inr ⟨p, hp, hid ▸ ho⟩

/-- Likewise for a list that is stored unless it is empty. -/
theorem Gathered.Places.list_cases {α : Type} {g : Gathered} {part : List α → Part} {items : List α}
    {id : Option Nat} (h : g.Places (Part.unlessEmpty part items) id) {s : DataSection}
    {what : String} {offset : UInt32} (ho : s.optionalOffset what id = .ok offset) :
    (items = [] ∧ offset = 0) ∨ s.offset what (g.id? (part items)) = .ok offset := by
  unfold Part.unlessEmpty at h
  rcases h.offset_cases ho with ⟨hnone, -, rfl⟩ | ⟨p, hp, ho⟩
  · split at hnone
    next hempty => exact .inl ⟨List.isEmpty_iff.mp hempty, rfl⟩
    · cases hnone
  · split at hp
    · cases hp
    · cases hp
      exact .inr ho

theorem decodeOffsets_reads (kind : OffsetListKind) {offsets : List UInt32}
    (hl : (encodeOffsets offsets).length < UInt32.size) :
    (decodeOffsets kind).Reads (encodeOffsets offsets) offsets := by
  have hlength : (offsets.flatMap Bytes.u4).length = offsets.length * 4 := by
    simp [List.length_flatMap]
  rw [encodeOffsets, List.length_append, hlength] at hl
  have hnat : (UInt32.ofNat offsets.length).toNat = offsets.length :=
    UInt32.toNat_ofNat_of_lt' (by omega)
  apply (Decoder.u4_reads _).bind
  apply Decoder.Reads.available
  intro room hroom
  rw [hlength] at hroom
  rw [hnat, if_neg (by omega)]
  have hread := Decoder.Reads.repeated_map Bytes.u4 id offsets fun x _ => Decoder.u4_reads x
  rwa [List.map_id] at hread

theorem MemberOffset.decode_reads (m : MemberOffset) : decode.Reads m.encode m :=
  (Decoder.u4_reads m.member).bind (Decoder.u4_reads m.offset).map

theorem OffsetDirectory.decode_reads {x : OffsetDirectory} (hl : x.encode.length < UInt32.size) :
    decode.Reads x.encode x := by
  have hlength (ms : List MemberOffset) : (ms.flatMap MemberOffset.encode).length = ms.length * 8 := by
    simp [List.length_flatMap, MemberOffset.encode]
  have hread (ms : List MemberOffset) :
      (MemberOffset.decode.repeated ms.length).Reads (ms.flatMap MemberOffset.encode) ms := by
    have := Decoder.Reads.repeated_map MemberOffset.encode id ms fun m _ => m.decode_reads
    rwa [List.map_id] at this
  simp only [encode, List.flatMap_append, List.append_assoc, List.length_append, hlength] at hl ⊢
  have hnat {n : Nat} (hn : n < UInt32.size) : (UInt32.ofNat n).toNat = n :=
    UInt32.toNat_ofNat_of_lt' hn
  apply Decoder.Reads.position
  intro start
  apply (Decoder.u4_reads _).bind
  apply (Decoder.u4_reads _).bind
  apply (Decoder.u4_reads _).bind
  apply (Decoder.u4_reads _).bind
  apply Decoder.Reads.available
  intro room hroom
  simp only [List.length_append, hlength] at hroom
  rw [hnat (by omega), hnat (by omega), hnat (by omega), if_neg (by omega)]
  apply (hread x.fields).bind
  apply (hread x.methods).bind
  exact (hread x.parameters).map

namespace DexFile

/-! ## Entries for members -/

section
variable {α : Type} {entries : List (UInt32 × List α)} {index : UInt32} {as : List α}

theorem lastFor_of_mem (hd : (entries.map Prod.fst).Nodup) (h : (index, as) ∈ entries) :
    lastFor entries index = as := by
  have hd : (entries.reverse.map Prod.fst).Nodup := by
    rw [List.map_reverse]
    exact List.nodup_reverse.mpr hd
  rw [lastFor, lookup_of_mem hd (List.mem_reverse.mpr h)]
  rfl

theorem lastFor_of_notMem (h : index ∉ entries.map Prod.fst) : lastFor entries index = [] := by
  unfold lastFor
  cases hl : entries.reverse.lookup index with
  | none => rfl
  | some as =>
    have hmem := List.mem_reverse.mp (mem_of_lookup hl)
    exact absurd (List.mem_map.mpr ⟨_, hmem, rfl⟩) h

end

section
variable {ω α β γ : Type} {index : α → Result UInt32} {offset : List β → Result UInt32}
  {read : UInt32 → Result (List γ)} {g : β → γ} {id : ω → α} {part : ω → List β} {owners : List ω}

/-- The owners that have something, each with what it has. -/
def kept (id : ω → α) (part : ω → List β) (owners : List ω) : List (α × List β) :=
  owners.filterMap fun w => if (part w).isEmpty then none else some (id w, part w)

theorem mem_kept {a : α} {bs : List β} :
    (a, bs) ∈ kept id part owners ↔ ∃ w ∈ owners, bs ≠ [] ∧ id w = a ∧ part w = bs := by
  rw [kept, List.mem_filterMap]
  constructor
  · rintro ⟨w, hw, hsome⟩
    split at hsome
    · cases hsome
    next hne =>
      cases hsome
      exact ⟨w, hw, by simpa using hne, rfl, rfl⟩
  · rintro ⟨w, hw, hne, rfl, rfl⟩
    exact ⟨w, hw, by rw [if_neg (by simpa using hne)]⟩

theorem filter_eq_kept (owners : List (α × List β)) :
    owners.filter (fun e => !e.2.isEmpty) = kept Prod.fst Prod.snd owners := by
  rw [kept, ← List.filterMap_eq_filter]
  refine List.filterMap_congr fun e _ => ?_
  cases he : e.2.isEmpty <;> simp [he]

theorem kept_sublist : ((kept id part owners).map Prod.fst).Sublist (owners.map id) := by
  induction owners with
  | nil => exact .slnil
  | cons w ws ih =>
    rw [kept, List.filterMap_cons]
    split
    next => exact ih.cons _
    next e he =>
      split at he
      · cases he
      · cases he
        exact ih.cons_cons _

/-- Where the owners that have something are the ones with an entry, each owner gets what is its own,
and the others get nothing. -/
theorem lastFor_kept (hinjective : ∀ a b i, index a = .ok i → index b = .ok i → a = b)
    (hd : (owners.map id).Nodup) {told : List (UInt32 × List γ)} (hindices : (told.map Prod.fst).Nodup)
    (hfrom : ∀ i ∈ told.map Prod.fst, ∃ e ∈ kept id part owners, index e.1 = .ok i)
    (hto : ∀ e ∈ kept id part owners, ∀ i, index e.1 = .ok i → (i, e.2.map g) ∈ told) {w : ω}
    (hw : w ∈ owners) {i : UInt32} (hi : index (id w) = .ok i) :
    lastFor told i = (part w).map g := by
  by_cases hpart : part w = []
  · rw [hpart, List.map_nil]
    apply lastFor_of_notMem
    intro hmem
    obtain ⟨e, he, hindex⟩ := hfrom i hmem
    obtain ⟨v, hv, hne, hid, hpartv⟩ := mem_kept.mp he
    have hsame : v = w :=
      List.inj_on_of_nodup_map hd hv hw (hid.trans (hinjective _ _ _ hindex hi))
    exact hne (by rw [← hpartv, hsame, hpart])
  · exact lastFor_of_mem hindices (hto _ (mem_kept.mpr ⟨w, hw, hpart, rfl, rfl⟩) i hi)

/-- A directory tells every owner what is its own. -/
theorem exists_told (hinjective : ∀ a b i, index a = .ok i → index b = .ok i → a = b)
    (hread : ∀ bs x, offset bs = .ok x → read x = .ok (bs.map g)) (hd : (owners.map id).Nodup)
    {members : List MemberOffset}
    (h : Contents.memberOffsets index offset (kept id part owners) = .ok members) :
    ∃ told, members.mapM (fun m => return (m.member, ← read m.offset)) = .ok told ∧
      ∀ w ∈ owners, ∀ i, index (id w) = .ok i → lastFor told i = (part w).map g := by
  obtain ⟨found, hfound, h⟩ := bind_eq_ok.mp h
  have heach : List.Forall₂ (fun (e : α × List β) (m : MemberOffset) =>
      index e.1 = .ok m.member ∧ read m.offset = .ok (e.2.map g)) (kept id part owners) found := by
    refine (mapM_eq_ok.mp hfound).imp fun e m hm => ?_
    obtain ⟨member, hmember, hm⟩ := bind_eq_ok.mp hm
    obtain ⟨place, hplace, hm⟩ := bind_eq_ok.mp hm
    obtain rfl := pure_eq_ok.mp hm
    exact ⟨hmember, hread _ _ hplace⟩
  have hperm : members.Perm found := pure_eq_ok.mp h ▸ sortedBy_perm _ _
  have hkept : ∀ m ∈ members, ∃ e ∈ kept id part owners, index e.1 = .ok m.member ∧
      read m.offset = .ok (e.2.map g) := fun m hm => exists_left_of_mem heach (hperm.mem_iff.mp hm)
  obtain ⟨told, htold⟩ : ∃ told, members.mapM (fun m => return (m.member, ← read m.offset)) =
      (.ok told : Result (List (UInt32 × List γ))) := by
    refine exists_mapM_eq_ok fun m hm => ?_
    obtain ⟨e, -, -, hm⟩ := hkept m hm
    exact ⟨_, bind_eq_ok.mpr ⟨_, hm, rfl⟩⟩
  have hentries : List.Forall₂ (fun (m : MemberOffset) (t : UInt32 × List γ) =>
      t.1 = m.member ∧ read m.offset = .ok t.2) members told := by
    refine (mapM_eq_ok.mp htold).imp fun m t ht => ?_
    obtain ⟨cs, hcs, ht⟩ := bind_eq_ok.mp ht
    obtain rfl := pure_eq_ok.mp ht
    exact ⟨rfl, hcs⟩
  have hmembers : members.map MemberOffset.member = told.map Prod.fst :=
    map_eq_of_forall₂ hentries fun _ _ _ ht => ht.1.symm
  -- an owner has at most one entry, and so has its index
  have hindices : (found.map MemberOffset.member).Nodup :=
    nodup_of_forall₂ hinjective (heach.imp fun _ _ => And.left) (hd.sublist kept_sublist)
  refine ⟨told, htold, fun w hw i hi => lastFor_kept hinjective hd ?_ ?_ ?_ hw hi⟩
  · exact hmembers ▸ (hperm.map _).nodup_iff.mpr hindices
  · intro i hmem
    rw [← hmembers] at hmem
    obtain ⟨m, hm, rfl⟩ := List.mem_map.mp hmem
    obtain ⟨e, he, hindex, -⟩ := hkept m hm
    exact ⟨e, he, hindex⟩
  · intro e he i hi
    obtain ⟨m, hm, hindex, hread⟩ := exists_left_of_mem heach.flip he
    obtain ⟨t, ht, hmember, hvalue⟩ := exists_left_of_mem hentries.flip (hperm.mem_iff.mpr hm)
    have hfst : t.1 = i := hmember.trans (Except.ok.inj (hindex.symm.trans hi))
    have hsnd : t.2 = e.2.map g := Except.ok.inj (hvalue.symm.trans hread)
    exact hfst ▸ hsnd ▸ ht

end

/-! ## Sets and directories -/

section
variable {f : DexFile} {o : WriteOptions} {c : Contents} {d : Contents.Data} {offset : UInt32}
  {what : String} (h : f.Holds o c d) (hp : c.pools.Short)
  (hm : ∀ m ∈ c.pools.methodHandles.toList, m.IsConsistent) (hn : c.Shallow)
include h hp hm hn

theorem annotationAt_eq {a : AnnotationItem}
    (ho : d.annotations.offset what (c.items.annotations.id? a) = .ok offset) :
    offset ≠ 0 ∧ f.annotationAt offset = .ok a.normal := by
  obtain ⟨hne, part, hpart, hstands⟩ := h.data.annotations.of_offset_id h.small ho
  have hsmall := h.small
  have hinside := hstands.length_le
  have hmem := DataSection.mem_of_offset_id ho
  have hread := AnnotationItem.decode_reads (source_inverse h hp hm hn).toInverseOnValues
    (AnnotationItem.counted_of_encode hpart (by omega)) (hn.annotations a hmem) hpart
  rw [annotationAt, hread.valueAt hstands]
  exact ⟨hne, rfl⟩

theorem annotationSet_eq {set : List AnnotationItem}
    (ho : c.setOffset d.annotationSets set = .ok offset) :
    f.annotationSet offset = .ok (set.map AnnotationItem.normal) := by
  unfold Contents.setOffset at ho
  split at ho
  next hempty =>
    cases ho
    rw [List.isEmpty_iff.mp hempty]
    rfl
  · obtain ⟨hne, part, hpart, hstands⟩ := h.data.annotationSets.of_offset_id h.small ho
    have hsmall := h.small
    have hinside := hstands.length_le
    obtain ⟨offsets, hoffsets, hpart⟩ := bind_eq_ok.mp hpart
    obtain rfl := pure_eq_ok.mp hpart
    have heach : List.Forall₂ (fun a x => x ≠ 0 ∧ f.annotationAt x = .ok a.normal) set offsets :=
      (mapM_eq_ok.mp hoffsets).imp fun a x hx => annotationAt_eq h hp hm hn hx
    have hall : offsets.filter (· ≠ 0) = offsets := by
      refine List.filter_eq_self.mpr fun x hx => ?_
      obtain ⟨a, -, hne, -⟩ := exists_left_of_mem heach hx
      simpa using hne
    rw [annotationSet, if_neg hne, (decodeOffsets_reads .set (by omega)).valueAt hstands, ok_bind,
      hall]
    exact mapM_eq_ok.mpr (List.forall₂_map_right_iff.mpr (heach.flip.imp fun _ _ => And.right))

theorem annotationSetList_eq {sets : List (List AnnotationItem)}
    (ho : d.annotationSetLists.offset what (c.items.annotationSetLists.id? sets) = .ok offset) :
    f.annotationSetList offset = .ok (sets.map fun set => set.map AnnotationItem.normal) := by
  obtain ⟨-, part, hpart, hstands⟩ := h.data.annotationSetLists.of_offset_id h.small ho
  have hsmall := h.small
  have hinside := hstands.length_le
  obtain ⟨offsets, hoffsets, hpart⟩ := bind_eq_ok.mp hpart
  obtain rfl := pure_eq_ok.mp hpart
  have heach := (mapM_eq_ok.mp hoffsets).imp fun set x hx => annotationSet_eq h hp hm hn hx
  rw [annotationSetList, (decodeOffsets_reads .setList (by omega)).valueAt hstands, ok_bind]
  exact mapM_eq_ok.mpr (List.forall₂_map_right_iff.mpr heach.flip)

/-- What has been read of annotations gives each member of a class its own. -/
structure Annotations.Tells (a : Annotations) (r : Resolver) (ofClass : List AnnotationItem)
    (fields : List (FieldId × List AnnotationItem))
    (methods : List (MethodEntry × List AnnotationItem × List (List AnnotationItem))) : Prop where
  ofClass : a.ofClass = ofClass.map AnnotationItem.normal
  ofFields : ∀ e ∈ fields, ∀ i, r.field e.1 = .ok i →
    lastFor a.ofFields i = e.2.map AnnotationItem.normal
  ofMethods : ∀ e ∈ methods, ∀ i, r.method e.1.id = .ok i →
    lastFor a.ofMethods i = e.2.1.map AnnotationItem.normal
  ofParameters : ∀ e ∈ methods, ∀ i, r.method e.1.id = .ok i →
    lastFor a.ofParameters i = e.2.2.map fun set => set.map AnnotationItem.normal

theorem exists_directory {ofClass : List AnnotationItem}
    {fields : List (FieldId × List AnnotationItem)}
    {methods : List (MethodEntry × List AnnotationItem × List (List AnnotationItem))}
    {owner : Option TypeId} {part : Bytes} (hfields : (fields.map Prod.fst).Nodup)
    (hmethods : (methods.map fun e => e.1.id).Nodup)
    (hpart : c.encodeDirectory d.annotationSets d.annotationSetLists
      ⟨owner, ofClass, kept Prod.fst Prod.snd fields, kept (fun e => e.1.id) (fun e => e.2.1) methods,
        kept (fun e => e.1.id) (fun e => e.2.2) methods⟩ = .ok part)
    (hl : part.length < UInt32.size) :
    ∃ a, f.decodeDirectory.Reads part a ∧ a.Tells c.resolver ofClass fields methods := by
  obtain ⟨fieldOffsets, hfieldOffsets, hpart⟩ := bind_eq_ok.mp hpart
  obtain ⟨methodOffsets, hmethodOffsets, hpart⟩ := bind_eq_ok.mp hpart
  obtain ⟨listOffsets, hlistOffsets, hpart⟩ := bind_eq_ok.mp hpart
  obtain ⟨classOffset, hclassOffset, hpart⟩ := bind_eq_ok.mp hpart
  obtain rfl := pure_eq_ok.mp hpart
  have set_read (set : List AnnotationItem) (x : UInt32)
      (hx : c.setOffset d.annotationSets set = .ok x) :
      f.annotationSet x = .ok (set.map AnnotationItem.normal) := annotationSet_eq h hp hm hn hx
  obtain ⟨ofFields, hofFields, tellsFields⟩ :=
    exists_told hp.field_injective set_read hfields hfieldOffsets
  obtain ⟨ofMethods, hofMethods, tellsMethods⟩ :=
    exists_told hp.method_injective set_read hmethods hmethodOffsets
  obtain ⟨ofParameters, hofParameters, tellsParameters⟩ :=
    exists_told hp.method_injective (fun sets x hx => annotationSetList_eq h hp hm hn hx) hmethods
      hlistOffsets
  have told_reads {α : Type} {read : UInt32 → Result α} {members : List MemberOffset}
      {told : List (UInt32 × α)}
      (htold : members.mapM (fun m => return (m.member, ← read m.offset)) = .ok told) :
      (members.mapM fun m => return (m.member, ← read m.offset) :
        Decoder (List (UInt32 × α))).Reads [] told := by
    refine .mapM ((mapM_eq_ok.mp htold).imp fun m entry hentry => ?_)
    obtain ⟨value, hvalue, hentry⟩ := bind_eq_ok.mp hentry
    obtain rfl := pure_eq_ok.mp hentry
    exact .lift hvalue (.pure _)
  refine ⟨⟨ofClass.map AnnotationItem.normal, ofFields, ofMethods, ofParameters⟩, ?_,
    rfl, tellsFields, tellsMethods, tellsParameters⟩
  apply (OffsetDirectory.decode_reads hl).bind_last
  apply Decoder.Reads.lift (set_read _ _ hclassOffset)
  apply (told_reads hofFields).bind_nil
  apply (told_reads hofMethods).bind_nil
  apply (told_reads hofParameters).bind_nil
  exact .pure _

/-- The annotations of a class and of its members are those that were stored for them. -/
theorem exists_annotations {g : Gathered} (hg : c.items = g.items) {x : ClassDef}
    {ofClass : List AnnotationItem} {fields : List (FieldId × List AnnotationItem)}
    {methods : List (MethodEntry × List AnnotationItem × List (List AnnotationItem))}
    {id : Option Nat} (hfields : (fields.map Prod.fst).Nodup)
    (hmethods : (methods.map fun e => e.1.id).Nodup)
    (hplace : g.Places ((Gather.directoryOf x ofClass fields methods).map .directory) id)
    (ho : d.directories.optionalOffset what id = .ok offset) :
    ∃ a, f.annotations offset = .ok a ∧ a.Tells c.resolver ofClass fields methods := by
  rcases hplace.offset_cases ho with ⟨hnone, -, rfl⟩ | ⟨part, hpart, ho⟩
  · obtain ⟨hclass, hsets, hmethods⟩ := Gather.eq_nil_of_directoryOf (Option.map_eq_none_iff.mp hnone)
    refine ⟨{}, rfl, ?_⟩
    exact {
      ofClass := by rw [hclass]; rfl
      ofFields := fun e he _ _ => by rw [hsets e he]; rfl
      ofMethods := fun e he _ _ => by rw [(hmethods e he).1]; rfl
      ofParameters := fun e he _ _ => by rw [(hmethods e he).2]; rfl }
  · obtain ⟨directory, hdirectory, rfl⟩ := Option.map_eq_some_iff.mp hpart
    obtain ⟨owner, rfl⟩ := Gather.exists_owner_of_directoryOf hdirectory
    have ho : d.directories.offset what (g.items.directories.id? _) = .ok offset := ho
    rw [← hg] at ho
    obtain ⟨hne, bytes, hbytes, hstands⟩ := h.data.directories.of_offset_id h.small ho
    rw [filter_eq_kept] at hbytes
    have hsmall := h.small
    have hinside := hstands.length_le
    obtain ⟨a, hread, htells⟩ := exists_directory h hp hm hn hfields hmethods hbytes (by omega)
    refine ⟨a, ?_, htells⟩
    rw [annotations, if_neg hne, hread.valueAt hstands]
    rfl

end

end DexFile

end Dalvik
