import Dalvik.Proofs.Code.Parts
import Dalvik.Proofs.Gather.Classes
import Dalvik.Proofs.Pools
import Dalvik.Proofs.Resolved.Encoders
import Dalvik.Proofs.Resolved.Sections

/-!
# Data without dangling references

The pools hold what has been gathered, and what has been gathered holds whatever its parts need. So
every section of the data finds its references, and the offsets of the sections before it.
-/
namespace Dalvik
open Result

/-! ## Pools -/

theorem Pools.resolved_lookup {α : Type} [BEq α] [Hashable α] {cmp : α → α → Ordering}
    [Std.TransCmp cmp] [Std.LawfulEqCmp cmp] {set : ItemSet α}
    (hs : set.toList.Pairwise fun a b => cmp a b = .lt) {a : α} (h : a ∈ set.toList)
    (kind : PoolKind) (text : String) : (lookup cmp set kind text a).Resolved := by
  obtain ⟨place, hplace⟩ := List.mem_iff_getElem?.mp h
  rw [(lookup_eq_ok_iff hs).mpr ⟨place, hplace, rfl⟩]
  trivial

/-- True if the reference leads to an entry of the pools. -/
def Pools.Holds (p : Pools) : Reference → Prop
  | .string s => s ∈ p.strings.toList
  | .type t => t ∈ p.types.toList
  | .proto q => q ∈ p.protos.toList
  | .field f => f ∈ p.fields.toList
  | .method m => m ∈ p.methods.toList
  | .methodHandle h => h ∈ p.methodHandles.toList
  | .callSite c => c ∈ p.callSites.toList
  | .raw _ => True

theorem Pools.knows_of_holds {e : PoolEntries} {p : Pools} (hb : build e = .ok p) {r : Reference}
    (h : p.Holds r) : p.resolver.Knows r := by
  rw [eq_of_build hb] at h ⊢
  cases r with
  | raw => trivial
  | _ => exact resolved_lookup pairwise_lt_pool h _ _

namespace Gathered.Fills

variable {o : WriteOptions} {d : Dex} {g : Gathered} {c : Contents}

/-- The pools hold what has been gathered. -/
theorem holds_iff (h : g.Fills o d c) {r : Reference} :
    c.pools.Holds r ↔ g.Has (.reference r) := by
  rw [Pools.eq_of_build h.pools]
  cases r with
  | raw => exact ⟨fun _ => ⟨0, rfl⟩, fun _ => trivial⟩
  | _ => exact Pools.mem_pool.trans ItemSet.mem_toList_iff

theorem knows (h : g.Fills o d c) {r : Reference} (hr : g.Has (.reference r)) :
    c.resolver.Knows r := Pools.knows_of_holds h.pools (h.holds_iff.mpr hr)

theorem knows_of_needs (h : g.Fills o d c) {p : Part} {r : Reference} (hp : g.Has p)
    (hr : .reference r ∈ p.needs) : c.resolver.Knows r := h.knows (h.has hp hr)

/-! ## The data -/

theorem resolved_debugInfoSection (h : g.Fills o d c) (start : Nat) :
    (c.debugInfoSection start).Resolved := by
  refine DataSection.resolved_ofItems fun i hi => DebugInfo.resolved_encode fun r hr => ?_
  rw [h.items] at hi
  exact h.knows_of_needs (p := .debugInfo i) (ItemSet.mem_toList_iff.mp hi)
    (List.mem_map_of_mem hr)

theorem resolved_encodedArraySection (h : g.Fills o d c) (start : Nat) :
    (c.encodedArraySection start).Resolved := by
  refine DataSection.resolved_ofItems fun vs hvs => resolved_encodeArray fun r hr => ?_
  rw [h.items] at hvs
  exact h.knows_of_needs (p := .encodedArray vs) (ItemSet.mem_toList_iff.mp hvs)
    (List.mem_append_left _ (List.mem_map_of_mem hr))

theorem resolved_annotationSection (h : g.Fills o d c) (start : Nat) :
    (c.annotationSection start).Resolved := by
  refine DataSection.resolved_ofItems fun a ha => AnnotationItem.resolved_encode fun r hr => ?_
  rw [h.items] at ha
  exact h.knows_of_needs (p := .annotationItem a) (ItemSet.mem_toList_iff.mp ha)
    (List.mem_cons_of_mem _ (List.mem_map_of_mem hr))

theorem resolved_typeListSection (h : g.Fills o d c) (start : Nat) :
    (c.typeListSection start).Resolved := by
  refine DataSection.resolved_ofItems fun ts hts => Contents.resolved_encodeTypeList fun t ht => ?_
  rw [h.items] at hts
  exact h.knows_of_needs (p := .typeList ts) (ItemSet.mem_toList_iff.mp hts)
    (List.mem_map.mpr ⟨t, ht, rfl⟩)

theorem resolved_annotationSetSection (h : g.Fills o d c) {annotations : DataSection}
    (ha : annotations.Covers c.items.annotations.toList.length) (start : Nat) :
    (c.annotationSetSection annotations start).Resolved := by
  refine DataSection.resolved_ofItems fun set hset => Resolved.bind ?_ fun _ _ => trivial
  refine resolved_mapM fun a hmem => ha.resolved_offset_id ?_ _
  rw [h.items] at hset ⊢
  exact h.has (p := .annotationSet set) (q := .annotationItem a) (ItemSet.mem_toList_iff.mp hset)
    (List.mem_map_of_mem hmem)

theorem resolved_setOffset (h : g.Fills o d c) {sets : DataSection}
    (hs : sets.Covers c.items.annotationSets.toList.length) {set : List AnnotationItem}
    (hset : ∀ p ∈ Part.ofSet set, g.Has p) : (c.setOffset sets set).Resolved := by
  refine resolved_ite (fun _ => trivial) fun hne => hs.resolved_offset_id ?_ _
  rw [h.items]
  exact hset (.annotationSet set) (by rw [Part.ofSet, if_neg hne]; exact List.mem_singleton_self _)

theorem resolved_annotationSetListSection (h : g.Fills o d c) {sets : DataSection}
    (hs : sets.Covers c.items.annotationSets.toList.length) (start : Nat) :
    (c.annotationSetListSection sets start).Resolved := by
  refine DataSection.resolved_ofItems fun list hlist => Resolved.bind ?_ fun _ _ => trivial
  refine resolved_mapM fun set hset => h.resolved_setOffset hs fun p hp => ?_
  rw [h.items] at hlist
  exact h.has (p := .annotationSetList list) (ItemSet.mem_toList_iff.mp hlist)
    (List.mem_flatMap.mpr ⟨set, hset, hp⟩)

theorem resolved_memberOffsets {α β : Type} {index : α → Result UInt32} {offset : β → Result UInt32}
    {entries : List (α × β)} (hi : ∀ e ∈ entries, (index e.1).Resolved)
    (ho : ∀ e ∈ entries, (offset e.2).Resolved) :
    (Contents.memberOffsets index offset entries).Resolved :=
  (resolved_mapM fun e he => (hi e he).bind fun _ _ => (ho e he).bind fun _ _ =>
    resolved_pure _).bind fun _ _ => trivial

theorem resolved_directorySection (h : g.Fills o d c) {sets lists : DataSection}
    (hs : sets.Covers c.items.annotationSets.toList.length)
    (hl : lists.Covers c.items.annotationSetLists.toList.length) (start : Nat) :
    (c.directorySection sets lists start).Resolved := by
  refine DataSection.resolved_ofItems fun dir hdir => ?_
  rw [h.items] at hdir
  have has (p : Part) (hp : p ∈ Part.ofDirectory dir) : g.Has p :=
    h.has (p := .directory dir) (ItemSet.mem_toList_iff.mp hdir) hp
  simp only [Part.ofDirectory, List.mem_append, List.mem_flatMap, List.mem_cons,
    List.not_mem_nil, or_false] at has
  refine (resolved_memberOffsets (fun e he => ?_) fun e he => ?_).bind fun _ _ => ?_
  · exact h.knows (has (.reference (.field e.1)) (.inl (.inl (.inr ⟨e, he, .inl rfl⟩))))
  · exact h.resolved_setOffset hs fun p hp => has p (.inl (.inl (.inr ⟨e, he, .inr hp⟩)))
  refine (resolved_memberOffsets (fun e he => ?_) fun e he => ?_).bind fun _ _ => ?_
  · exact h.knows (has (.reference (.method e.1)) (.inl (.inr ⟨e, he, .inl rfl⟩)))
  · exact h.resolved_setOffset hs fun p hp => has p (.inl (.inr ⟨e, he, .inr hp⟩))
  refine (resolved_memberOffsets (fun e he => ?_) fun e he => hl.resolved_offset_id ?_ _).bind
    fun _ _ => ?_
  · exact h.knows (has (.reference (.method e.1)) (.inr ⟨e, he, .inl rfl⟩))
  · rw [h.items]
    exact has (.annotationSetList e.2) (.inr ⟨e, he, .inr rfl⟩)
  · refine (h.resolved_setOffset hs fun p hp => ?_).bind fun _ _ => trivial
    exact has p (.inl (.inl (.inl hp)))

/-! ## Code -/

theorem resolved_placeCode (h : g.Fills o d c) {table : OpcodeTable} {debug : DataSection}
    (hd : ¬ o.version.isCompact → debug.Covers c.items.debugInfos.toList.length) {position : Nat}
    {entry : SharedCode × Nat} (he : entry.1 ∈ c.items.code.toList) :
    (c.placeCode o table debug position entry).Resolved := by
  obtain ⟨s, id⟩ := entry
  rw [h.items] at he
  have there : g.Has (.code s) := ItemSet.mem_toList_iff.mp he
  have refers {r : Reference} (hr : r ∈ s.code.references) : c.resolver.Knows r :=
    h.knows_of_needs there (List.mem_append_left _ (List.mem_map_of_mem hr))
  have offset : (debug.optionalOffset "debug info" s.debug).Resolved := by
    by_cases ho : o.version.isCompact
    · rw [h.sound.compact ho s there]
      trivial
    · refine (hd ho).resolved_optionalOffset (fun i hi => ?_) _
      have : .debugAt i ∈ (Part.code s).needs :=
        List.mem_append_right _ (List.mem_map.mpr ⟨i, by simpa using hi, rfl⟩)
      obtain ⟨_, hid⟩ := h.has there this
      obtain ⟨info, hinfo, -⟩ := Option.map_eq_some_iff.mp hid
      rw [h.items]
      exact ItemSet.lt_length_of_id? (ItemSet.id?_eq_some_iff.mpr hinfo)
  refine offset.bind fun _ _ => ?_
  have item (debugOffset : UInt32) : (CodeItem.encode o.version.isCompact table c.resolver position
      ⟨s.code.registers, s.incoming, s.outgoing, debugOffset, s.code.instructions,
        s.code.tries⟩).Resolved := by
    refine CodeItem.resolved_encode (fun i hi r hr => refers ?_) fun t ht e he => refers ?_
    · exact List.mem_append_left _ (List.mem_flatMap.mpr ⟨i, hi, hr⟩)
    · exact List.mem_append_right _ (List.mem_flatMap.mpr ⟨t, ht, List.mem_map.mpr ⟨e, he, rfl⟩⟩)
  split
  · exact resolved_within.mpr (item _)
  · exact item _

theorem resolved_codeSection (h : g.Fills o d c) {debug : DataSection}
    (hd : ¬ o.version.isCompact → debug.Covers c.items.debugInfos.toList.length) (start : Nat) :
    (c.codeSection o debug start).Resolved :=
  DataSection.resolved_build fun _ _ he => h.resolved_placeCode hd (List.fst_mem_of_mem_zipIdx he)

end Gathered.Fills

theorem Contents.le_offset_of_placeCode {c : Contents} {o : WriteOptions} {table : OpcodeTable}
    {debug : DataSection} {position : Nat} {entry : SharedCode × Nat} {p : Placed}
    (h : c.placeCode o table debug position entry = .ok p) : position ≤ p.offset := by
  obtain ⟨debugOffset, -, h⟩ := bind_eq_ok.mp h
  split at h
  · exact CodeItem.le_offset_of_encode (within_eq_ok_iff.mp h)
  · exact CodeItem.le_offset_of_encode h

/-! ## Classes -/

theorem Contents.resolved_storedAccess (o : WriteOptions) (access restriction : UInt32) :
    (storedAccess o access restriction).Resolved := by
  refine resolved_ite (fun _ => ?_) fun _ => trivial
  unfold HiddenApi.pack
  split
  · trivial
  · exact resolved_unsupported _

theorem Contents.resolved_encodeFields {r : Resolver} {o : WriteOptions} {fields : List FieldEntry}
    (previous : UInt32) (h : ∀ f ∈ fields, r.Knows (.field f.id)) :
    (encodeFields r o previous fields).Resolved := by
  induction fields generalizing previous with
  | nil => trivial
  | cons f fields ih =>
    refine Resolved.bind (h f List.mem_cons_self) fun index _ => ?_
    refine Resolved.bind (resolved_within.mpr (resolved_storedAccess _ _ _)) fun _ _ => ?_
    exact (ih index fun x hx => h x (List.mem_cons_of_mem f hx)).bind fun _ _ => trivial

theorem Contents.resolved_encodeMethods {r : Resolver} {o : WriteOptions} {code : DataSection}
    {methods : List MethodEntry} (previous : UInt32)
    (h : ∀ m ∈ methods, r.Knows (.method m.id) ∧ (code.optionalOffset "code item" m.code).Resolved) :
    (encodeMethods r o code previous methods).Resolved := by
  induction methods generalizing previous with
  | nil => trivial
  | cons m methods ih =>
    obtain ⟨hid, hcode⟩ := h m List.mem_cons_self
    refine Resolved.bind hid fun index _ => ?_
    refine Resolved.bind (resolved_within.mpr (resolved_storedAccess _ _ _)) fun _ _ => ?_
    refine hcode.bind fun _ _ => ?_
    exact (ih index fun x hx => h x (List.mem_cons_of_mem m hx)).bind fun _ _ => trivial

namespace Gathered.Fills

variable {o : WriteOptions} {d : Dex} {g : Gathered} {c : Contents}

theorem holdsClass (h : g.Fills o d c) {e : ClassEntry} (he : e ∈ c.classes) :
    g.HoldsClass o e.definition e := by
  obtain ⟨definition, -, holds⟩ := exists_left_of_mem h.classes he
  rw [holds.definition]
  exact holds

theorem knows_of_will (h : g.Fills o d c) {r : Reference} (hr : g.Will (.reference r)) :
    c.resolver.Knows r := h.knows ((will_iff h.deferred).mp hr)

theorem knows_field (h : g.Fills o d c) {e : ClassEntry} (he : e ∈ c.classes) {f : FieldEntry}
    (hf : f ∈ e.fields) : c.resolver.Knows (.field f.id) :=
  h.knows_of_will ((h.holdsClass he).will_field hf)

theorem knows_method (h : g.Fills o d c) {e : ClassEntry} (he : e ∈ c.classes) {m : MethodEntry}
    (hm : m ∈ e.methods) : c.resolver.Knows (.method m.id) := by
  obtain ⟨p, sets, holds⟩ := (h.holdsClass he).holdsMethod hm
  have reference := h.knows_of_will holds.reference
  rwa [← holds.id] at reference

/-- The code of a method is among the items. -/
theorem code_lt (h : g.Fills o d c) {e : ClassEntry} (he : e ∈ c.classes) {m : MethodEntry}
    (hm : m ∈ e.methods) : ∀ i ∈ m.code, i < c.items.code.toList.length := by
  intro i hi
  obtain ⟨p, sets, holds⟩ := (h.holdsClass he).holdsMethod hm
  obtain ⟨part, hpart, hid⟩ := holds.code.exists_part hi
  obtain ⟨s, -, rfl⟩ := Option.map_eq_some_iff.mp hpart
  rw [h.items]
  exact ItemSet.lt_length_of_id? hid

theorem debug_lt (h : g.Fills o d c) {e : ClassEntry} (he : e ∈ c.classes) {m : MethodEntry}
    (hm : m ∈ e.methods) : ∀ i ∈ m.debug, i < c.items.debugInfos.toList.length := by
  intro i hi
  obtain ⟨p, sets, holds⟩ := (h.holdsClass he).holdsMethod hm
  obtain ⟨part, hpart, hid⟩ := holds.debug.exists_part hi
  obtain ⟨s, -, rfl⟩ := Option.map_eq_some_iff.mp hpart
  rw [h.items]
  exact ItemSet.lt_length_of_id? hid

theorem resolved_encodeClassData (h : g.Fills o d c) {code : DataSection}
    (hc : code.Covers c.items.code.toList.length) {e : ClassEntry} (he : e ∈ c.classes) :
    (Contents.encodeClassData c.resolver o code e).Resolved := by
  have method {m : MethodEntry} (hm : m ∈ e.methods) : c.resolver.Knows (.method m.id) ∧
      (code.optionalOffset "code item" m.code).Resolved :=
    ⟨h.knows_method he hm, hc.resolved_optionalOffset (h.code_lt he hm) _⟩
  refine (Contents.resolved_encodeFields _ fun f hf => ?_).bind fun _ _ => ?_
  · exact h.knows_field he (List.mem_append_left _ hf)
  refine (Contents.resolved_encodeFields _ fun f hf => ?_).bind fun _ _ => ?_
  · exact h.knows_field he (List.mem_append_right _ hf)
  refine (Contents.resolved_encodeMethods _ fun m hm => ?_).bind fun _ _ => ?_
  · exact method (List.mem_append_left _ hm)
  refine (Contents.resolved_encodeMethods _ fun m hm => ?_).bind fun _ _ => trivial
  exact method (List.mem_append_right _ hm)

theorem resolved_classDataSection (h : g.Fills o d c) {code : DataSection}
    (hc : code.Covers c.items.code.toList.length) (start : Nat) :
    (c.classDataSection o code start).Resolved := by
  refine DataSection.resolved_build fun _ e he => resolved_ite (fun _ => ?_) fun _ => trivial
  exact (resolved_within.mpr (h.resolved_encodeClassData hc he)).bind fun _ _ => trivial

end Gathered.Fills

theorem Contents.resolved_hiddenApiSection (c : Contents) (o : WriteOptions) (start : Nat) :
    (c.hiddenApiSection o start).Resolved := by
  refine resolved_ite (fun _ => trivial) fun _ => resolved_ite (fun _ => ?_) fun _ => ?_
  · exact (resolved_unsupported _).bind fun _ h => nomatch h
  · exact DataSection.resolved_ofItems fun _ _ => trivial

/-! ## All sections -/

namespace Contents

variable {o : WriteOptions} {c : Contents} {start : Nat}

/-- Debug information and code with places behind `start`. -/
structure CodePlaced (c : Contents) (s : DataSection × DataSection) : Prop where
  debugInfos : s.1.Covers c.items.debugInfos.toList.length
  code : s.2.Covers c.items.code.toList.length
  debugStop : 0 < s.1.stop
  codeStop : 0 < s.2.stop

theorem covers_codeSection {debug code : DataSection} (hstart : 0 < start)
    (h : c.codeSection o debug start = .ok code) : code.Covers c.items.code.toList.length := by
  have := DataSection.covers_build le_offset_of_placeCode hstart h
  rwa [List.length_zipIdx] at this

theorem codePlaced {s : DataSection × DataSection} (hstart : 0 < start)
    (h : c.codeSections o start = .ok s) : c.CodePlaced s := by
  unfold codeSections at h
  split at h
  · obtain ⟨code, hc, h⟩ := bind_eq_ok.mp h
    obtain ⟨debugInfos, hd, h⟩ := bind_eq_ok.mp h
    obtain rfl := pure_eq_ok.mp h
    have stop := DataSection.stop_pos hstart hc
    exact ⟨DataSection.covers_ofItems stop hd, covers_codeSection hstart hc,
      DataSection.stop_pos stop hd, stop⟩
  · obtain ⟨debugInfos, hd, h⟩ := bind_eq_ok.mp h
    obtain ⟨code, hc, h⟩ := bind_eq_ok.mp h
    obtain rfl := pure_eq_ok.mp h
    have stop := DataSection.stop_pos hstart hd
    exact ⟨DataSection.covers_ofItems hstart hd, covers_codeSection stop hc, stop,
      DataSection.stop_pos stop hc⟩

theorem resolved_codeSections {d : Dex} {g : Gathered} (h : g.Fills o d c) (hstart : 0 < start) :
    (c.codeSections o start).Resolved := by
  refine resolved_ite (fun ho => ?_) fun ho => ?_
  · refine (h.resolved_codeSection (absurd ho) start).bind fun _ _ => ?_
    exact (h.resolved_debugInfoSection _).bind fun _ _ => trivial
  · refine (h.resolved_debugInfoSection start).bind fun debug hd => ?_
    have covers := DataSection.covers_ofItems hstart hd
    exact (h.resolved_codeSection (fun _ => covers) _).bind fun _ _ => trivial

/-- Sections in which the ids look offsets up. -/
structure Covered (c : Contents) (d : Data) : Prop where
  debugInfos : d.debugInfos.Covers c.items.debugInfos.toList.length
  encodedArrays : d.encodedArrays.Covers c.items.encodedArrays.toList.length
  directories : d.directories.Covers c.items.directories.toList.length
  typeLists : d.typeLists.Covers c.items.typeLists.toList.length

/-- The end of the part that comes first. -/
theorem CodePlaced.next_pos {s : DataSection × DataSection} (h : c.CodePlaced s) :
    0 < if o.version.isCompact then s.1.stop else s.2.stop := by
  split
  · exact h.debugStop
  · exact h.codeStop

theorem covered_of_data {d : Data} (hstart : 0 < start) (h : c.data o start = .ok d) :
    c.Covered d := by
  obtain ⟨s, hs, h⟩ := bind_eq_ok.mp h
  have code := codePlaced hstart hs
  have next := code.next_pos (o := o)
  obtain ⟨encodedArrays, ha, h⟩ := bind_eq_ok.mp h
  have arrayStop := DataSection.stop_pos next ha
  obtain ⟨annotations, hn, h⟩ := bind_eq_ok.mp h
  have annotationStop := DataSection.stop_pos arrayStop hn
  obtain ⟨sets, hsets, h⟩ := bind_eq_ok.mp h
  have setStop := DataSection.stop_pos annotationStop hsets
  obtain ⟨lists, hlists, h⟩ := bind_eq_ok.mp h
  have listStop := DataSection.stop_pos setStop hlists
  obtain ⟨directories, hdir, h⟩ := bind_eq_ok.mp h
  have directoryStop := DataSection.stop_pos listStop hdir
  obtain ⟨typeLists, htypes, h⟩ := bind_eq_ok.mp h
  obtain ⟨classData, -, h⟩ := bind_eq_ok.mp h
  obtain ⟨strings, -, h⟩ := bind_eq_ok.mp h
  obtain ⟨hiddenApi, -, h⟩ := bind_eq_ok.mp h
  obtain rfl := pure_eq_ok.mp h
  exact {
    debugInfos := code.debugInfos
    encodedArrays := DataSection.covers_ofItems next ha
    directories := DataSection.covers_ofItems listStop hdir
    typeLists := DataSection.covers_ofItems directoryStop htypes }

theorem resolved_data {d : Dex} {g : Gathered} (h : g.Fills o d c) (hstart : 0 < start) :
    (c.data o start).Resolved := by
  refine (resolved_codeSections h hstart).bind fun s hs => ?_
  have code := codePlaced hstart hs
  have next := code.next_pos (o := o)
  refine (h.resolved_encodedArraySection _).bind fun encodedArrays ha => ?_
  have arrayStop := DataSection.stop_pos next ha
  refine (h.resolved_annotationSection _).bind fun annotations hn => ?_
  have annotationStop := DataSection.stop_pos arrayStop hn
  refine (h.resolved_annotationSetSection (DataSection.covers_ofItems arrayStop hn) _).bind
    fun sets hsets => ?_
  have setCovers := DataSection.covers_ofItems annotationStop hsets
  have setStop := DataSection.stop_pos annotationStop hsets
  refine (h.resolved_annotationSetListSection setCovers _).bind fun lists hlists => ?_
  refine (h.resolved_directorySection setCovers (DataSection.covers_ofItems setStop hlists) _).bind
    fun _ _ => ?_
  refine (h.resolved_typeListSection _).bind fun _ _ => ?_
  refine (h.resolved_classDataSection code.code _).bind fun _ _ => ?_
  refine (DataSection.resolved_ofItems fun _ _ => resolved_ok _).bind fun _ _ => ?_
  exact (c.resolved_hiddenApiSection o _).bind fun _ _ => trivial

end Contents

end Dalvik
