import Dalvik.Proofs.File.Map
import Dalvik.Proofs.File.Spacing

/-!
# The numbers of items

The map counts the items that are there: as many ids as the pools have entries, and in each section
of the data an item for every value of its set.
-/
namespace Dalvik
open Result

/-! ## Items that are there -/

namespace DataSection

/-- The items that are there. -/
def present (s : DataSection) : List Placed := s.items.filter (·.offset != 0)

/-- The offset of the first of them. -/
def first (s : DataSection) : Nat := (s.present.head?.map Placed.offset).getD 0

variable {s : DataSection} {alignment start : Nat}

theorem mapItems_eq (s : DataSection) :
    s.mapItems = Contents.extentItem (s.kind, s.present.length, s.first) := by
  unfold mapItems Contents.extentItem first present
  cases s.items.filter (·.offset != 0) <;> rfl

theorem mem_present {p : Placed} : p ∈ s.present ↔ p ∈ s.items ∧ p.offset ≠ 0 := by
  rw [present, List.mem_filter, bne_iff_ne]

theorem Spaced.inside_present (h : s.Spaced alignment) {p : Placed} (hp : p ∈ s.present) :
    s.start ≤ p.offset ∧ p.offset < s.stop := by
  obtain ⟨hmem, hne⟩ := mem_present.mp hp
  obtain ⟨hle, hlt, -⟩ := h.inside p hmem hne
  exact ⟨hle, hlt⟩

/-- Every item takes a byte. -/
theorem Spaced.length_present_le (h : s.Spaced alignment) : s.present.length ≤ s.bytes.length := by
  have hpair : s.present.Pairwise fun p q => p.offset < q.offset := by
    refine (h.increasing.sublist List.filter_sublist).imp_of_mem fun hp hq hbefore => ?_
    exact hbefore (mem_present.mp hp).2 (mem_present.mp hq).2
  have hnodup : (s.present.map Placed.offset).Nodup :=
    List.pairwise_map.mpr (hpair.imp Nat.ne_of_lt)
  have hsubset : s.present.map Placed.offset ⊆ List.range' s.start s.bytes.length := by
    intro x hx
    obtain ⟨p, hp, rfl⟩ := List.mem_map.mp hx
    obtain ⟨hle, hlt⟩ := h.inside_present hp
    exact List.mem_range'_1.mpr ⟨hle, hlt⟩
  simpa using (List.subperm_of_subset hnodup hsubset).length_le

/-- The items that are there belong to the values that are given one. -/
theorem length_filter_of_all {α : Type} {place : Nat → α → Result Placed} {items : List α}
    {out : List Placed} (there : α → Bool) (hplace : ∀ {position a p}, 0 < position →
      place position a = .ok p → (p.offset != 0) = there a)
    (hpos : 0 < start) (h : Placed.all place start items = .ok out) :
    (out.filter (·.offset != 0)).length = (items.filter there).length := by
  induction items generalizing start out with
  | nil =>
    cases h
    rfl
  | cons a items ih =>
    obtain ⟨p, hp, h⟩ := bind_eq_ok.mp h
    obtain ⟨rest, hrest, h⟩ := bind_eq_ok.mp h
    obtain rfl := pure_eq_ok.mp h
    have hafter := ih (by omega) hrest
    rw [List.filter_cons, List.filter_cons, hplace hpos hp]
    split
    · rw [List.length_cons, List.length_cons, hafter]
    · exact hafter

theorem length_present_of_build {α : Type} {kind : SectionKind} {place : Nat → α → Result Placed}
    {items : List α} (there : α → Bool) (hplace : ∀ {position a p}, 0 < position →
      place position a = .ok p → (p.offset != 0) = there a)
    (hpos : 0 < start) (h : build kind place start items = .ok s) :
    s.present.length = (items.filter there).length := by
  obtain ⟨out, hout, h⟩ := bind_eq_ok.mp h
  obtain rfl := pure_eq_ok.mp h
  exact length_filter_of_all there hplace hpos hout

/-- Where every value is given an item. -/
theorem length_present_of_placed {α : Type} {kind : SectionKind} {place : Nat → α → Result Placed}
    {items : List α} (hplace : ∀ {position a p}, place position a = .ok p → position ≤ p.offset)
    (hpos : 0 < start) (h : build kind place start items = .ok s) :
    s.present.length = items.length := by
  have hlength := length_present_of_build (fun _ => true) (fun hposition hp => by
    have hle := hplace hp
    exact bne_iff_ne.mpr (by omega)) hpos h
  rw [hlength, List.filter_true]

theorem length_present_of_ofItems {α : Type} {kind : SectionKind} {encode : α → Result Bytes}
    {items : List α} (hpos : 0 < start) (h : ofItems kind alignment encode start items = .ok s) :
    s.present.length = items.length := by
  refine length_present_of_placed (fun hp => ?_) hpos h
  obtain ⟨b, -, hp⟩ := bind_eq_ok.mp hp
  obtain rfl := pure_eq_ok.mp hp
  exact Nat.le_add_right _ _

end DataSection

namespace Contents

variable {o : WriteOptions} {c : Contents} {d : Data} {start : Nat}

theorem Spaced.exists_alignment (h : Spaced o d) :
    ∀ s ∈ d.sections o.version.isCompact, ∃ alignment, s.Spaced alignment := by
  simp only [Data.mem_sections, List.mem_cons, List.not_mem_nil, or_false, forall_eq_or_imp,
    forall_eq]
  exact ⟨⟨_, h.debugInfos⟩, ⟨_, h.code⟩, ⟨_, h.encodedArrays⟩, ⟨_, h.annotations⟩,
    ⟨_, h.annotationSets⟩, ⟨_, h.annotationSetLists⟩, ⟨_, h.directories⟩, ⟨_, h.typeLists⟩,
    ⟨_, h.classData⟩, ⟨_, h.strings⟩, ⟨_, h.hiddenApi⟩⟩

/-! ## The contents count -/

/-- How many items of a kind a file has. -/
def count (c : Contents) (o : WriteOptions) : SectionKind → Nat
  | .header | .mapList => 1
  | .stringIds | .stringData => c.pools.strings.size
  | .typeIds => c.pools.types.size
  | .protoIds => c.pools.protos.size
  | .fieldIds => c.pools.fields.size
  | .methodIds => c.pools.methods.size
  | .classDefs => c.classes.length
  | .callSiteIds => c.pools.callSites.size
  | .methodHandles => c.pools.methodHandles.size
  | .typeLists => c.items.typeLists.size
  | .annotationSetLists => c.items.annotationSetLists.size
  | .annotationSets => c.items.annotationSets.size
  | .annotationItems => c.items.annotations.size
  | .encodedArrays => c.items.encodedArrays.size
  | .annotationDirectories => c.items.directories.size
  | .codeItems => c.items.code.size
  | .debugInfo => c.items.debugInfos.size
  | .classData => (c.classes.filter ClassEntry.hasData).length
  | .hiddenApi =>
    if !o.options.hiddenApiFlags || packsRestrictions o ||
      (c.classes.map restrictions).all Option.isNone then 0 else 1

/-- The map counts the ids as they are. -/
theorem idExtents_count {l : IdLayout} : ∀ e ∈ c.idExtents l, e.2.1 = c.count o e.1 := by
  simp [idExtents, count]

/-- Classes without members have no data. -/
theorem length_present_classData {code classData : DataSection}
    (h : c.classDataSection o code start = .ok classData) (hpos : 0 < start) :
    classData.present.length = (c.classes.filter ClassEntry.hasData).length := by
  refine DataSection.length_present_of_build _ (fun {position e p} hposition hp => ?_) hpos h
  split_ifs at hp with hdata
  · obtain ⟨bytes, -, hp⟩ := bind_eq_ok.mp hp
    obtain rfl := pure_eq_ok.mp hp
    rw [hdata]
    exact bne_iff_ne.mpr (Nat.ne_of_gt hposition)
  · obtain rfl := pure_eq_ok.mp hp
    rw [Bool.not_eq_true] at hdata
    rw [hdata]
    rfl

theorem length_present_hiddenApi {hiddenApi : DataSection}
    (h : c.hiddenApiSection o start = .ok hiddenApi) (hpos : 0 < start) :
    hiddenApi.present.length = c.count o .hiddenApi := by
  unfold hiddenApiSection at h
  unfold count
  dsimp only at h ⊢
  split at h
  next hnone =>
    rw [if_pos hnone, ← pure_eq_ok.mp h]
    rfl
  next hnone =>
    obtain ⟨-, h⟩ := unsupported_ite_eq_ok.mp h
    rw [if_neg hnone]
    exact DataSection.length_present_of_ofItems hpos h

/-- The sections of the data have as many items as the contents. -/
theorem Built.length_present (h : c.Built o start d) (hstart : 0 < start) :
    ∀ s ∈ d.sections o.version.isCompact, s.present.length = c.count o s.kind := by
  have hpos := fun s hs => Nat.lt_of_lt_of_le hstart (h.chained.le_start s hs)
  simp only [Data.mem_sections, List.mem_cons, List.not_mem_nil, or_false, forall_eq_or_imp,
    forall_eq] at hpos ⊢
  obtain ⟨debugInfos, code, encodedArrays, annotations, annotationSets, annotationSetLists,
    directories, typeLists, classData, strings, hiddenApi⟩ := hpos
  obtain ⟨debug, -, hcode, hinfos, -⟩ := codeSections_spec h.codeSections
  have ofItems {α : Type} [BEq α] [Hashable α] {kind : SectionKind} {alignment start : Nat}
      {encode : α → Result Bytes} {set : ItemSet α} {s : DataSection}
      (h : DataSection.ofItems kind alignment encode start set.toList = .ok s) (hpos : 0 < s.start)
      (hcount : c.count o kind = set.size) : s.present.length = c.count o s.kind := by
    rw [DataSection.start_of_build h] at hpos
    rw [kind_of_build h, hcount, DataSection.length_present_of_ofItems hpos h, ItemSet.length_toList]
  refine ⟨ofItems hinfos debugInfos rfl, ?_, ofItems h.encodedArrays encodedArrays rfl,
    ofItems h.annotations annotations rfl, ofItems h.annotationSets annotationSets rfl,
    ofItems h.annotationSetLists annotationSetLists rfl, ofItems h.directories directories rfl,
    ofItems h.typeLists typeLists rfl, ?_, ofItems h.strings strings rfl, ?_⟩
  · have hlength := DataSection.length_present_of_placed le_offset_of_placeCode code hcode
    rw [List.length_zipIdx, ItemSet.length_toList] at hlength
    rw [kind_of_build hcode, hlength]
    rfl
  · rw [kind_of_build h.classData]
    exact length_present_classData h.classData (DataSection.start_of_build h.classData ▸ classData)
  · obtain ⟨hplace, hkind⟩ := hiddenApiSection_spec h.hiddenApi
    rw [hkind]
    exact length_present_hiddenApi h.hiddenApi (hplace ▸ hiddenApi)

/-- Data that can be counted with 32 bits has items and offsets that can. -/
theorem Built.small_present (h : c.Built o start d)
    (hstop : start + (d.bytes o.version.isCompact).length < UInt32.size) :
    ∀ s ∈ d.sections o.version.isCompact, s.present.length < UInt32.size ∧
      s.first < UInt32.size ∧ (s.present.length = 0 → s.first = 0) := by
  intro s hs
  obtain ⟨alignment, hspaced⟩ := h.spaced.exists_alignment s hs
  have hend := h.chained.stop_le s hs
  have hbytes : s.stop = s.start + s.bytes.length := rfl
  have hsections : ((d.sections o.version.isCompact).flatMap DataSection.bytes).length =
      (d.bytes o.version.isCompact).length := rfl
  have hcount := hspaced.length_present_le
  refine ⟨by omega, ?_, fun hzero => ?_⟩
  · unfold DataSection.first
    cases hpresent : s.present with
    | nil => decide
    | cons p rest =>
      obtain ⟨-, hlt⟩ := hspaced.inside_present (hpresent ▸ List.mem_cons_self)
      exact show p.offset < UInt32.size by omega
  · rw [DataSection.first, List.length_eq_zero_iff.mp hzero]
    rfl

theorem idExtents_small {l : IdLayout} (hl : l = c.layout start) (h : l.stop < UInt32.size) :
    ∀ e ∈ c.idExtents l, e.2.1 < UInt32.size := by
  subst hl
  simp only [layout, IdItem.stringSize, IdItem.typeSize, IdItem.Proto.size, IdItem.Member.size,
    IdItem.Class.size, IdItem.callSiteSize, IdItem.Handle.size] at h
  simp only [idExtents, List.mem_cons, List.not_mem_nil, or_false, forall_eq_or_imp, forall_eq]
  omega

/-- Every kind of section is listed for itself, for the ids or for the data. -/
theorem kind_cases (compact : Bool) (kind : SectionKind) :
    kind = .header ∨ kind = .mapList ∨ kind ∈ idKinds ∨ kind ∈ dataKinds compact := by
  cases compact <;> cases kind <;> decide

end Contents

/-! ## What the map tells about a kind -/

namespace DexFile
open Contents

variable {o : WriteOptions} {c : Contents} {l : IdLayout} {d : Contents.Data}
  {headerOffset mapOffset start : Nat} {header : Header}

theorem mapped_of_mem {map : List MapItem} {m : MapItem} {kind : SectionKind}
    (hn : (map.map MapItem.code).Nodup) (hm : m ∈ map) (hcode : m.code = kind.code) :
    mapped map kind = ⟨m.size, m.offset⟩ := by
  rw [mapped, find?_eq hn hm hcode]

theorem mapped_header (hb : c.Built o start d) :
    mapped (c.mapOf o headerOffset l d mapOffset) .header = ⟨1, UInt32.ofNat headerOffset⟩ :=
  mapped_of_mem (nodup_mapOf hb) (mem_mapOf.mpr (.inl rfl)) rfl

theorem mapped_mapList (hb : c.Built o start d) :
    mapped (c.mapOf o headerOffset l d mapOffset) .mapList = ⟨1, UInt32.ofNat mapOffset⟩ :=
  mapped_of_mem (nodup_mapOf hb) (mem_mapOf.mpr (.inr (.inr (.inr rfl)))) rfl

/-- The map tells the extent of a section of the data. -/
theorem mapped_section (hb : c.Built o start d) {s : DataSection}
    (hs : s ∈ d.sections o.version.isCompact) :
    mapped (c.mapOf o headerOffset l d mapOffset) s.kind =
      Extent.of s.present.length s.first := by
  rw [mapped, find?_section hb hs, DataSection.mapItems_eq]
  unfold extentItem Extent.of
  dsimp only
  by_cases hzero : s.present.length = 0
  · rw [if_pos hzero, if_pos hzero]
    rfl
  · rw [if_neg hzero, if_neg hzero]
    rfl

theorem toNat_size_of {size offset : Nat} (h : size < UInt32.size) :
    (Extent.of size offset).size.toNat = size := by
  unfold Extent.of
  split
  next hzero => exact hzero.symm
  · exact UInt32.toNat_ofNat_of_lt' h

theorem toNat_offset_of {size offset : Nat} (h : offset < UInt32.size)
    (hzero : size = 0 → offset = 0) : (Extent.of size offset).offset.toNat = offset := by
  unfold Extent.of
  split
  next hsize => exact (hzero hsize).symm
  · exact UInt32.toNat_ofNat_of_lt' h

/-- The map agrees with what the header says about every kind, empty sections included. -/
theorem mapped_eq_of_expected (hh : header.Lists c l mapOffset) (hb : c.Built o start d)
    {kind : SectionKind} {e : Extent} (he : expectedExtent? header headerOffset kind = some e) :
    mapped (c.mapOf o headerOffset l d mapOffset) kind = e := by
  have ids {kind : SectionKind} {size offset : Nat} {e : Extent}
      (hmem : (kind, size, offset) ∈ c.idExtents l) (heq : e = Extent.of size offset) :
      mapped (c.mapOf o headerOffset l d mapOffset) kind = e := by
    rw [heq, mapped_eq hb hmem]
  cases kind <;> cases he
  case header => exact mapped_header hb
  case stringIds => exact ids (by simp [idExtents]) hh.strings
  case typeIds => exact ids (by simp [idExtents]) hh.types
  case protoIds => exact ids (by simp [idExtents]) hh.protos
  case fieldIds => exact ids (by simp [idExtents]) hh.fields
  case methodIds => exact ids (by simp [idExtents]) hh.methods
  case classDefs => exact ids (by simp [idExtents]) hh.classes
  case mapList => rw [mapped_mapList hb, hh.mapOffset]

end DexFile

end Dalvik
