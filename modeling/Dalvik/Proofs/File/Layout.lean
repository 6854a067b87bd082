import Dalvik.Proofs.File.Counts
import Dalvik.Proofs.File.Entries

/-!
# The layout of a file

The map of a file lists its sections, each with the number of its items, in the order of their
offsets. The sections follow each other in the order in which the map is put together, unless the
file is compact and the offsets of its data count from elsewhere.
-/
namespace Dalvik
open Result

/-! ## Maps whose offsets increase -/

namespace MapItem

/-- The offsets of the items increase from `start` on, and none reaches `stop`. -/
structure Rising (start stop : Nat) (items : List MapItem) : Prop where
  le : start ≤ stop
  inside : ∀ m ∈ items, start ≤ m.offset.toNat ∧ m.offset.toNat < stop
  increasing : items.Pairwise fun m n => m.offset < n.offset

namespace Rising

variable {start middle stop start' stop' : Nat} {xs ys : List MapItem}

theorem nil (h : start ≤ stop) : Rising start stop [] := ⟨h, nofun, .nil⟩

theorem weaken (h : Rising start stop xs) (hstart : start' ≤ start) (hstop : stop ≤ stop') :
    Rising start' stop' xs := by
  have hle := h.le
  refine ⟨by omega, fun m hm => ?_, h.increasing⟩
  obtain ⟨hlow, hhigh⟩ := h.inside m hm
  exact ⟨by omega, by omega⟩

theorem append (hx : Rising start middle xs) (hy : Rising middle stop ys) :
    Rising start stop (xs ++ ys) := by
  have hle := hx.le
  have hle' := hy.le
  refine ⟨by omega, fun m hm => ?_, List.pairwise_append.mpr ⟨hx.increasing, hy.increasing, ?_⟩⟩
  · rcases List.mem_append.mp hm with hm | hm
    · obtain ⟨hlow, hhigh⟩ := hx.inside m hm
      exact ⟨hlow, by omega⟩
    · obtain ⟨hlow, hhigh⟩ := hy.inside m hm
      exact ⟨by omega, hhigh⟩
  · intro m hm n hn
    obtain ⟨-, hhigh⟩ := hx.inside m hm
    obtain ⟨hlow, -⟩ := hy.inside n hn
    exact UInt32.lt_iff_toNat_lt.mpr (by omega)

theorem of (kind : SectionKind) (size : Nat) {offset : Nat} (h : offset < stop)
    (hstop : stop ≤ UInt32.size) : Rising offset stop [MapItem.of kind size offset] := by
  have hnat : (UInt32.ofNat offset).toNat = offset := UInt32.toNat_ofNat_of_lt' (by omega)
  refine ⟨Nat.le_of_lt h, fun m hm => ?_, List.pairwise_singleton _ _⟩
  obtain rfl := List.mem_singleton.mp hm
  simp only [MapItem.of, hnat]
  exact ⟨Nat.le_refl _, h⟩

/-- A section of ids, unless it is empty. -/
theorem extentItem {kind : SectionKind} {count size offset : Nat} (hsize : 0 < size)
    (hstop : offset + count * size ≤ UInt32.size) :
    Rising offset (offset + count * size) (Contents.extentItem (kind, count, offset)) := by
  unfold Contents.extentItem
  split
  · exact nil (Nat.le_add_right _ _)
  next hne =>
    have hpos : 0 < count * size := Nat.mul_pos (Nat.pos_of_ne_zero hne) hsize
    exact of _ _ (by omega) hstop

end Rising

end MapItem

namespace DataSection

variable {s : DataSection} {alignment start : Nat}

theorem Spaced.rising (h : s.Spaced alignment) (hstop : s.stop ≤ UInt32.size) :
    MapItem.Rising s.start s.stop s.mapItems := by
  unfold mapItems
  cases hitems : s.items.filter (·.offset != 0) with
  | nil => exact .nil (Nat.le_add_right _ _)
  | cons p rest =>
    have hp : p ∈ s.present := by
      rw [present, hitems]
      exact List.mem_cons_self
    obtain ⟨hle, hlt⟩ := h.inside_present hp
    exact (MapItem.Rising.of _ _ hlt hstop).weaken hle (Nat.le_refl _)

theorem rising_of_chained {sections : List DataSection} (h : Chained start sections)
    (hs : ∀ s ∈ sections, ∃ alignment, s.Spaced alignment)
    (hstop : start + (sections.flatMap bytes).length ≤ UInt32.size) :
    MapItem.Rising start (start + (sections.flatMap bytes).length)
      (sections.flatMap mapItems) := by
  induction sections generalizing start with
  | nil => exact .nil (Nat.le_refl _)
  | cons s rest ih =>
    obtain ⟨rfl, hrest⟩ := h
    obtain ⟨alignment, hspaced⟩ := hs s List.mem_cons_self
    have hend : s.stop = s.start + s.bytes.length := rfl
    rw [List.flatMap_cons, List.length_append, ← Nat.add_assoc, ← hend] at hstop ⊢
    rw [List.flatMap_cons]
    have hfirst := hspaced.rising (by omega)
    exact hfirst.append (ih hrest (fun x hx => hs x (List.mem_cons_of_mem s hx)) hstop)

end DataSection

namespace Contents

variable {o : WriteOptions} {c : Contents} {d : Data} {start headerOffset mapOffset : Nat}

theorem rising_idMapItems (c : Contents) (start : Nat)
    (h : (c.layout start).stop ≤ UInt32.size) :
    MapItem.Rising start (c.layout start).stop (c.idMapItems (c.layout start)) := by
  rw [idMapItems_eq]
  simp only [layout] at h
  simp only [idExtents, layout, List.flatMap_cons, List.flatMap_nil, List.append_nil]
  have item (kind : SectionKind) (count size offset : Nat) (hsize : 0 < size)
      (hstop : offset + count * size ≤ UInt32.size) :
      MapItem.Rising offset (offset + count * size) (extentItem (kind, count, offset)) :=
    MapItem.Rising.extentItem hsize hstop
  refine (item _ _ IdItem.stringSize _ (by decide) (by omega)).append ?_
  refine (item _ _ IdItem.typeSize _ (by decide) (by omega)).append ?_
  refine (item _ _ IdItem.Proto.size _ (by decide) (by omega)).append ?_
  refine (item _ _ IdItem.Member.size _ (by decide) (by omega)).append ?_
  refine (item _ _ IdItem.Member.size _ (by decide) (by omega)).append ?_
  refine (item _ _ IdItem.Class.size _ (by decide) (by omega)).append ?_
  refine (item _ _ IdItem.callSiteSize _ (by decide) (by omega)).append ?_
  exact item _ _ IdItem.Handle.size _ (by decide) (by omega)

/-! ## The map in order -/

/-- What the map lists behind the header, in the order in which it is put together. -/
def listed (c : Contents) (o : WriteOptions) (l : IdLayout) (d : Data) (mapOffset : Nat) :
    List MapItem :=
  c.idMapItems l ++ (d.sections o.version.isCompact).flatMap DataSection.mapItems ++
    [MapItem.of .mapList 1 mapOffset]

theorem mapOf_eq_sortedBy (c : Contents) (o : WriteOptions) (headerOffset : Nat) (l : IdLayout)
    (d : Data) (mapOffset : Nat) : c.mapOf o headerOffset l d mapOffset =
      sortedBy (compareOn MapItem.offset)
        (MapItem.of .header 1 headerOffset :: c.listed o l d mapOffset) := by
  simp only [mapOf, listed, List.cons_append]

theorem isLE_compareOn_offset {m n : MapItem} :
    (compareOn MapItem.offset m n).isLE ↔ m.offset ≤ n.offset := by
  simp [compareOn, Std.isLE_compare]

/-- The map is in the order of the offsets. -/
theorem pairwise_mapOf (c : Contents) (o : WriteOptions) (headerOffset : Nat) (l : IdLayout)
    (d : Data) (mapOffset : Nat) :
    (c.mapOf o headerOffset l d mapOffset).Pairwise fun m n => m.offset ≤ n.offset :=
  (pairwise_sortedBy _ _).imp isLE_compareOn_offset.mp

/-- The header comes first. -/
theorem head?_mapOf {l : IdLayout} (h : ∀ m ∈ c.listed o l d mapOffset,
    (MapItem.of .header 1 headerOffset).offset < m.offset) :
    (c.mapOf o headerOffset l d mapOffset).head? = some (.of .header 1 headerOffset) := by
  have hmem : ∀ m, m ∈ c.mapOf o headerOffset l d mapOffset ↔
      m = .of .header 1 headerOffset ∨ m ∈ c.listed o l d mapOffset := by
    intro m
    rw [mapOf_eq_sortedBy, (sortedBy_perm _ _).mem_iff, List.mem_cons]
  have hpair := pairwise_mapOf c o headerOffset l d mapOffset
  generalize c.mapOf o headerOffset l d mapOffset = map at hmem hpair
  have hheader := (hmem _).mpr (.inl rfl)
  cases map with
  | nil => simp at hheader
  | cons m rest =>
    rcases (hmem m).mp List.mem_cons_self with rfl | hm
    · rfl
    · rcases List.mem_cons.mp hheader with rfl | hrest
      · rfl
      · have hle := (List.pairwise_cons.mp hpair).1 _ hrest
        exact absurd (h m hm) (UInt32.not_lt.mpr hle)

/-- Where all offsets count from the same place, the sections are in order already. -/
theorem mapOf_eq {l : IdLayout} {stop : Nat} (h : MapItem.Rising headerOffset stop
    (MapItem.of .header 1 headerOffset :: c.listed o l d mapOffset)) :
    c.mapOf o headerOffset l d mapOffset =
      MapItem.of .header 1 headerOffset :: c.listed o l d mapOffset := by
  rw [mapOf_eq_sortedBy]
  apply sortedBy_of_pairwise
  exact h.increasing.imp fun hlt => isLE_compareOn_offset.mpr (UInt32.le_of_lt hlt)

theorem StandardParts.rising {header : Header} {ids gap tail : Bytes} {dataOffset : Nat}
    (h : c.StandardParts o headerOffset header d ids gap tail dataOffset mapOffset) :
    MapItem.Rising headerOffset (dataOffset + tail.length)
      (MapItem.of .header 1 headerOffset ::
        c.listed o (c.layout (headerOffset + Header.sizeOf o.version)) d mapOffset) := by
  obtain ⟨fill, after, htail, hmapOffset⟩ := h.tail
  have hlength := congrArg List.length htail
  simp only [List.length_append, MapItem.length_encodeList] at hlength
  have hstop := h.stop
  have hplace := h.place
  have hids := h.idsStop
  have hsize : 0 < Header.sizeOf o.version := by cases o.version <;> decide
  have hsections : ((d.sections o.version.isCompact).flatMap DataSection.bytes).length =
      (d.bytes o.version.isCompact).length := rfl
  have first := MapItem.Rising.of .header 1
    (show headerOffset < headerOffset + Header.sizeOf o.version by omega) (by omega)
  have idItems := c.rising_idMapItems (headerOffset + Header.sizeOf o.version) (by omega)
  have dataItems := DataSection.rising_of_chained h.built.chained
    h.built.spaced.exists_alignment (by omega)
  have last := MapItem.Rising.of .mapList 1
    (show mapOffset < dataOffset + tail.length by omega) (by omega)
  have front := first.append (idItems.weaken (Nat.le_refl _) (show _ ≤ dataOffset by omega))
  have all := (front.append dataItems).append (last.weaken (by omega) (Nat.le_refl _))
  unfold listed
  simpa only [List.cons_append, List.nil_append, List.append_assoc] using all

theorem CompactParts.listed_pos {header : Header} {ids gap tail : Bytes} {dataOffset : Nat}
    (h : c.CompactParts o header d ids gap tail dataOffset mapOffset) :
    ∀ m ∈ c.listed o (c.layout (0 + Header.sizeOf o.version)) d mapOffset,
      (MapItem.of .header 1 0).offset < m.offset := by
  obtain ⟨front, fill, gap', offsets, after, htail, hfront, hmapOffset, -⟩ := h.tail
  have hlength := congrArg List.length htail
  simp only [List.length_append, MapItem.length_encodeList] at hlength
  have hstop := h.stop
  have hplace := h.place
  have hids := h.idsStop
  have hreserved : reserved = 8 := rfl
  have hsize : 0 < Header.sizeOf o.version := by cases o.version <;> decide
  have hsections : ((d.sections o.version.isCompact).flatMap DataSection.bytes).length =
      (d.bytes o.version.isCompact).length := rfl
  have idItems := c.rising_idMapItems (0 + Header.sizeOf o.version) (by omega)
  have dataItems := DataSection.rising_of_chained h.built.chained
    h.built.spaced.exists_alignment (by omega)
  have last := MapItem.Rising.of .mapList 1
    (show mapOffset < dataOffset + tail.length by omega) (by omega)
  intro m hm
  have hpos : 0 < m.offset.toNat := by
    rcases List.mem_append.mp hm with hm | hm
    · rcases List.mem_append.mp hm with hm | hm
      · have hinside := idItems.inside m hm
        omega
      · have hinside := dataItems.inside m hm
        omega
    · have hinside := last.inside m hm
      omega
  exact UInt32.lt_iff_toNat_lt.mpr hpos

end Contents

/-! ## What a map has to say -/

namespace DexFile
open Contents

/-- The map begins with the header, and lists the sections that are not empty, each once, with the
number of its items and with its place. The header says the same. -/
structure MapFits (f : DexFile) (o : WriteOptions) (c : Contents) (d : Contents.Data) : Prop where
  header : f.map.head? = some (.of .header 1 f.headerOffset)
  nodup : (f.map.map MapItem.code).Nodup
  known : ∀ m ∈ f.map, ∃ kind : SectionKind, m.code = kind.code ∧ c.count o kind ≠ 0
  counts : ∀ kind, (mapped f.map kind).size.toNat = c.count o kind
  places : ∀ s ∈ d.sections o.version.isCompact, (mapped f.map s.kind).offset.toNat = s.first
  agrees : ∀ kind e, expectedExtent? f.header f.headerOffset kind = some e → mapped f.map kind = e

/-- The items that need it begin at multiples of 4, code items of a compact file at multiples of 2.
All offsets count in the bytes that offsets of data count in. -/
structure Aligned (f : DexFile) (o : WriteOptions) (d : Contents.Data) : Prop where
  typeLists : ∀ p ∈ d.typeLists.items, 4 ∣ p.offset
  annotationSets : ∀ p ∈ d.annotationSets.items, 4 ∣ p.offset
  annotationSetLists : ∀ p ∈ d.annotationSetLists.items, 4 ∣ p.offset
  directories : ∀ p ∈ d.directories.items, 4 ∣ p.offset
  hiddenApi : ∀ p ∈ d.hiddenApi.items, 4 ∣ p.offset
  code : ∀ p ∈ d.code.items, (if o.version.isCompact then 2 else 4) ∣ p.offset
  map : 4 ∣ f.header.mapOffset.toNat

/-- How the parts of a file that ends at `stop` follow each other: the ids fill what the layout
reserves for them behind the header, and the data goes to the end. -/
structure LaidOut (f : DexFile) (o : WriteOptions) (c : Contents) (d : Contents.Data) (stop : Nat) :
    Prop where
  map : f.MapFits o c d
  aligned : f.Aligned o d
  ids : ∃ p : IdParts, p.Encode c d ∧
    p.Lie (c.layout (f.headerOffset + Header.sizeOf o.version)) f.bytes ∧
    f.headerOffset + Header.sizeOf o.version + p.bytes.length =
      (c.layout (f.headerOffset + Header.sizeOf o.version)).stop
  dataStop : f.header.data.offset.toNat + f.header.data.size.toNat = stop
  standard : o.version.isCompact = false → f.map.Pairwise (fun m n => m.offset < n.offset) ∧
    f.headerOffset + f.size = stop ∧ 8 ∣ stop
  compact : o.version.isCompact = true → f.map.Pairwise (fun m n => m.offset ≤ n.offset) ∧
    f.size = f.header.data.offset.toNat ∧ 8 ∣ f.header.data.offset.toNat

variable {f : DexFile} {o : WriteOptions} {c : Contents} {d : Contents.Data} {rest : Bytes}

namespace Laid

/-- Everything that is listed comes behind the header. -/
theorem header_lt (h : f.Laid o c d rest) :
    ∀ m ∈ c.listed o (c.layout (f.headerOffset + Header.sizeOf o.version)) d
      f.header.mapOffset.toNat, (MapItem.of .header 1 f.headerOffset).offset < m.offset := by
  cases h.parts with
  | standard parts =>
    rw [parts.mapOffset_eq]
    exact (List.pairwise_cons.mp parts.rising.increasing).1
  | compact parts hplace =>
    rw [parts.mapOffset_eq, hplace]
    exact parts.listed_pos

/-- Every item of the map belongs to a section that is not empty. -/
theorem count_ne_zero (h : f.Laid o c d rest) {m : MapItem} (hm : m ∈ f.map) :
    ∃ kind : SectionKind, m.code = kind.code ∧ c.count o kind ≠ 0 := by
  obtain ⟨start, hstart, hb, -⟩ := h.parts.built
  rw [h.map] at hm
  rcases mem_mapOf.mp hm with rfl | hm | hm | rfl
  · exact ⟨.header, rfl, one_ne_zero⟩
  · rw [idMapItems_eq] at hm
    obtain ⟨e, he, hm⟩ := List.mem_flatMap.mp hm
    obtain ⟨hne, rfl⟩ := mem_extentItem.mp hm
    exact ⟨e.1, rfl, idExtents_count e he ▸ hne⟩
  · obtain ⟨s, hs, hm⟩ := List.mem_flatMap.mp hm
    refine ⟨s.kind, code_of_mem_mapItems hm, ?_⟩
    rw [DataSection.mapItems_eq] at hm
    rw [← hb.length_present hstart s hs]
    exact (mem_extentItem.mp hm).1
  · exact ⟨.mapList, rfl, one_ne_zero⟩

theorem mapFits (h : f.Laid o c d rest) : f.MapFits o c d := by
  obtain ⟨start, hstart, hb, hstop⟩ := h.parts.built
  obtain ⟨ids, after, hrest, -, hids⟩ := h.parts.exists_ids
  have hsmall := h.parts.small
  rw [hrest, List.length_append, List.length_append, Header.length_encode h.parts.fits] at hsmall
  have hidSizes := idExtents_small rfl (c := c)
    (show (c.layout (f.headerOffset + Header.sizeOf o.version)).stop < UInt32.size by omega)
  exact {
    header := by
      rw [h.map]
      exact head?_mapOf h.header_lt
    nodup := by
      rw [h.map]
      exact nodup_mapOf hb
    known := fun m => h.count_ne_zero
    counts := by
      intro kind
      rw [h.map]
      rcases kind_cases o.version.isCompact kind with rfl | rfl | hkind | hkind
      · rw [mapped_header hb]
        rfl
      · rw [mapped_mapList hb]
        rfl
      · rw [← map_fst_idExtents c (c.layout (f.headerOffset + Header.sizeOf o.version))] at hkind
        obtain ⟨e, he, rfl⟩ := List.mem_map.mp hkind
        rw [mapped_eq hb he, toNat_size_of (hidSizes e he), idExtents_count e he]
      · rw [← hb.kinds] at hkind
        obtain ⟨s, hs, rfl⟩ := List.mem_map.mp hkind
        rw [mapped_section hb hs, toNat_size_of (hb.small_present hstop s hs).1,
          hb.length_present hstart s hs]
    places := by
      intro s hs
      obtain ⟨-, hfirst, hempty⟩ := hb.small_present hstop s hs
      rw [h.map, mapped_section hb hs, toNat_offset_of hfirst hempty]
    agrees := by
      intro kind e he
      rw [h.map]
      exact mapped_eq_of_expected h.parts.lists hb he }

theorem aligned (h : f.Laid o c d rest) : f.Aligned o d := by
  obtain ⟨start, -, hb, -⟩ := h.parts.built
  have hspaced := hb.spaced
  have dvd {s : DataSection} {alignment : Nat} (hs : s.Spaced alignment) {p : Placed}
      (hp : p ∈ s.items) : alignment ∣ p.offset := by
    by_cases hzero : p.offset = 0
    · rw [hzero]
      exact Nat.dvd_zero _
    · exact (hs.inside p hp hzero).2.2
  exact {
    typeLists := fun p => dvd hspaced.typeLists
    annotationSets := fun p => dvd hspaced.annotationSets
    annotationSetLists := fun p => dvd hspaced.annotationSetLists
    directories := fun p => dvd hspaced.directories
    hiddenApi := fun p => dvd hspaced.hiddenApi
    code := fun p => dvd hspaced.code
    map := h.parts.mapAligned }

theorem exists_ids (h : f.Laid o c d rest) : ∃ p : IdParts, p.Encode c d ∧
    p.Lie (c.layout (f.headerOffset + Header.sizeOf o.version)) f.bytes ∧
    f.headerOffset + Header.sizeOf o.version + p.bytes.length =
      (c.layout (f.headerOffset + Header.sizeOf o.version)).stop := by
  obtain ⟨ids, after, hrest, hids, hstop⟩ := h.parts.exists_ids
  obtain ⟨p, hp, rfl⟩ := exists_parts hids
  have hlength := Header.length_encode h.parts.fits
  have hstands := h.stands.right
  have hinside := h.inside
  rw [hrest, List.length_append, List.length_append] at hinside
  rw [hrest, hlength] at hstands
  exact ⟨p, hp, hp.lie h.holds.stringItems hstands.left (by omega), hstop⟩

/-- A file is laid out up to the end of its bytes. -/
theorem laidOut (h : f.Laid o c d rest) :
    f.LaidOut o c d (f.headerOffset + (f.header.encode ++ rest).length) := by
  have hmap := h.map
  cases h.parts with
  | @standard ids gap tail dataOffset mapOffset parts hrest =>
    have hlength := parts.length_eq
    have hstop := parts.stop
    rw [← hrest] at hlength
    have hdata : f.header.data.offset.toNat + f.header.data.size.toNat = dataOffset + tail.length := by
      rw [parts.data, UInt32.toNat_ofNat_of_lt' (by omega), UInt32.toNat_ofNat_of_lt' (by omega)]
    have hsize : f.size = dataOffset + tail.length - f.headerOffset := by
      rw [DexFile.size, parts.fileSize, UInt32.toNat_ofNat_of_lt' (by omega)]
    have hrising := parts.rising
    rw [← mapOf_eq hrising] at hrising
    rw [parts.mapOffset_eq] at hmap
    rw [hlength]
    exact {
      map := h.mapFits
      aligned := h.aligned
      ids := h.exists_ids
      dataStop := hdata
      standard := fun _ => ⟨hmap ▸ hrising.increasing, by omega, parts.stopAligned⟩
      compact := by simp [parts.version] }
  | @compact ids gap tail dataOffset mapOffset parts hplace hrest =>
    have hlength := parts.length_eq
    have hstop := parts.stop
    rw [← hrest] at hlength
    have hoffset : f.header.data.offset.toNat = dataOffset := by
      rw [parts.data, UInt32.toNat_ofNat_of_lt' (by omega)]
    have hdata : f.header.data.size.toNat = tail.length := by
      rw [parts.data, UInt32.toNat_ofNat_of_lt' (by omega)]
    have hsize : f.size = dataOffset := by
      rw [DexFile.size, parts.fileSize, UInt32.toNat_ofNat_of_lt' (by omega)]
    rw [hplace, Nat.zero_add, hlength]
    exact {
      map := h.mapFits
      aligned := h.aligned
      ids := h.exists_ids
      dataStop := by rw [hoffset, hdata]
      standard := by simp [parts.version]
      compact := fun _ => ⟨hmap ▸ pairwise_mapOf _ _ _ _ _ _, by rw [hsize, hoffset],
        hoffset ▸ parts.dataAligned⟩ }

end Laid

end DexFile

namespace Dex

variable {o : WriteOptions} {d : Dex} {start stop : Nat} {bytes : Bytes}

/-- Every file that is written, alone or in a container, has its sections in the places and in the
numbers that its header and its map tell. -/
theorem exists_layout_of_written (h : Written o d start stop bytes) :
    ∃ (c : Contents) (data : Contents.Data) (f : DexFile), Contents.ofDex o d = .ok c ∧
      DexFile.ofBytes o.options bytes.toByteArray start = .ok f ∧ f.Holds o c data ∧
      f.LaidOut o c data stop := by
  obtain ⟨length, rfl, c, data, rest, f, hofDex, hf, hlaid, rfl⟩ := h.laidIn
  obtain ⟨-, hplace, -⟩ := DexFile.ofBytes_spec hf
  exact ⟨c, data, f, hofDex, hf, hlaid.holds, hplace ▸ hlaid.laidOut⟩

/-- A file with one class, a compact file without classes, and the second one of a container. -/
theorem exists_layout_of_written_bareClass :
    (∃ bytes c data f, Dex.encode {} ⟨[bareClass]⟩ = .ok bytes ∧
      DexFile.ofBytes {} bytes.toByteArray 0 = .ok f ∧ f.LaidOut {} c data bytes.length) ∧
    (∃ bytes c data f, Dex.encode compactOptions ⟨[]⟩ = .ok bytes ∧
      DexFile.ofBytes compactOptions.options bytes.toByteArray 0 = .ok f ∧
      f.LaidOut compactOptions c data bytes.length) ∧
    ∃ bytes start stop c data f, encodeContainer newest [⟨[]⟩, ⟨[]⟩] = .ok bytes ∧
      DexFile.ofBytes newest.options bytes.toByteArray start = .ok f ∧
      f.LaidOut newest c data stop := by
  refine ⟨?_, ?_, ?_⟩
  · obtain ⟨bytes, hbytes⟩ := exists_encode_bareClass
    obtain ⟨c, data, f, -, hf, -, hlaid⟩ := exists_layout_of_written (.alone hbytes)
    exact ⟨bytes, c, data, f, hbytes, hf, hlaid⟩
  · obtain ⟨bytes, hbytes⟩ := exists_encode_compact_nothing
    obtain ⟨c, data, f, -, hf, -, hlaid⟩ := exists_layout_of_written (.alone hbytes)
    exact ⟨bytes, c, data, f, hbytes, hf, hlaid⟩
  · obtain ⟨bytes, hbytes⟩ := exists_container_nothing
    have hsecond : encodeContainer newest ([⟨[]⟩] ++ ⟨[]⟩ :: []) = .ok bytes := hbytes
    obtain ⟨start, stop, hwritten⟩ := exists_written_of_encodeContainer hsecond
    obtain ⟨c, data, f, -, hf, -, hlaid⟩ := exists_layout_of_written hwritten
    exact ⟨bytes, start, stop, c, data, f, hbytes, hf, hlaid⟩

end Dex

end Dalvik
