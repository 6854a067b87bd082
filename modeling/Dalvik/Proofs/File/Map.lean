import Dalvik.File
import Dalvik.File.Encode
import Dalvik.Proofs.File.Data
import Dalvik.Proofs.Order

/-!
# The map agrees with the file

The map lists every kind of section at most once, and what it says about the ids is what the header
says. So opening a file accepts its map, and finds in it the sections that the header leaves out.
-/
namespace Dalvik

namespace SectionKind

theorem ofCode?_code (k : SectionKind) : ofCode? k.code = some k := by cases k <;> rfl

theorem code_injective {j k : SectionKind} (h : j.code = k.code) : j = k := by
  have := ofCode?_code j
  rw [h, ofCode?_code] at this
  exact (Option.some.inj this).symm

end SectionKind

namespace Contents

variable {o : WriteOptions} {c : Contents} {l : IdLayout} {d : Data} {m : MapItem}
  {headerOffset mapOffset start : Nat}

/-- The numbers and the places of the ids by their kinds. -/
def idExtents (c : Contents) (l : IdLayout) : List (SectionKind × Nat × Nat) :=
  [(.stringIds, c.pools.strings.size, l.strings), (.typeIds, c.pools.types.size, l.types),
    (.protoIds, c.pools.protos.size, l.protos), (.fieldIds, c.pools.fields.size, l.fields),
    (.methodIds, c.pools.methods.size, l.methods), (.classDefs, c.classes.length, l.classes),
    (.callSiteIds, c.pools.callSites.size, l.callSites),
    (.methodHandles, c.pools.methodHandles.size, l.methodHandles)]

/-- An item of the map for a section that is not empty. -/
def extentItem (e : SectionKind × Nat × Nat) : List MapItem :=
  if e.2.1 = 0 then [] else [MapItem.of e.1 e.2.1 e.2.2]

theorem idMapItems_eq (c : Contents) (l : IdLayout) :
    c.idMapItems l = (c.idExtents l).flatMap extentItem := by
  simp only [idMapItems, idExtents, extentItem, List.flatMap_cons, List.flatMap_nil,
    List.append_nil, List.append_assoc]

theorem mem_extentItem {e : SectionKind × Nat × Nat} :
    m ∈ extentItem e ↔ e.2.1 ≠ 0 ∧ m = MapItem.of e.1 e.2.1 e.2.2 := by
  unfold extentItem
  split <;> simp_all

theorem codes_extentItem (e : SectionKind × Nat × Nat) :
    ((extentItem e).map MapItem.code).Sublist [e.1.code] := by
  unfold extentItem
  split
  · exact List.nil_sublist _
  · exact List.Sublist.refl _

theorem codes_mapItems (s : DataSection) : (s.mapItems.map MapItem.code).Sublist [s.kind.code] := by
  unfold DataSection.mapItems
  split
  · exact List.nil_sublist _
  · exact List.Sublist.refl _

theorem map_flatMap_sublist {α β γ : Type} {f : α → List β} {g : β → γ} {key : α → γ} (as : List α)
    (h : ∀ a, ((f a).map g).Sublist [key a]) : ((as.flatMap f).map g).Sublist (as.map key) := by
  induction as with
  | nil => exact List.Sublist.refl _
  | cons a as ih =>
    rw [List.flatMap_cons, List.map_append, List.map_cons]
    exact (h a).append ih

/-- The kinds of the ids in their order. -/
def idKinds : List SectionKind :=
  [.stringIds, .typeIds, .protoIds, .fieldIds, .methodIds, .classDefs, .callSiteIds, .methodHandles]

/-- The kinds that a map can list, in the order in which they are put together. -/
def mapKinds (compact : Bool) : List SectionKind :=
  .header :: idKinds ++ dataKinds compact ++ [.mapList]

theorem map_fst_idExtents (c : Contents) (l : IdLayout) :
    (c.idExtents l).map Prod.fst = idKinds := rfl

/-- The sections of the data are of other kinds than the rest. -/
theorem dataKinds_apart : ∀ b, ∀ k ∈ dataKinds b, k ≠ .header ∧ k ≠ .mapList ∧ k ∉ idKinds := by
  decide

theorem mem_mapOf : m ∈ c.mapOf o headerOffset l d mapOffset ↔
    m = .of .header 1 headerOffset ∨ m ∈ c.idMapItems l ∨
      m ∈ (d.sections o.version.isCompact).flatMap DataSection.mapItems ∨
      m = .of .mapList 1 mapOffset := by
  rw [mapOf, (sortedBy_perm _ _).mem_iff]
  simp only [List.mem_append, List.mem_cons, List.not_mem_nil, or_false, or_assoc]

/-- What is listed is of the kinds that can be, each at most once. -/
theorem subperm_mapOf (h : c.Built o start d) :
    ((c.mapOf o headerOffset l d mapOffset).map MapItem.code).Subperm
      ((mapKinds o.version.isCompact).map SectionKind.code) := by
  have hids := map_flatMap_sublist (c.idExtents l) codes_extentItem
  have hdata := map_flatMap_sublist (d.sections o.version.isCompact) codes_mapItems
  have hkinds := congrArg (List.map SectionKind.code) h.kinds
  rw [List.map_map] at hkinds
  rw [← idMapItems_eq] at hids
  have hall : ((MapItem.of .header 1 headerOffset :: c.idMapItems l ++
      (d.sections o.version.isCompact).flatMap DataSection.mapItems ++
      [MapItem.of .mapList 1 mapOffset]).map MapItem.code).Sublist
      ((mapKinds o.version.isCompact).map SectionKind.code) := by
    simp only [mapKinds, List.map_append, List.map_cons, ← hkinds]
    exact ((List.Sublist.cons_cons _ hids).append hdata).append (List.Sublist.refl _)
  exact ⟨_, ((sortedBy_perm _ _).map _).symm, hall⟩

theorem nodup_mapOf (h : c.Built o start d) :
    ((c.mapOf o headerOffset l d mapOffset).map MapItem.code).Nodup := by
  have hcodes : ((mapKinds o.version.isCompact).map SectionKind.code).Nodup := by
    cases o.version.isCompact <;> decide
  obtain ⟨codes, hperm, hsub⟩ := subperm_mapOf h
  exact hperm.nodup_iff.mp (hcodes.sublist hsub)

theorem length_mapOf_le (h : c.Built o start d) :
    (c.mapOf o headerOffset l d mapOffset).length ≤ 21 := by
  have hkinds : (mapKinds o.version.isCompact).length = 21 := by cases o.version.isCompact <;> rfl
  calc (c.mapOf o headerOffset l d mapOffset).length
      = ((c.mapOf o headerOffset l d mapOffset).map MapItem.code).length := (List.length_map _).symm
    _ ≤ ((mapKinds o.version.isCompact).map SectionKind.code).length := (subperm_mapOf h).length_le
    _ = 21 := by rw [List.length_map, hkinds]

theorem code_of_mem_mapItems {s : DataSection} (hm : m ∈ s.mapItems) : m.code = s.kind.code := by
  have hcode := (codes_mapItems s).subset (List.mem_map.mpr ⟨m, hm, rfl⟩)
  simpa using hcode

theorem Built.kind_mem (h : c.Built o start d) {s : DataSection}
    (hs : s ∈ d.sections o.version.isCompact) : s.kind ∈ dataKinds o.version.isCompact :=
  h.kinds ▸ List.mem_map.mpr ⟨s, hs, rfl⟩

end Contents

/-- What the header says about the ids and the map. -/
structure Header.Lists (h : Header) (c : Contents) (l : IdLayout) (mapOffset : Nat) : Prop where
  strings : h.strings = Extent.of c.pools.strings.size l.strings
  types : h.types = Extent.of c.pools.types.size l.types
  protos : h.protos = Extent.of c.pools.protos.size l.protos
  fields : h.fields = Extent.of c.pools.fields.size l.fields
  methods : h.methods = Extent.of c.pools.methods.size l.methods
  classes : h.classes = Extent.of c.classes.length l.classes
  mapOffset : h.mapOffset = UInt32.ofNat mapOffset

/-- Completing a header keeps what it says about them. -/
theorem Header.Lists.completed {h : Header} {c : Contents} {l : IdLayout} {mapOffset : Nat}
    (hl : h.Lists c l mapOffset) {checksum : UInt32} {signature : Bytes}
    {container : Option ContainerFields} :
    Header.Lists { h with checksum, signature, container } c l mapOffset where
  strings := hl.strings
  types := hl.types
  protos := hl.protos
  fields := hl.fields
  methods := hl.methods
  classes := hl.classes
  mapOffset := hl.mapOffset

namespace DexFile
open Contents

variable {o : WriteOptions} {c : Contents} {l : IdLayout} {d : Contents.Data} {m : MapItem}
  {headerOffset mapOffset start : Nat} {h : Header}

/-- The item has a known kind, about which the header says the same. -/
def Agrees (h : Header) (headerOffset : Nat) (m : MapItem) : Prop :=
  ∃ kind : SectionKind, m.code = kind.code ∧
    ∀ e ∈ expectedExtent? h headerOffset kind, m.size = e.size ∧ m.offset = e.offset

theorem agrees_of_mem (hh : h.Lists c l mapOffset) (hb : c.Built o start d)
    (hm : m ∈ c.mapOf o headerOffset l d mapOffset) : Agrees h headerOffset m := by
  rcases mem_mapOf.mp hm with rfl | hm | hm | rfl
  · exact ⟨.header, rfl, by simp [expectedExtent?, MapItem.of]⟩
  · rw [idMapItems_eq] at hm
    obtain ⟨e, he, hm⟩ := List.mem_flatMap.mp hm
    obtain ⟨hne, rfl⟩ := mem_extentItem.mp hm
    refine ⟨e.1, rfl, ?_⟩
    simp only [idExtents, List.mem_cons, List.not_mem_nil, or_false] at he
    rcases he with rfl | rfl | rfl | rfl | rfl | rfl | rfl | rfl <;>
      simp_all [expectedExtent?, hh.strings, hh.types, hh.protos, hh.fields, hh.methods, hh.classes,
        Extent.of, MapItem.of]
  · obtain ⟨s, hs, hm⟩ := List.mem_flatMap.mp hm
    refine ⟨s.kind, code_of_mem_mapItems hm, ?_⟩
    have hnone : ∀ b, ∀ k ∈ dataKinds b, expectedExtent? h headerOffset k = none := by
      intro b k hk
      cases b <;> cases k <;> first | rfl | exact absurd hk (by decide)
    rw [hnone _ _ (hb.kind_mem hs)]
    simp
  · exact ⟨.mapList, rfl, by simp [expectedExtent?, MapItem.of, hh.mapOffset]⟩

theorem checkMap_eq_ok {map : List MapItem} {seen : List UInt16} (hn : (map.map MapItem.code).Nodup)
    (hseen : ∀ m ∈ map, m.code ∉ seen) (hm : ∀ m ∈ map, Agrees h headerOffset m) :
    checkMap h headerOffset seen map = .ok () := by
  induction map generalizing seen with
  | nil => rfl
  | cons m map ih =>
    rw [List.map_cons, List.nodup_cons] at hn
    obtain ⟨kind, hkind, hextent⟩ := hm m (by simp)
    have hitem : checkMapItem h headerOffset seen m = .ok () := by
      unfold checkMapItem
      rw [hkind, SectionKind.ofCode?_code]
      dsimp only
      rw [← hkind, if_neg (hseen m (by simp))]
      cases hexpected : expectedExtent? h headerOffset kind with
      | none => rfl
      | some e =>
        have hagrees := hextent e hexpected
        dsimp only
        rw [if_neg (by simp [hagrees])]
        rfl
    have hrest : checkMap h headerOffset (m.code :: seen) map = .ok () := by
      apply ih hn.2
      · intro x hx hmem
        rcases List.mem_cons.mp hmem with heq | hmem
        · exact hn.1 (heq ▸ List.mem_map.mpr ⟨x, hx, rfl⟩)
        · exact hseen x (by simp [hx]) hmem
      · exact fun x hx => hm x (by simp [hx])
    rw [checkMap, hitem]
    exact hrest

/-! ## Sections that only the map knows -/

theorem find?_eq {map : List MapItem} {code : UInt16} (hn : (map.map MapItem.code).Nodup)
    (hm : m ∈ map) (hcode : m.code = code) : map.find? (·.code = code) = some m := by
  cases hfind : map.find? (·.code = code) with
  | none =>
    have hnone := List.find?_eq_none.mp hfind m hm
    simp [hcode] at hnone
  | some x =>
    have hx : x.code = code := by simpa using List.find?_some hfind
    rw [List.inj_on_of_nodup_map hn (List.mem_of_find?_eq_some hfind) hm (hx.trans hcode.symm)]

theorem find?_eq_none {map : List MapItem} {code : UInt16} (hnone : ∀ x ∈ map, x.code ≠ code) :
    map.find? (·.code = code) = none := by
  apply List.find?_eq_none.mpr
  simpa using hnone

/-- An item of the map belongs to ids of its kind, or to a section of the data. -/
theorem kind_of_mem (hm : m ∈ c.mapOf o headerOffset l d mapOffset)
    {kind : SectionKind} (hcode : m.code = kind.code) (hheader : kind ≠ .header)
    (hlist : kind ≠ .mapList) : (∃ size offset, (kind, size, offset) ∈ c.idExtents l ∧ size ≠ 0) ∨
      ∃ s ∈ d.sections o.version.isCompact, s.kind = kind ∧ m ∈ s.mapItems := by
  rcases mem_mapOf.mp hm with rfl | hm | hm | rfl
  · have hcode : SectionKind.header.code = kind.code := hcode
    exact absurd (SectionKind.code_injective hcode).symm hheader
  · rw [idMapItems_eq] at hm
    obtain ⟨⟨kind', size, offset⟩, he, hm⟩ := List.mem_flatMap.mp hm
    obtain ⟨hne, rfl⟩ := mem_extentItem.mp hm
    obtain rfl := SectionKind.code_injective (show kind'.code = kind.code from hcode)
    exact .inl ⟨size, offset, he, hne⟩
  · obtain ⟨s, hs, hm⟩ := List.mem_flatMap.mp hm
    have hkind := SectionKind.code_injective ((code_of_mem_mapItems hm).symm.trans hcode)
    exact .inr ⟨s, hs, hkind, hm⟩
  · have hcode : SectionKind.mapList.code = kind.code := hcode
    exact absurd (SectionKind.code_injective hcode).symm hlist

/-- The map tells the extent of ids of a kind that the header leaves out. -/
theorem mapped_eq (hb : c.Built o start d) {kind : SectionKind} {size offset : Nat}
    (he : (kind, size, offset) ∈ c.idExtents l) :
    mapped (c.mapOf o headerOffset l d mapOffset) kind = Extent.of size offset := by
  have hkinds : ((c.idExtents l).map Prod.fst).Nodup := by
    rw [map_fst_idExtents]
    decide
  have hkind : kind ∈ idKinds := map_fst_idExtents c l ▸ List.mem_map.mpr ⟨_, he, rfl⟩
  have hother : kind ≠ .header ∧ kind ≠ .mapList ∧ ∀ b, kind ∉ dataKinds b :=
    ⟨fun h => absurd (h ▸ hkind) (by decide), fun h => absurd (h ▸ hkind) (by decide),
      fun b h => (dataKinds_apart b kind h).2.2 hkind⟩
  unfold mapped Extent.of
  split_ifs with hsize
  · have hnone : ∀ x ∈ c.mapOf o headerOffset l d mapOffset, x.code ≠ kind.code := by
      intro x hx hcode
      rcases kind_of_mem hx hcode hother.1 hother.2.1 with ⟨n, place, hn, hne⟩ | ⟨s, hs, hk, -⟩
      · have heq := List.inj_on_of_nodup_map hkinds hn he rfl
        simp at heq
        omega
      · exact hother.2.2 _ (hk ▸ hb.kind_mem hs)
    rw [find?_eq_none hnone]
  · have hitem : MapItem.of kind size offset ∈ c.idMapItems l := by
      rw [idMapItems_eq]
      exact List.mem_flatMap.mpr ⟨_, he, mem_extentItem.mpr ⟨hsize, rfl⟩⟩
    have hcode : (MapItem.of kind size offset).code = kind.code := rfl
    rw [find?_eq (nodup_mapOf hb) (mem_mapOf.mpr (.inr (.inl hitem))) hcode]
    rfl

/-- The map tells where a section of the data is. -/
theorem find?_section (hb : c.Built o start d) {s : DataSection}
    (hs : s ∈ d.sections o.version.isCompact) :
    (c.mapOf o headerOffset l d mapOffset).find? (·.code = s.kind.code) = s.mapItems.head? := by
  obtain ⟨hheader, hlist, hid⟩ := dataKinds_apart _ _ (hb.kind_mem hs)
  cases hitems : s.mapItems with
  | nil =>
    apply find?_eq_none
    intro x hx hcode
    rcases kind_of_mem hx hcode hheader hlist with ⟨n, place, hn, -⟩ | ⟨s', hs', hk, hm⟩
    · exact hid (map_fst_idExtents c l ▸ List.mem_map.mpr ⟨_, hn, rfl⟩)
    · have hnodup : ((d.sections o.version.isCompact).map DataSection.kind).Nodup := by
        rw [hb.kinds]
        cases o.version.isCompact <;> decide
      have heq := List.inj_on_of_nodup_map hnodup hs' hs hk
      rw [heq, hitems] at hm
      simp at hm
  | cons m rest =>
    have hm : m ∈ s.mapItems := by simp [hitems]
    exact find?_eq (nodup_mapOf hb) (mem_mapOf.mpr (.inr (.inr (.inl
      (List.mem_flatMap.mpr ⟨_, hs, hm⟩))))) (code_of_mem_mapItems hm)

/-- The map tells where the restrictions are. -/
theorem find?_hiddenApi (hb : c.Built o start d) :
    (c.mapOf o headerOffset l d mapOffset).find? (·.code = SectionKind.hiddenApi.code) =
      d.hiddenApi.mapItems.head? := by
  have hmem : d.hiddenApi ∈ d.sections o.version.isCompact := by simp [Data.sections]
  rw [← (hiddenApiSection_spec hb.hiddenApi).2]
  exact find?_section hb hmem

end DexFile

end Dalvik
