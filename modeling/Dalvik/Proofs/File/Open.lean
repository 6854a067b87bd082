import Dalvik.Proofs.File.Ids
import Dalvik.Proofs.File.Map

/-!
# A written file is opened

The header is read at its place, the map agrees with it, and the sections of the ids lie inside the
bytes. What is opened holds every item of the contents that were written.
-/
namespace Dalvik
open Result

/-- The table of debug information is where the header of a compact file says. -/
def Contents.HasDebugTable (c : Contents) (d : Contents.Data) (data : ByteArray)
    (fields : CompactFields) : Prop :=
  ∃ offsets, c.debugOffsets d = .ok offsets ∧ fields.debugIndex = 0 ∧
    fields.debugBase = DebugTable.base offsets ∧ 0 < fields.debugTable.toNat ∧
    (DebugTable.encode offsets).Stands data fields.debugTable.toNat

namespace DexFile
open Contents

/-- The file holds the contents, with their data in sections, as they are written. -/
structure Holds (f : DexFile) (o : WriteOptions) (c : Contents) (d : Contents.Data) : Prop where
  options : f.options = o.options
  version : f.version = o.version
  api : f.api = o.options.targetApi
  opcodes : f.opcodes = OpcodeTable.ofTarget o.target
  small : f.data.size < UInt32.size
  stringCount : 4 * c.pools.strings.size < UInt32.size
  classCount : c.classes.length < UInt32.size
  data : c.Shows o d f.data
  stringItems : d.strings.items.length = c.pools.strings.size
  strings : f.strings.Shows "string" f.bytes encodeString d.strings.items
  types : f.types.Shows "type" f.bytes (typeItem c.resolver) c.pools.types.toList
  protos : f.protos.Shows "proto" f.bytes (c.encodeProto d) c.pools.protos.toList
  fields : f.fields.Shows "field" f.bytes (encodeField c.resolver) c.pools.fields.toList
  methods : f.methods.Shows "method" f.bytes (encodeMethod c.resolver) c.pools.methods.toList
  classes : f.classes.Shows "class def" f.bytes (encodeClass c.resolver d) c.classes.zipIdx
  callSites : f.callSites.Shows "call site" f.bytes (c.callSiteItem d) c.pools.callSites.toList
  methodHandles : f.methodHandles.Shows "method handle" f.bytes (encodeHandle c.resolver)
    c.pools.methodHandles.toList
  hiddenApi : f.hiddenApiOffset? = d.hiddenApi.items.head?.map Placed.offset
  compact : f.header.compact.isSome = o.version.isCompact
  debugTable : ∀ fields ∈ f.header.compact, c.HasDebugTable d f.data fields

variable {o : WriteOptions} {c : Contents} {l : IdLayout} {d : Contents.Data} {v : Version}
  {headerOffset mapOffset start : Nat} {h : Header} {bytes data : ByteArray} {ids rest : Bytes}

theorem versionAt_eq (hf : h.Fits v) (hs : (h.encode ++ rest).Stands bytes headerOffset) :
    versionAt bytes headerOffset = .ok v := by
  have hlength := Header.length_encode hf
  have hbase : Header.baseSize ≤ Header.sizeOf v := by cases v <;> decide
  have hne : h.encode ≠ [] := by
    intro hnil
    rw [hnil] at hlength
    have : Header.baseSize = 0x70 := rfl
    simp at hlength
    omega
  have hinside := hs.left.inside hne
  rw [hlength] at hinside
  have hmagic : h.magic.Stands bytes headerOffset := by
    have hstart := hs.left
    simp only [Header.encode, List.append_assoc] at hstart
    exact hstart.left
  have hextract := hmagic.extract
  rw [hf.magic, Header.length_magic] at hextract
  have hbaseSize : Header.magicSize ≤ Header.baseSize := by decide
  have hslice := Access.slice_eq_ok (Nat.le_add_right headerOffset Header.magicSize)
    (show headerOffset + Header.magicSize ≤ bytes.size by omega)
  unfold versionAt
  rw [if_neg (by omega)]
  dsimp only
  rw [hslice, ok_bind, hextract, Version.ofMagic_magic, ok_bind, if_neg (by omega)]
  rfl

theorem checkHeader_eq_ok {available : Nat} (hend : h.endianTag = Header.littleEndian)
    (hsize : h.headerSize = UInt32.ofNat (Header.sizeOf v))
    (hfile : Header.sizeOf v ≤ h.fileSize.toNat)
    (hfit : headerOffset + h.fileSize.toNat ≤ available)
    (hcontainer : ∀ k ∈ h.container, k.headerOffset.toNat = headerOffset ∧
      k.size.toNat ≤ available) : checkHeader h v headerOffset available = .ok () := by
  have hnat : h.headerSize.toNat = Header.sizeOf v := by
    rw [hsize]
    cases v <;> rfl
  unfold checkHeader
  rw [if_neg (by rw [hend]; decide), if_neg (by rw [hend]; simp)]
  dsimp only
  rw [if_neg (by omega), if_neg (by omega), if_neg (by omega)]
  cases hc : h.container with
  | none => rfl
  | some k =>
    obtain ⟨hplace, hinside⟩ := hcontainer k hc
    dsimp only
    rw [if_neg (by omega), if_neg (by omega)]
    rfl

/-- The place of the restrictions, by the map. -/
theorem hiddenApiOffset_eq (hb : c.Built o start d) (hshows : c.ShowsHiddenApi o d data)
    (hd : data.size < UInt32.size) :
    ((c.mapOf o headerOffset l d mapOffset).find? (·.code = SectionKind.hiddenApi.code)).map
      (·.offset.toNat) = d.hiddenApi.items.head?.map Placed.offset := by
  rw [find?_hiddenApi hb]
  unfold ShowsHiddenApi at hshows
  dsimp only at hshows
  split at hshows
  · simp [DataSection.mapItems, hshows]
  · obtain ⟨p, hitems, -, -, hpos, hle⟩ := hshows
    have hnat : (UInt32.ofNat p.offset).toNat = p.offset := UInt32.toNat_ofNat_of_lt' (by omega)
    have hne : (p.offset != 0) = true := by
      rw [bne_iff_ne]
      omega
    simp [DataSection.mapItems, hitems, hne, MapItem.of, hnat]

theorem size_of_build {name : String} {extent : Extent} {itemSize fileSize : Nat} {s : IdSection}
    (h : IdSection.build name extent itemSize fileSize = .ok s) : s.size = extent.size.toNat := by
  unfold IdSection.build at h
  dsimp only at h
  split at h
  · cases h
  · cases h
    rfl

/-- What is opened lies in the bytes, at the place that was asked for, and its header counts its
classes. -/
theorem ofBytes_spec {options : Options} {f : DexFile}
    (h : ofBytes options bytes headerOffset = .ok f) :
    f.bytes = bytes ∧ f.headerOffset = headerOffset ∧
      dataOf bytes f.version f.header = .ok f.data ∧
      f.classes.size = f.header.classes.size.toNat := by
  obtain ⟨_, -, h⟩ := bind_eq_ok.mp h
  obtain ⟨version, -, h⟩ := bind_eq_ok.mp h
  obtain ⟨header, -, h⟩ := bind_eq_ok.mp h
  obtain ⟨_, -, h⟩ := bind_eq_ok.mp h
  obtain ⟨data, hdata, h⟩ := bind_eq_ok.mp h
  dsimp only at h
  split at h
  all_goals
    obtain ⟨map, -, h⟩ := bind_eq_ok.mp h
    obtain ⟨_, -, h⟩ := bind_eq_ok.mp h
    obtain ⟨strings, -, h⟩ := bind_eq_ok.mp h
    obtain ⟨types, -, h⟩ := bind_eq_ok.mp h
    obtain ⟨protos, -, h⟩ := bind_eq_ok.mp h
    obtain ⟨fields, -, h⟩ := bind_eq_ok.mp h
    obtain ⟨methods, -, h⟩ := bind_eq_ok.mp h
    obtain ⟨classes, hclasses, h⟩ := bind_eq_ok.mp h
    obtain ⟨callSites, -, h⟩ := bind_eq_ok.mp h
    obtain ⟨methodHandles, -, h⟩ := bind_eq_ok.mp h
    obtain rfl := pure_eq_ok.mp h
    exact ⟨rfl, rfl, hdata, size_of_build hclasses⟩

/-- A header, the ids and data that fit together are opened. -/
theorem ofBytes_eq (hv : o.validate = .ok ()) (hf : h.Fits o.version) (hlists : h.Lists c l mapOffset)
    (hl : l = c.layout (headerOffset + Header.sizeOf o.version)) (hb : c.Built o start d)
    (hids : c.encodeIds d = .ok ids)
    (hs : Bytes.Stands (h.encode ++ (ids ++ rest)) bytes headerOffset)
    (hfit : headerOffset + (h.encode ++ (ids ++ rest)).length ≤ bytes.size)
    (hd : bytes.size < UInt32.size)
    (hcheck : checkHeader h o.version headerOffset bytes.size = .ok ())
    (hdata : dataOf bytes o.version h = .ok data) (hsize : data.size ≤ bytes.size)
    (hpos : 0 < mapOffset) (hmap : mapOffset < UInt32.size)
    (hlist : (MapItem.encodeList (c.mapOf o headerOffset l d mapOffset)).Stands data mapOffset)
    (hshows : c.Shows o d data)
    (htable : ∀ fields ∈ h.compact, c.HasDebugTable d data fields) :
    ∃ f, ofBytes o.options bytes headerOffset = .ok f ∧ f.Holds o c d ∧ f.header = h ∧
      f.map = c.mapOf o headerOffset l d mapOffset := by
  have hoptions : o.options.validate = .ok () ∧ ¬ o.options.targetApi < o.version.minApi := by
    obtain ⟨_, hval, hv⟩ := bind_eq_ok.mp hv
    exact ⟨hval, (unsupported_ite_eq_ok.mp hv).1⟩
  have hapi : max o.options.targetApi o.version.minApi = o.options.targetApi := by omega
  have hversion := versionAt_eq hf hs
  have hheader := (Header.decode_reads hf).valueAt hs.left
  have hlength := Header.length_encode hf
  have hnat : h.mapOffset.toNat = mapOffset := by
    rw [hlists.mapOffset, UInt32.toNat_ofNat_of_lt' hmap]
  have hentries := MapItem.decodeList_eq (Nat.lt_of_le_of_lt hsize hd) hlist
  have hcheckMap : checkMap h headerOffset [] (c.mapOf o headerOffset l d mapOffset) = .ok () :=
    checkMap_eq_ok (nodup_mapOf hb) (by simp) fun m hm => agrees_of_mem hlists hb hm
  have hcallSites : mapped (c.mapOf o headerOffset l d mapOffset) .callSiteIds =
      Extent.of c.pools.callSites.size l.callSites := mapped_eq hb (by simp [idExtents])
  have hmethodHandles : mapped (c.mapOf o headerOffset l d mapOffset) .methodHandles =
      Extent.of c.pools.methodHandles.size l.methodHandles := mapped_eq hb (by simp [idExtents])
  -- the sections of the ids
  obtain ⟨p, hp, rfl⟩ := exists_parts hids
  have hstrings := hb.length_strings
  have hbody := hs.right
  rw [hlength] at hbody
  simp only [List.length_append, hlength] at hfit
  have hlie := hp.lie hstrings hbody.left (by omega)
  rw [← hl] at hlie
  obtain ⟨strings, hstringsEq, hstringsShow⟩ :=
    hp.strings.exists_section (by decide) "string" hd hlie.strings
  obtain ⟨types, htypesEq, htypesShow⟩ := hp.types.exists_section (by decide) "type" hd hlie.types
  obtain ⟨protos, hprotosEq, hprotosShow⟩ :=
    hp.protos.exists_section (by decide) "proto" hd hlie.protos
  obtain ⟨fields, hfieldsEq, hfieldsShow⟩ :=
    hp.fields.exists_section (by decide) "field" hd hlie.fields
  obtain ⟨methods, hmethodsEq, hmethodsShow⟩ :=
    hp.methods.exists_section (by decide) "method" hd hlie.methods
  obtain ⟨classes, hclassesEq, hclassesShow⟩ :=
    hp.classes.exists_section (by decide) "class def" hd hlie.classes
  obtain ⟨callSites, hcallSitesEq, hcallSitesShow⟩ :=
    hp.callSites.exists_section (by decide) "call site" hd hlie.callSites
  obtain ⟨methodHandles, hmethodHandlesEq, hmethodHandlesShow⟩ :=
    hp.methodHandles.exists_section (by decide) "method handle" hd hlie.methodHandles
  rw [hstrings, ← hlists.strings] at hstringsEq
  rw [ItemSet.length_toList, ← hlists.types] at htypesEq
  rw [ItemSet.length_toList, ← hlists.protos] at hprotosEq
  rw [ItemSet.length_toList, ← hlists.fields] at hfieldsEq
  rw [ItemSet.length_toList, ← hlists.methods] at hmethodsEq
  rw [List.length_zipIdx, ← hlists.classes] at hclassesEq
  rw [ItemSet.length_toList, ← hcallSites] at hcallSitesEq
  rw [ItemSet.length_toList, ← hmethodHandles] at hmethodHandlesEq
  refine ⟨{
    bytes, data, headerOffset, header := h, strings, types, protos, fields, methods, classes,
    callSites, methodHandles
    version := o.version
    options := o.options
    api := o.options.targetApi
    opcodes := OpcodeTable.ofTarget o.target
    map := c.mapOf o headerOffset l d mapOffset }, ?_, ?_, rfl, rfl⟩
  · unfold ofBytes
    simp only [hoptions.1, hversion, hheader, hcheck, hdata, ok_bind, hapi, hnat]
    rw [if_neg (by omega), hentries]
    simp only [Result.within_ok, ok_bind, hcheckMap, hstringsEq, htypesEq, hprotosEq, hfieldsEq,
      hmethodsEq, hclassesEq, hcallSitesEq, hmethodHandlesEq]
    rfl
  · exact {
      options := rfl
      version := rfl
      api := rfl
      opcodes := rfl
      small := Nat.lt_of_le_of_lt hsize hd
      stringCount := by
        have hcount := hp.strings.length
        have hinside := hlie.strings.2
        rw [hcount, hstrings, IdItem.stringSize] at hinside
        omega
      classCount := by
        have hcount := hp.classes.length
        have hinside := hlie.classes.2
        rw [hcount, List.length_zipIdx, IdItem.Class.size] at hinside
        omega
      data := hshows
      stringItems := hstrings
      strings := hstringsShow
      types := htypesShow
      protos := hprotosShow
      fields := hfieldsShow
      methods := hmethodsShow
      classes := hclassesShow
      callSites := hcallSitesShow
      methodHandles := hmethodHandlesShow
      hiddenApi := hiddenApiOffset_eq hb hshows.hiddenApi (Nat.lt_of_le_of_lt hsize hd)
      compact := hf.compact
      debugTable := htable }

end DexFile

end Dalvik
