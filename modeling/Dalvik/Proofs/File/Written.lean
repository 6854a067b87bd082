import Dalvik.Proofs.File.Open

/-!
# The parts of a file that is written

The layouts of standard and of compact files put the header, the ids, the data and the map where
opening looks for them. This holds whatever is filled in for the signature, the checksum and the
size of the container.
-/
namespace Dalvik
open Result

namespace Contents

variable {o : WriteOptions} {c : Contents} {headerOffset : Nat} {file : Bytes}

/-- What has been filled up with zeros, and where it ends. -/
theorem length_padded (alignment position : Nat) (bytes : Bytes) :
    position + (padded alignment position bytes).length =
      alignUp (position + bytes.length) alignment := by
  rw [padded, List.length_append, ← Nat.add_assoc, length_padding]

theorem length_padded_le (alignment position : Nat) (bytes : Bytes) :
    (padded alignment position bytes).length ≤ bytes.length + (alignment - 1) := by
  have hlength := length_padded alignment position bytes
  have hle := alignUp_le (position + bytes.length) alignment
  omega

/-- Zeros stand between the ids and the data. -/
theorem exists_gap (alignment : Nat) {header : Header} (hfits : header.Fits o.version) {ids : Bytes}
    {stop : Nat} (hstop : headerOffset + Header.sizeOf o.version + ids.length = stop) :
    ∃ gap : Bytes,
      padded alignment headerOffset (header.encode ++ ids) = header.encode ++ (ids ++ gap) ∧
      headerOffset + (Header.sizeOf o.version + (ids.length + gap.length)) =
        alignUp stop alignment := by
  obtain ⟨gap, hgap⟩ : ∃ gap, padded alignment headerOffset (header.encode ++ ids) =
      header.encode ++ (ids ++ gap) := ⟨_, by rw [padded, List.append_assoc]⟩
  have hpad := length_padded alignment headerOffset (header.encode ++ ids)
  rw [hgap] at hpad
  simp only [List.length_append, Header.length_encode hfits] at hpad
  rw [← Nat.add_assoc headerOffset (Header.sizeOf o.version) ids.length, hstop] at hpad
  exact ⟨gap, hgap, hpad⟩

/-- Completing a header does not change how long it is. -/
theorem length_completed {header : Header} (hfits : header.Fits o.version) {checksum : UInt32}
    {signature : Bytes} {container : Option ContainerFields}
    (hfits' : Header.Fits o.version { header with checksum, signature, container }) (rest : Bytes) :
    ({ header with checksum, signature, container }.encode ++ rest).length =
      (header.encode ++ rest).length := by
  rw [List.length_append, List.length_append, Header.length_encode hfits,
    Header.length_encode hfits']

/-- The ids are as long as the layout says. -/
theorem stop_eq_of_encodeIds {d : Data} {start : Nat} (hb : c.Built o start d) {ids : Bytes}
    (hids : c.encodeIds d = .ok ids) (place : Nat) : place + ids.length = (c.layout place).stop := by
  obtain ⟨p, hp, rfl⟩ := exists_parts hids
  exact hp.stop_eq hb.length_strings place

/-! ## Standard files -/

/-- The parts of a standard file: the data begins at `dataOffset`, behind the ids and a gap. -/
structure StandardParts (c : Contents) (o : WriteOptions) (headerOffset : Nat) (h : Header) (d : Data)
    (ids gap tail : Bytes) (dataOffset mapOffset : Nat) : Prop where
  version : o.version.isCompact = false
  fits : h.Fits o.version
  container : ∀ k ∈ h.container, k.headerOffset = UInt32.ofNat headerOffset
  lists : h.Lists c (c.layout (headerOffset + Header.sizeOf o.version)) mapOffset
  endianTag : h.endianTag = Header.littleEndian
  headerSize : h.headerSize = UInt32.ofNat (Header.sizeOf o.version)
  fileSize : h.fileSize = UInt32.ofNat (dataOffset + tail.length - headerOffset)
  data : h.data = ⟨UInt32.ofNat tail.length, UInt32.ofNat dataOffset⟩
  built : c.Built o dataOffset d
  encoded : c.encodeIds d = .ok ids
  idsStop : headerOffset + Header.sizeOf o.version + ids.length =
    (c.layout (headerOffset + Header.sizeOf o.version)).stop
  place : headerOffset + (Header.sizeOf o.version + (ids.length + gap.length)) = dataOffset
  stop : dataOffset + tail.length < UInt32.size
  mapAligned : 4 ∣ mapOffset
  stopAligned : 8 ∣ dataOffset + tail.length
  tail : ∃ fill after, tail = d.bytes o.version.isCompact ++ (fill ++ (MapItem.encodeList
    (c.mapOf o headerOffset (c.layout (headerOffset + Header.sizeOf o.version)) d mapOffset) ++
      after)) ∧ mapOffset = dataOffset + (d.bytes o.version.isCompact).length + fill.length

theorem standardParts_of_encode (hc : o.version.isCompact = false)
    (h : c.encodeStandard o headerOffset = .ok file) :
    ∃ (header : Header) (d : Data) (ids gap tail : Bytes) (dataOffset mapOffset : Nat),
      c.StandardParts o headerOffset header d ids gap tail dataOffset mapOffset ∧
      file = header.encode ++ (ids ++ (gap ++ tail)) := by
  obtain ⟨d, hd, h⟩ := bind_eq_ok.mp h
  obtain ⟨ids, hids, h⟩ := bind_eq_ok.mp h
  obtain ⟨_, hstop, h⟩ := bind_eq_ok.mp h
  have h := pure_eq_ok.mp h
  obtain ⟨hstop, -⟩ := violation_ite_eq_ok.mp hstop
  have hb := built_of_data hd
  have hidsStop := stop_eq_of_encodeIds hb hids (headerOffset + Header.sizeOf o.version)
  generalize hl : c.layout (headerOffset + Header.sizeOf o.version) = l at *
  generalize hdata : alignUp l.stop mapAlignment = dataOffset at *
  generalize hitems : padded mapAlignment dataOffset (d.bytes false) = items at *
  generalize htail : padded dataAlignment dataOffset (items ++
    MapItem.encodeList (c.mapOf o headerOffset l d (dataOffset + items.length))) = tail at *
  generalize hheader : ({ c.headerOf o.version l (dataOffset + items.length) with
    fileSize := UInt32.ofNat (dataOffset + tail.length - headerOffset)
    data := ⟨UInt32.ofNat tail.length, UInt32.ofNat dataOffset⟩
    container := if o.version.isContainer then some ⟨0, UInt32.ofNat headerOffset⟩ else none } :
      Header) = header at *
  have hfits : header.Fits o.version := by
    rw [← hheader]
    refine ⟨rfl, rfl, hc.symm, ?_⟩
    dsimp only
    split <;> simp_all
  obtain ⟨gap, hgap, hplace⟩ := exists_gap mapAlignment hfits hidsStop
  obtain ⟨fill, hfill⟩ : ∃ fill, items = d.bytes false ++ fill := ⟨_, hitems.symm⟩
  obtain ⟨after, hafter⟩ : ∃ after, tail = items ++ MapItem.encodeList
      (c.mapOf o headerOffset l d (dataOffset + items.length)) ++ after := ⟨_, htail.symm⟩
  refine ⟨header, d, ids, gap, tail, dataOffset, dataOffset + items.length, ?_, by
    rw [← h, hgap, List.append_assoc, List.append_assoc]⟩
  exact {
    version := hc
    fits := hfits
    container := by
      rw [← hheader]
      dsimp only
      split <;> simp
    lists := by
      rw [← hheader, hl]
      exact ⟨rfl, rfl, rfl, rfl, rfl, rfl, rfl⟩
    endianTag := by rw [← hheader]; rfl
    headerSize := by rw [← hheader]; rfl
    fileSize := by rw [← hheader]
    data := by rw [← hheader]
    built := hb
    encoded := hids
    idsStop := by rw [hl, hidsStop]
    place := hplace.trans hdata
    stop := Nat.lt_succ_of_le (Nat.le_of_not_lt hstop)
    mapAligned := by
      rw [← hitems, length_padded]
      exact Nat.dvd_of_mod_eq_zero (alignUp_mod _ 2)
    stopAligned := by
      rw [← htail, length_padded]
      exact Nat.dvd_of_mod_eq_zero (alignUp_mod _ 3)
    tail := by
      refine ⟨fill, after, ?_, ?_⟩
      · rw [hafter, hc, hl, ← List.append_assoc (d.bytes false), ← hfill, List.append_assoc]
      · rw [hc, hfill, List.length_append, Nat.add_assoc] }

/-- A file whose data and ids can be encoded is written unless it is too large. -/
theorem exists_encodeStandard {d : Data} {ids : Bytes} {start : Nat}
    (hstart : alignUp (c.layout (headerOffset + Header.sizeOf o.version)).stop mapAlignment = start)
    (hd : c.data o start = .ok d) (hids : c.encodeIds d = .ok ids)
    (hsmall : start + (d.bytes false).length + 266 ≤ 0xffffffff) :
    ∃ file, c.encodeStandard o headerOffset = .ok file := by
  subst hstart
  refine ⟨_, bind_eq_ok.mpr ⟨d, hd, bind_eq_ok.mpr ⟨ids, hids,
    bind_eq_ok.mpr ⟨(), if_neg (Nat.not_lt.mpr ?_), rfl⟩⟩⟩⟩
  generalize c.layout (headerOffset + Header.sizeOf o.version) = l at *
  generalize alignUp l.stop mapAlignment = start at *
  generalize hitems : padded mapAlignment start (d.bytes false) = items
  have hmap : (c.mapOf o headerOffset l d (start + items.length)).length ≤ 21 :=
    length_mapOf_le (built_of_data hd)
  have hlength := length_padded_le mapAlignment start (d.bytes false)
  refine Nat.le_trans (Nat.add_le_add_left (length_padded_le _ _ _) _) (Nat.le_trans ?_ hsmall)
  rw [hitems] at hlength
  rw [List.length_append, MapItem.length_encodeList]
  simp only [mapAlignment, dataAlignment, MapItem.itemSize] at hlength ⊢
  omega

theorem StandardParts.completed {header : Header} {d : Data} {ids gap tail : Bytes}
    {dataOffset mapOffset : Nat}
    (h : c.StandardParts o headerOffset header d ids gap tail dataOffset mapOffset)
    {checksum : UInt32} {signature : Bytes} {container : Option ContainerFields}
    (hfits : Header.Fits o.version { header with checksum, signature, container })
    (hcontainer : ∀ k ∈ container, k.headerOffset = UInt32.ofNat headerOffset) :
    c.StandardParts o headerOffset { header with checksum, signature, container } d ids gap tail
      dataOffset mapOffset :=
  { h with fits := hfits, container := hcontainer, lists := h.lists.completed }

theorem StandardParts.length_eq {header : Header} {d : Data} {ids gap tail : Bytes}
    {dataOffset mapOffset : Nat}
    (h : c.StandardParts o headerOffset header d ids gap tail dataOffset mapOffset) :
    headerOffset + (header.encode ++ (ids ++ (gap ++ tail))).length = dataOffset + tail.length := by
  have hplace := h.place
  rw [List.length_append, Header.length_encode h.fits, List.length_append, List.length_append]
  omega

/-- The map is where the header says, in front of the end. -/
theorem StandardParts.mapOffset_eq {header : Header} {d : Data} {ids gap tail : Bytes}
    {dataOffset mapOffset : Nat}
    (h : c.StandardParts o headerOffset header d ids gap tail dataOffset mapOffset) :
    header.mapOffset.toNat = mapOffset := by
  obtain ⟨fill, after, htail, hmapOffset⟩ := h.tail
  have hstop := h.stop
  have hlength := congrArg List.length htail
  simp only [List.length_append] at hlength
  rw [h.lists.mapOffset, UInt32.toNat_ofNat_of_lt' (by omega)]

theorem StandardParts.opens {header : Header} {d : Data} {ids gap tail : Bytes}
    {dataOffset mapOffset : Nat} (hv : o.validate = .ok ())
    (h : c.StandardParts o headerOffset header d ids gap tail dataOffset mapOffset)
    {bytes : ByteArray} (hs : Bytes.Stands (header.encode ++ (ids ++ (gap ++ tail))) bytes headerOffset)
    (hfit : headerOffset + (header.encode ++ (ids ++ (gap ++ tail))).length ≤ bytes.size)
    (hd : bytes.size < UInt32.size) (hsize : ∀ k ∈ header.container, k.size.toNat ≤ bytes.size) :
    ∃ f, DexFile.ofBytes o.options bytes headerOffset = .ok f ∧ f.Holds o c d ∧ f.header = header ∧
      f.map = c.mapOf o headerOffset (c.layout (headerOffset + Header.sizeOf o.version)) d
        mapOffset := by
  have hplace := h.place
  have hstop := h.stop
  obtain ⟨fill, after, htail, hmapOffset⟩ := h.tail
  have hlength := Header.length_encode h.fits
  have hsizeOf : 0 < Header.sizeOf o.version := by cases o.version <;> decide
  have hinside := hfit
  rw [h.length_eq] at hfit
  -- the data, and the map in it
  have hdata : tail.Stands bytes dataOffset := by
    have hlast := hs.right.right.right
    rw [hlength] at hlast
    rwa [show headerOffset + Header.sizeOf o.version + ids.length + gap.length = dataOffset by
      omega] at hlast
  have hlist : (MapItem.encodeList (c.mapOf o headerOffset
      (c.layout (headerOffset + Header.sizeOf o.version)) d mapOffset)).Stands bytes mapOffset := by
    rw [htail] at hdata
    have hlast := hdata.right.right.left
    rwa [← hmapOffset] at hlast
  have htailLength := congrArg List.length htail
  simp only [List.length_append] at htailLength
  have hshows := h.built.shows (by omega) (htail ▸ hdata).left (by omega)
  have hnat : header.fileSize.toNat = dataOffset + tail.length - headerOffset := by
    rw [h.fileSize, UInt32.toNat_ofNat_of_lt' (by omega)]
  have hcheck : DexFile.checkHeader header o.version headerOffset bytes.size = .ok () := by
    apply DexFile.checkHeader_eq_ok h.endianTag h.headerSize (by omega) (by omega)
    intro k hk
    refine ⟨?_, hsize k hk⟩
    rw [h.container k hk, UInt32.toNat_ofNat_of_lt' (by omega)]
  have hbytes : DexFile.dataOf bytes o.version header = .ok bytes := by
    rw [DexFile.dataOf, h.version]
    rfl
  have hcompact : header.compact = none := by
    rw [← Option.isNone_iff_eq_none, ← Option.not_isSome, h.fits.compact, h.version]
    rfl
  exact DexFile.ofBytes_eq hv h.fits h.lists rfl h.built h.encoded hs hinside hd hcheck hbytes
    (Nat.le_refl _) (by omega) (by omega) hlist hshows (by simp [hcompact])

/-! ## Compact files -/

/-- The parts of a compact file: the data counts from its own start, and the table of debug
information stands behind the map. -/
structure CompactParts (c : Contents) (o : WriteOptions) (h : Header) (d : Data)
    (ids gap tail : Bytes) (dataOffset mapOffset : Nat) : Prop where
  version : o.version.isCompact = true
  fits : h.Fits o.version
  lists : h.Lists c (c.layout (0 + Header.sizeOf o.version)) mapOffset
  endianTag : h.endianTag = Header.littleEndian
  headerSize : h.headerSize = UInt32.ofNat (Header.sizeOf o.version)
  fileSize : h.fileSize = UInt32.ofNat dataOffset
  data : h.data = ⟨UInt32.ofNat tail.length, UInt32.ofNat dataOffset⟩
  built : c.Built o reserved d
  encoded : c.encodeIds d = .ok ids
  idsStop : 0 + Header.sizeOf o.version + ids.length =
    (c.layout (0 + Header.sizeOf o.version)).stop
  place : Header.sizeOf o.version + (ids.length + gap.length) = dataOffset
  stop : dataOffset + tail.length < UInt32.size
  mapAligned : 4 ∣ mapOffset
  dataAligned : 8 ∣ dataOffset
  tail : ∃ front fill gap' offsets after, tail = front ++ (d.bytes o.version.isCompact ++ (fill ++
    (MapItem.encodeList (c.mapOf o 0 (c.layout (0 + Header.sizeOf o.version)) d mapOffset) ++
      (gap' ++ (DebugTable.encode offsets ++ after))))) ∧ front.length = reserved ∧
    mapOffset = reserved + (d.bytes o.version.isCompact).length + fill.length ∧
    c.debugOffsets d = .ok offsets ∧ ∀ fields ∈ h.compact, fields.debugIndex = 0 ∧
      fields.debugBase = DebugTable.base offsets ∧ fields.debugTable = UInt32.ofNat (mapOffset +
        (MapItem.encodeList (c.mapOf o 0 (c.layout (0 + Header.sizeOf o.version)) d
          mapOffset)).length + gap'.length)

theorem compactParts_of_encode (hc : o.version.isCompact = true) (h : c.encodeCompact o = .ok file) :
    ∃ (header : Header) (d : Data) (ids gap tail : Bytes) (dataOffset mapOffset : Nat),
      c.CompactParts o header d ids gap tail dataOffset mapOffset ∧
      file = header.encode ++ (ids ++ (gap ++ tail)) := by
  obtain ⟨d, hd, h⟩ := bind_eq_ok.mp h
  obtain ⟨ids, hids, h⟩ := bind_eq_ok.mp h
  obtain ⟨offsets, hoffsets, h⟩ := bind_eq_ok.mp h
  obtain ⟨_, hstop, h⟩ := bind_eq_ok.mp h
  have h := pure_eq_ok.mp h
  obtain ⟨hstop, -⟩ := violation_ite_eq_ok.mp hstop
  have hb := built_of_data hd
  have hidsStop := stop_eq_of_encodeIds hb hids (0 + Header.sizeOf o.version)
  rw [← Nat.zero_add (Header.sizeOf o.version)] at h hstop
  generalize hl : c.layout (0 + Header.sizeOf o.version) = l at *
  generalize hdata : alignUp l.stop dataAlignment = dataOffset at *
  generalize hitems : padded mapAlignment 0 (List.replicate reserved 0 ++ d.bytes true) = items at *
  generalize hupToMap : padded mapAlignment 0 (items ++
    MapItem.encodeList (c.mapOf o 0 l d items.length)) = upToMap at *
  generalize htail : padded dataAlignment 0 (upToMap ++ DebugTable.encode offsets) = tail at *
  generalize hheader : ({ c.headerOf o.version l items.length with
    fileSize := UInt32.ofNat dataOffset
    data := ⟨UInt32.ofNat tail.length, UInt32.ofNat dataOffset⟩
    compact := some {
      features := 1
      debugTable := UInt32.ofNat upToMap.length
      debugIndex := 0
      debugBase := DebugTable.base offsets
      ownedBegin := 0
      ownedEnd := UInt32.ofNat tail.length } } : Header) = header at *
  have hfits : header.Fits o.version := by
    rw [← hheader]
    refine ⟨rfl, rfl, hc.symm, ?_⟩
    generalize o.version = v at hc
    cases v <;> first | rfl | cases hc
  obtain ⟨gap, hgap, hplace⟩ := exists_gap dataAlignment hfits hidsStop
  rw [Nat.zero_add] at hplace
  obtain ⟨fill, hfill⟩ : ∃ fill, items = List.replicate reserved 0 ++ d.bytes true ++ fill :=
    ⟨_, hitems.symm⟩
  obtain ⟨gap', hgap'⟩ : ∃ gap', upToMap = items ++
      MapItem.encodeList (c.mapOf o 0 l d items.length) ++ gap' := ⟨_, hupToMap.symm⟩
  obtain ⟨after, hafter⟩ : ∃ after, tail = upToMap ++ DebugTable.encode offsets ++ after :=
    ⟨_, htail.symm⟩
  refine ⟨header, d, ids, gap, tail, dataOffset, items.length, ?_, by
    rw [← h, hgap, List.append_assoc, List.append_assoc]⟩
  exact {
    version := hc
    fits := hfits
    lists := by
      rw [← hheader, hl]
      exact ⟨rfl, rfl, rfl, rfl, rfl, rfl, rfl⟩
    endianTag := by rw [← hheader]; rfl
    headerSize := by rw [← hheader]; rfl
    fileSize := by rw [← hheader]
    data := by rw [← hheader]
    built := hb
    encoded := hids
    idsStop := by rw [hl, hidsStop]
    place := hplace.trans hdata
    stop := Nat.lt_succ_of_le (Nat.le_of_not_lt hstop)
    mapAligned := by
      have hlength := length_padded mapAlignment 0 (List.replicate reserved 0 ++ d.bytes true)
      rw [hitems, Nat.zero_add] at hlength
      rw [hlength]
      exact Nat.dvd_of_mod_eq_zero (alignUp_mod _ 2)
    dataAligned := by
      rw [← hdata]
      exact Nat.dvd_of_mod_eq_zero (alignUp_mod _ 3)
    tail := by
      refine ⟨List.replicate reserved 0, fill, gap', offsets, after, ?_, ?_, ?_, hoffsets, ?_⟩
      · rw [hafter, hgap', hc, hl, ← List.append_assoc (d.bytes true), ← List.append_assoc,
          ← List.append_assoc (List.replicate reserved 0), ← hfill]
        simp only [List.append_assoc]
      · exact List.length_replicate
      · rw [hc, hfill, List.length_append, List.length_append, List.length_replicate]
      · rw [← hheader, hl]
        simp only [Option.mem_def, Option.some.injEq, forall_eq', true_and]
        rw [hgap', List.length_append, List.length_append] }

theorem CompactParts.completed {header : Header} {d : Data} {ids gap tail : Bytes}
    {dataOffset mapOffset : Nat}
    (h : c.CompactParts o header d ids gap tail dataOffset mapOffset)
    {checksum : UInt32} {signature : Bytes} {container : Option ContainerFields}
    (hfits : Header.Fits o.version { header with checksum, signature, container }) :
    c.CompactParts o { header with checksum, signature, container } d ids gap tail dataOffset
      mapOffset :=
  { h with fits := hfits, lists := h.lists.completed }

theorem CompactParts.length_eq {header : Header} {d : Data} {ids gap tail : Bytes}
    {dataOffset mapOffset : Nat}
    (h : c.CompactParts o header d ids gap tail dataOffset mapOffset) :
    (header.encode ++ (ids ++ (gap ++ tail))).length = dataOffset + tail.length := by
  have hplace := h.place
  rw [List.length_append, Header.length_encode h.fits, List.length_append, List.length_append]
  omega

theorem CompactParts.mapOffset_eq {header : Header} {d : Data} {ids gap tail : Bytes}
    {dataOffset mapOffset : Nat}
    (h : c.CompactParts o header d ids gap tail dataOffset mapOffset) :
    header.mapOffset.toNat = mapOffset := by
  obtain ⟨front, fill, gap', offsets, after, htail, hfront, hmapOffset, -⟩ := h.tail
  have hstop := h.stop
  have hlength := congrArg List.length htail
  simp only [List.length_append] at hlength
  rw [h.lists.mapOffset, UInt32.toNat_ofNat_of_lt' (by omega)]

theorem CompactParts.container_eq {header : Header} {d : Data} {ids gap tail : Bytes}
    {dataOffset mapOffset : Nat}
    (h : c.CompactParts o header d ids gap tail dataOffset mapOffset) : header.container = none := by
  have hcontainer := h.fits.container
  have hversion := h.version
  generalize o.version = v at hcontainer hversion
  cases v <;> first
    | exact Option.isNone_iff_eq_none.mp (by simpa [Version.isContainer] using hcontainer)
    | cases hversion

theorem CompactParts.opens {header : Header} {d : Data} {ids gap tail : Bytes}
    {dataOffset mapOffset : Nat} (hv : o.validate = .ok ())
    (h : c.CompactParts o header d ids gap tail dataOffset mapOffset) {bytes : ByteArray}
    (hs : Bytes.Stands (header.encode ++ (ids ++ (gap ++ tail))) bytes 0)
    (hfit : (header.encode ++ (ids ++ (gap ++ tail))).length ≤ bytes.size)
    (hd : bytes.size < UInt32.size) :
    ∃ f, DexFile.ofBytes o.options bytes 0 = .ok f ∧ f.Holds o c d ∧ f.header = header ∧
      f.map = c.mapOf o 0 (c.layout (0 + Header.sizeOf o.version)) d mapOffset := by
  have hplace := h.place
  have hstop := h.stop
  obtain ⟨front, fill, gap', offsets, after, htail, hfront, hmapOffset, hoffsets, hfields⟩ := h.tail
  have hlength := Header.length_encode h.fits
  have hsizeOf : 0 < Header.sizeOf o.version := by cases o.version <;> decide
  have hreserved : reserved = 8 := rfl
  have hinside := hfit
  rw [← Nat.zero_add (List.length _)] at hinside
  rw [h.length_eq] at hfit
  -- the data from its own start
  have hdataAt : tail.Stands bytes (dataOffset + 0) := by
    have hlast := hs.right.right.right
    rw [hlength] at hlast
    rwa [show 0 + Header.sizeOf o.version + ids.length + gap.length = dataOffset + 0 by omega] at hlast
  have hdata := hdataAt.extract_from
  have hbytes : DexFile.dataOf bytes o.version header =
      .ok (bytes.extract dataOffset bytes.size) := by
    have hoffset : (UInt32.ofNat dataOffset).toNat = dataOffset := UInt32.toNat_ofNat_of_lt' (by omega)
    have hsize : (UInt32.ofNat tail.length).toNat = tail.length := UInt32.toNat_ofNat_of_lt' (by omega)
    unfold DexFile.dataOf
    rw [if_pos h.version]
    simp only [h.data, hoffset, hsize]
    rw [if_neg (by omega)]
    exact Access.slice_eq_ok (by omega) (Nat.le_refl _)
  have hextracted : (bytes.extract dataOffset bytes.size).size = bytes.size - dataOffset := by
    simp
  generalize bytes.extract dataOffset bytes.size = data at hdata hbytes hextracted
  have htailLength := congrArg List.length htail
  simp only [List.length_append] at htailLength
  rw [htail] at hdata
  have hitems := hdata.right
  have hlist := hitems.right.right.left
  have htable := hitems.right.right.right.right.left
  rw [hfront, Nat.zero_add reserved] at hitems hlist htable
  rw [← hmapOffset] at hlist htable
  have hshows := h.built.shows (by omega) hitems.left (by omega)
  have hnat : header.fileSize.toNat = dataOffset := by
    rw [h.fileSize, UInt32.toNat_ofNat_of_lt' (by omega)]
  have hcheck : DexFile.checkHeader header o.version 0 bytes.size = .ok () :=
    DexFile.checkHeader_eq_ok h.endianTag h.headerSize (by omega) (by omega)
      (by simp [h.container_eq])
  have hdebug : ∀ fields ∈ header.compact, c.HasDebugTable d data fields := by
    intro fields hmem
    obtain ⟨hindex, hbase, htableOffset⟩ := hfields fields hmem
    have htableNat : fields.debugTable.toNat = mapOffset + (MapItem.encodeList (c.mapOf o 0
        (c.layout (0 + Header.sizeOf o.version)) d mapOffset)).length + gap'.length := by
      rw [htableOffset, UInt32.toNat_ofNat_of_lt' (by omega)]
    refine ⟨offsets, hoffsets, hindex, hbase, by omega, ?_⟩
    rwa [htableNat]
  exact DexFile.ofBytes_eq hv h.fits h.lists rfl h.built h.encoded hs hinside hd hcheck hbytes
    (by omega) (by omega) (by omega) hlist hshows hdebug

/-! ## Either of the two -/

/-- The parts of a file, standard or compact, behind its header. -/
inductive Parts (c : Contents) (o : WriteOptions) (headerOffset : Nat) (h : Header) (rest : Bytes)
    (d : Data) : Prop
  | standard {ids gap tail : Bytes} {dataOffset mapOffset : Nat}
    (parts : c.StandardParts o headerOffset h d ids gap tail dataOffset mapOffset)
    (hrest : rest = ids ++ (gap ++ tail))
  | compact {ids gap tail : Bytes} {dataOffset mapOffset : Nat}
    (parts : c.CompactParts o h d ids gap tail dataOffset mapOffset) (hplace : headerOffset = 0)
    (hrest : rest = ids ++ (gap ++ tail))

namespace Parts

variable {header : Header} {rest : Bytes} {d : Data}

theorem fits (h : c.Parts o headerOffset header rest d) : header.Fits o.version := by
  cases h with
  | standard parts => exact parts.fits
  | compact parts => exact parts.fits

theorem container (h : c.Parts o headerOffset header rest d) :
    ∀ k ∈ header.container, k.headerOffset = UInt32.ofNat headerOffset := by
  cases h with
  | standard parts => exact parts.container
  | compact parts => simp [parts.container_eq]

theorem small (h : c.Parts o headerOffset header rest d) :
    headerOffset + (header.encode ++ rest).length < UInt32.size := by
  cases h with
  | standard parts hrest =>
    rw [hrest, parts.length_eq]
    exact parts.stop
  | compact parts hplace hrest =>
    rw [hplace, Nat.zero_add, hrest, parts.length_eq]
    exact parts.stop

theorem lists (h : c.Parts o headerOffset header rest d) :
    header.Lists c (c.layout (headerOffset + Header.sizeOf o.version)) header.mapOffset.toNat := by
  cases h with
  | standard parts => exact parts.mapOffset_eq ▸ parts.lists
  | compact parts hplace =>
    rw [parts.mapOffset_eq, hplace]
    exact parts.lists

/-- All offsets of the data are positive and can be counted with 32 bits. -/
theorem built (h : c.Parts o headerOffset header rest d) : ∃ start, 0 < start ∧ c.Built o start d ∧
    start + (d.bytes o.version.isCompact).length < UInt32.size := by
  have hsize : 0 < Header.sizeOf o.version := by cases o.version <;> decide
  cases h with
  | standard parts =>
    obtain ⟨fill, after, htail, -⟩ := parts.tail
    have hlength := congrArg List.length htail
    simp only [List.length_append] at hlength
    have hplace := parts.place
    have hstop := parts.stop
    exact ⟨_, by omega, parts.built, by omega⟩
  | compact parts =>
    obtain ⟨front, fill, gap, offsets, after, htail, hfront, -⟩ := parts.tail
    have hlength := congrArg List.length htail
    simp only [List.length_append] at hlength
    have hstop := parts.stop
    exact ⟨reserved, by decide, parts.built, by omega⟩

/-- The ids come first, and they end where the layout says. -/
theorem exists_ids (h : c.Parts o headerOffset header rest d) :
    ∃ ids after, rest = ids ++ after ∧ c.encodeIds d = .ok ids ∧
      headerOffset + Header.sizeOf o.version + ids.length =
        (c.layout (headerOffset + Header.sizeOf o.version)).stop := by
  cases h with
  | standard parts hrest => exact ⟨_, _, hrest, parts.encoded, parts.idsStop⟩
  | compact parts hplace hrest => exact ⟨_, _, hrest, parts.encoded, hplace ▸ parts.idsStop⟩

theorem mapAligned (h : c.Parts o headerOffset header rest d) : 4 ∣ header.mapOffset.toNat := by
  cases h with
  | standard parts => exact parts.mapOffset_eq ▸ parts.mapAligned
  | compact parts => exact parts.mapOffset_eq ▸ parts.mapAligned

/-- Completing a header keeps the parts in their places. -/
theorem completed (h : c.Parts o headerOffset header rest d) {checksum : UInt32} {signature : Bytes}
    {container : Option ContainerFields}
    (hfits : Header.Fits o.version { header with checksum, signature, container })
    (hcontainer : ∀ k ∈ container, k.headerOffset = UInt32.ofNat headerOffset) :
    c.Parts o headerOffset { header with checksum, signature, container } rest d := by
  cases h with
  | standard parts hrest => exact .standard (parts.completed hfits hcontainer) hrest
  | compact parts hplace hrest => exact .compact (parts.completed hfits) hplace hrest

/-- A file that stands in the bytes is opened and holds the contents. -/
theorem opens (hv : o.validate = .ok ()) (h : c.Parts o headerOffset header rest d)
    {bytes : ByteArray} (hs : (header.encode ++ rest).Stands bytes headerOffset)
    (hfit : headerOffset + (header.encode ++ rest).length ≤ bytes.size)
    (hd : bytes.size < UInt32.size) (hsize : ∀ k ∈ header.container, k.size.toNat ≤ bytes.size) :
    ∃ f, DexFile.ofBytes o.options bytes headerOffset = .ok f ∧ f.Holds o c d ∧ f.header = header ∧
      f.map = c.mapOf o headerOffset (c.layout (headerOffset + Header.sizeOf o.version)) d
        header.mapOffset.toNat := by
  cases h with
  | standard parts hrest =>
    rw [parts.mapOffset_eq]
    subst hrest
    exact parts.opens hv hs hfit hd hsize
  | compact parts hplace hrest =>
    rw [parts.mapOffset_eq]
    subst hplace hrest
    rw [Nat.zero_add] at hfit
    exact parts.opens hv hs hfit hd

end Parts

end Contents

end Dalvik
