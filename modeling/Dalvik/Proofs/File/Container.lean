import Dalvik.Proofs.File.Written

/-!
# Files in a buffer

A write gives one file or several, one behind the other. Each of them stands at the offset that it
was laid out for, signed and with the size of the whole in its header, and it is opened there.
-/
namespace Dalvik
open Result

/-- The file holds the contents, and its bytes are the parts of a file that is written and signed. -/
structure DexFile.Laid (f : DexFile) (o : WriteOptions) (c : Contents) (d : Contents.Data)
    (rest : Bytes) : Prop where
  opened : DexFile.ofBytes o.options f.bytes f.headerOffset = .ok f
  holds : f.Holds o c d
  parts : c.Parts o f.headerOffset f.header rest d
  map : f.map = c.mapOf o f.headerOffset (c.layout (f.headerOffset + Header.sizeOf o.version)) d
    f.header.mapOffset.toNat
  stands : (f.header.encode ++ rest).Stands f.bytes f.headerOffset
  inside : f.headerOffset + (f.header.encode ++ rest).length ≤ f.bytes.size
  small : f.bytes.size < UInt32.size
  container : ∀ k ∈ f.header.container, k.size.toNat = f.bytes.size
  signature : f.header.signature =
    Digest.sha1 ((f.header.encode ++ rest).drop Header.fileSizeOffset)
  checksum : f.header.checksum =
    Digest.adler32 ((f.header.encode ++ rest).drop Header.signatureOffset)

namespace Dex

variable {o : WriteOptions} {d : Dex} {files : List Dex} {parts : List Bytes}
  {headerOffset number size : Nat} {file : Bytes}

/-- The file of a model is opened in the bytes and holds what the model has. -/
def LaidIn (o : WriteOptions) (d : Dex) (bytes : ByteArray) (headerOffset length : Nat) : Prop :=
  ∃ (c : Contents) (data : Contents.Data) (rest : Bytes) (f : DexFile), Contents.ofDex o d = .ok c ∧
    DexFile.ofBytes o.options bytes headerOffset = .ok f ∧ f.Laid o c data rest ∧
    (f.header.encode ++ rest).length = length

/-! ## One file -/

theorem parts_of_encodeUnsigned (h : d.encodeUnsigned o headerOffset = .ok file)
    (hc : o.version.isCompact = true → headerOffset = 0) :
    ∃ (c : Contents) (header : Header) (rest : Bytes) (data : Contents.Data),
      o.validate = .ok () ∧ Contents.ofDex o d = .ok c ∧ file = header.encode ++ rest ∧
      c.Parts o headerOffset header rest data := by
  obtain ⟨_, hv, h⟩ := bind_eq_ok.mp h
  obtain ⟨c, hofDex, h⟩ := bind_eq_ok.mp h
  split at h
  next hcompact =>
    obtain ⟨header, data, ids, gap, tail, dataOffset, mapOffset, hparts, hfile⟩ :=
      Contents.compactParts_of_encode hcompact h
    exact ⟨c, header, _, data, hv, hofDex, hfile, .compact hparts (hc hcompact) rfl⟩
  next hcompact =>
    have hcompact : o.version.isCompact = false := by simpa using hcompact
    obtain ⟨header, data, ids, gap, tail, dataOffset, mapOffset, hparts, hfile⟩ :=
      Contents.standardParts_of_encode hcompact h
    exact ⟨c, header, _, data, hv, hofDex, hfile, .standard hparts rfl⟩

/-- A file whose header is complete but for signature and checksum is signed and opened. -/
theorem laidIn_of_sign {c : Contents} {data : Contents.Data} {header : Header} {rest : Bytes}
    (hv : o.validate = .ok ()) (hofDex : Contents.ofDex o d = .ok c)
    (h : c.Parts o headerOffset header rest data) {bytes : ByteArray}
    (hs : (sign (header.encode ++ rest)).Stands bytes headerOffset)
    (hfit : headerOffset + (header.encode ++ rest).length ≤ bytes.size)
    (hd : bytes.size < UInt32.size) (hsize : ∀ k ∈ header.container, k.size.toNat = bytes.size) :
    LaidIn o d bytes headerOffset (header.encode ++ rest).length := by
  obtain ⟨checksum, signature, hfits, hsign, hsignature, hchecksum⟩ := sign_encode h.fits rest
  have hparts := h.completed hfits h.container
  have hlength := Contents.length_completed h.fits hfits rest
  rw [hsign] at hs
  rw [← hlength] at hfit ⊢
  obtain ⟨f, hf, hholds, hheader, hmap⟩ :=
    hparts.opens hv hs hfit hd fun k hk => Nat.le_of_eq (hsize k hk)
  obtain ⟨hbytes, hplace, -⟩ := DexFile.ofBytes_spec hf
  rw [← hheader] at hparts hs hfit hmap hsignature hchecksum
  refine ⟨c, data, rest, f, hofDex, hf, ?_, by rw [hheader]⟩
  subst hbytes hplace
  exact {
    opened := hf
    holds := hholds
    parts := hparts
    map := by rw [hmap]
    stands := hs
    inside := hfit
    small := hd
    container := by rwa [hheader]
    signature := by rw [← hsignature, hheader]
    checksum := by rw [← hchecksum, hheader] }

/-- A file on its own that is no container. -/
theorem laidIn_of_single (h : d.encodeUnsigned o 0 = .ok file) (hc : o.version.isContainer = false) :
    LaidIn o d (sign file).toByteArray 0 (sign file).length := by
  obtain ⟨c, header, rest, data, hv, hofDex, hfile, hparts⟩ := parts_of_encodeUnsigned h fun _ => rfl
  subst hfile
  have hnone : header.container = none := by
    rw [← Option.isNone_iff_eq_none, ← Option.not_isSome, hparts.fits.container, hc]
    rfl
  have hlength : (sign (header.encode ++ rest)).length = (header.encode ++ rest).length := by
    obtain ⟨checksum, signature, hfits, hsign, -⟩ := sign_encode hparts.fits rest
    rw [hsign, Contents.length_completed hparts.fits hfits]
  have hsmall := hparts.small
  have hstands := Bytes.stands_toByteArray [] (sign (header.encode ++ rest)) []
  rw [List.nil_append, List.append_nil] at hstands
  rw [hlength]
  apply laidIn_of_sign hv hofDex hparts hstands
  · rw [List.size_toByteArray]
    omega
  · rw [List.size_toByteArray]
    omega
  · simp [hnone]

/-! ## Files of a container -/

/-- A file of a container with all of its header filled in. -/
def finish (size : Nat) (file : Bytes) : Bytes :=
  sign (file.overwrite Header.containerSizeOffset (Bytes.u4 (UInt32.ofNat size)))

theorem not_isCompact_of_isContainer {v : Version} (h : v.isContainer = true) :
    ¬ v.isCompact = true := by
  cases v <;> simp_all [Version.isContainer, Version.isCompact]

/-- What finishing a file of a container gives. -/
theorem finish_spec (h : d.encodeUnsigned o headerOffset = .ok file)
    (hc : o.version.isContainer = true) :
    headerOffset + file.length < UInt32.size ∧ ∀ size, (finish size file).length = file.length ∧
      ∀ bytes : ByteArray, bytes.size = size → size < UInt32.size →
        (finish size file).Stands bytes headerOffset → headerOffset + file.length ≤ bytes.size →
        LaidIn o d bytes headerOffset file.length := by
  obtain ⟨c, header, rest, data, hv, hofDex, hfile, hparts⟩ :=
    parts_of_encodeUnsigned h fun hcompact => absurd hcompact (not_isCompact_of_isContainer hc)
  subst hfile
  refine ⟨hparts.small, fun size => ?_⟩
  have hsome : header.container.isSome = true := hparts.fits.container.trans hc
  obtain ⟨k, hk⟩ := Option.isSome_iff_exists.mp hsome
  have hcompleted : c.Parts o headerOffset
      { header with container := some { k with size := UInt32.ofNat size } } rest data :=
    hparts.completed ⟨hparts.fits.magic, hparts.fits.signature, hparts.fits.compact, hc.symm⟩
      (by simpa using hparts.container k hk)
  have hlength := Contents.length_completed hparts.fits hcompleted.fits rest
  unfold finish
  rw [overwrite_containerSize hparts.fits hk]
  constructor
  · obtain ⟨checksum, signature, hfits, hsign, -⟩ := sign_encode hcompleted.fits rest
    rw [hsign, ← hlength]
    exact Contents.length_completed hcompleted.fits hfits rest
  · intro bytes hbytes hsmall hs hfit
    rw [← hlength] at hfit ⊢
    apply laidIn_of_sign hv hofDex hcompleted hs hfit (hbytes ▸ hsmall)
    simp [hbytes, Nat.mod_eq_of_lt hsmall]

theorem encodeFrom_append {before after : List Dex}
    (h : encodeFrom o number headerOffset (before ++ after) = .ok parts) :
    ∃ first last, encodeFrom o number headerOffset before = .ok first ∧
      encodeFrom o (number + before.length) (headerOffset + first.flatten.length) after =
        .ok last ∧ parts = first ++ last := by
  induction before generalizing number headerOffset parts with
  | nil => exact ⟨[], parts, rfl, h, rfl⟩
  | cons d before ih =>
    obtain ⟨file, hfile, h⟩ := bind_eq_ok.mp h
    obtain ⟨files, hfiles, h⟩ := bind_eq_ok.mp h
    obtain rfl := pure_eq_ok.mp h
    obtain ⟨first, last, hfirst, hlast, rfl⟩ := ih hfiles
    refine ⟨file :: first, last, ?_, ?_, rfl⟩
    · rw [encodeFrom, hfile, ok_bind, hfirst]
      rfl
    · rw [List.length_cons, List.flatten_cons, List.length_append, ← Nat.add_assoc headerOffset,
        Nat.add_comm before.length, ← Nat.add_assoc number]
      exact hlast

/-- Finishing the files keeps them in their places. -/
theorem length_finish (h : encodeFrom o number headerOffset files = .ok parts)
    (hc : o.version.isContainer = true) (size : Nat) :
    (parts.flatMap (finish size)).length = parts.flatten.length := by
  induction files generalizing number headerOffset parts with
  | nil =>
    cases h
    rfl
  | cons d files ih =>
    obtain ⟨file, hfile, h⟩ := bind_eq_ok.mp h
    obtain ⟨rest, hrest, h⟩ := bind_eq_ok.mp h
    obtain rfl := pure_eq_ok.mp h
    rw [List.flatMap_cons, List.length_append, List.flatten_cons, List.length_append, ih hrest,
      ((finish_spec (within_eq_ok_iff.mp hfile) hc).2 size).1]

/-- The whole buffer can be counted with 32 bits. -/
theorem small_of_encodeFrom (h : encodeFrom o number headerOffset files = .ok parts)
    (hc : o.version.isContainer = true) (hsmall : headerOffset < UInt32.size) :
    headerOffset + parts.flatten.length < UInt32.size := by
  induction files generalizing number headerOffset parts with
  | nil =>
    cases h
    exact hsmall
  | cons d files ih =>
    obtain ⟨file, hfile, h⟩ := bind_eq_ok.mp h
    obtain ⟨rest, hrest, h⟩ := bind_eq_ok.mp h
    obtain rfl := pure_eq_ok.mp h
    have hafter := ih hrest (finish_spec (within_eq_ok_iff.mp hfile) hc).1
    rwa [List.flatten_cons, List.length_append, ← Nat.add_assoc]

/-- The parts of a container. -/
theorem encodeContainer_spec {bytes : Bytes} (h : encodeContainer o files = .ok bytes) :
    o.version.isContainer = true ∧ ∃ parts, encodeFrom o 0 0 files = .ok parts ∧
      bytes = parts.flatMap (finish bytes.length) ∧ bytes.length = parts.flatten.length ∧
      bytes.length < UInt32.size := by
  obtain ⟨hc, h⟩ := unsupported_ite_eq_ok.mp h
  obtain ⟨_, h⟩ := violation_ite_eq_ok.mp h
  obtain ⟨parts, hparts, h⟩ := bind_eq_ok.mp h
  have hbytes : parts.flatMap (finish parts.flatten.length) = bytes := pure_eq_ok.mp h
  have hc : o.version.isContainer = true := by simpa using hc
  have hlength : bytes.length = parts.flatten.length := hbytes ▸ length_finish hparts hc _
  have hsmall := small_of_encodeFrom hparts hc (by decide)
  rw [Nat.zero_add] at hsmall
  exact ⟨hc, parts, hparts, by rw [hlength, hbytes], hlength, hlength ▸ hsmall⟩

/-- The files of the models are opened and hold them, one behind the other up to the end of the
bytes. -/
inductive LaidFrom (o : WriteOptions) (bytes : ByteArray) : Nat → List Dex → List DexFile → Prop
  | nil : LaidFrom o bytes bytes.size [] []
  | cons {start : Nat} {d : Dex} {files : List Dex} {f : DexFile} {opened : List DexFile}
      {c : Contents} {data : Contents.Data} {rest : Bytes} (hc : Contents.ofDex o d = .ok c)
      (hf : DexFile.ofBytes o.options bytes start = .ok f) (hlaid : f.Laid o c data rest)
      (hrest : LaidFrom o bytes (start + (f.header.encode ++ rest).length) files opened) :
      LaidFrom o bytes start (d :: files) (f :: opened)

theorem LaidFrom.length_eq {bytes : ByteArray} {opened : List DexFile}
    (h : LaidFrom o bytes headerOffset files opened) : opened.length = files.length := by
  induction h with
  | nil => rfl
  | cons _ _ _ _ ih => rw [List.length_cons, List.length_cons, ih]

/-- The files of a container from one of them on. -/
theorem exists_laidFrom {bytes : ByteArray} (hc : o.version.isContainer = true)
    (h : encodeFrom o number headerOffset files = .ok parts) (hsmall : bytes.size < UInt32.size)
    (hs : Bytes.Stands (parts.flatMap (finish bytes.size)) bytes headerOffset)
    (hfit : headerOffset + parts.flatten.length = bytes.size) :
    ∃ opened : List DexFile, LaidFrom o bytes headerOffset files opened := by
  induction files generalizing number headerOffset parts with
  | nil =>
    cases h
    obtain rfl : headerOffset = bytes.size := hfit
    exact ⟨[], .nil⟩
  | cons d files ih =>
    obtain ⟨file, hfile, h⟩ := bind_eq_ok.mp h
    obtain ⟨rest, hrest, h⟩ := bind_eq_ok.mp h
    obtain rfl := pure_eq_ok.mp h
    obtain ⟨-, hfinish⟩ := finish_spec (within_eq_ok_iff.mp hfile) hc
    obtain ⟨hlength, hopens⟩ := hfinish bytes.size
    rw [List.flatMap_cons] at hs
    rw [List.flatten_cons, List.length_append] at hfit
    have hafter := hs.right
    rw [hlength] at hafter
    obtain ⟨c, data, tail, f, hofDex, hf, hlaid, hsize⟩ := hopens bytes rfl hsmall hs.left (by omega)
    obtain ⟨opened, hopened⟩ := ih hrest hafter (by omega)
    rw [← hsize] at hopened
    exact ⟨f :: opened, .cons hofDex hf hlaid hopened⟩

/-- A container is the files of its models. -/
theorem exists_laidFrom_of_encodeContainer {bytes : Bytes}
    (h : encodeContainer o files = .ok bytes) :
    ∃ opened : List DexFile, LaidFrom o bytes.toByteArray 0 files opened := by
  obtain ⟨hc, parts, hparts, hbytes, hlength, hsmall⟩ := encodeContainer_spec h
  have hsize : bytes.toByteArray.size = bytes.length := List.size_toByteArray ..
  have hstands := Bytes.stands_toByteArray [] bytes []
  rw [List.nil_append, List.append_nil] at hstands
  apply exists_laidFrom hc hparts (hsize ▸ hsmall)
  · rw [hsize, ← hbytes]
    exact hstands
  · rw [hsize, hlength, Nat.zero_add]

/-! ## Every file that is written -/

/-- A write gives these bytes, and the file of the model stands in them from `start` to `stop`. -/
inductive Written (o : WriteOptions) (d : Dex) : Nat → Nat → Bytes → Prop
  /-- The file is written on its own. -/
  | alone {bytes : Bytes} (h : d.encode o = .ok bytes) : Written o d 0 bytes.length bytes
  /-- It is one of several files, behind those of the models `before`. -/
  | shared {before after : List Dex} {parts : List Bytes} {file bytes : Bytes}
      (h : encodeContainer o (before ++ d :: after) = .ok bytes)
      (hparts : encodeFrom o 0 0 (before ++ [d]) = .ok (parts ++ [file])) :
      Written o d parts.flatten.length (parts.flatten.length + file.length) bytes

theorem laidIn_of_container {before after : List Dex} {bytes : Bytes}
    (h : encodeContainer o (before ++ d :: after) = .ok bytes)
    (hparts : encodeFrom o 0 0 (before ++ [d]) = .ok (parts ++ [file])) :
    LaidIn o d bytes.toByteArray parts.flatten.length file.length := by
  obtain ⟨hc, all, hall, hbytes, hlength, hsmall⟩ := encodeContainer_spec h
  -- the files up to this one are those that are laid out first
  rw [List.append_cons] at hall
  obtain ⟨upTo, rest, hupTo, -, rfl⟩ := encodeFrom_append hall
  obtain rfl := Except.ok.inj (hupTo.symm.trans hparts)
  obtain ⟨first, last, hfirst, hlast, heq⟩ := encodeFrom_append hparts
  obtain ⟨file', hfile, hlast⟩ := bind_eq_ok.mp hlast
  obtain rfl := pure_eq_ok.mp hlast
  obtain ⟨rfl, rfl⟩ : parts = first ∧ file = file' := by simpa using List.append_inj' heq rfl
  rw [Nat.zero_add, Nat.zero_add] at hfile
  have hspec := (finish_spec (within_eq_ok_iff.mp hfile) hc).2 bytes.length
  have hsize : bytes.toByteArray.size = bytes.length := List.size_toByteArray ..
  have hfront := length_finish hfirst hc bytes.length
  have hstands := Bytes.stands_toByteArray (parts.flatMap (finish bytes.length))
    (finish bytes.length file) (rest.flatMap (finish bytes.length))
  rw [← List.flatMap_singleton (finish bytes.length), ← List.flatMap_append, ← List.flatMap_append,
    ← hbytes, hfront, List.flatMap_singleton] at hstands
  refine hspec.2 _ hsize hsmall hstands ?_
  simp only [List.flatten_append, List.flatten_cons, List.flatten_nil, List.length_append] at hlength
  omega

/-- Each of the models of a container has its file in it. -/
theorem exists_written_of_encodeContainer {before after : List Dex} {bytes : Bytes}
    (h : encodeContainer o (before ++ d :: after) = .ok bytes) :
    ∃ start stop, Written o d start stop bytes := by
  obtain ⟨-, all, hall, -⟩ := encodeContainer_spec h
  rw [List.append_cons] at hall
  obtain ⟨upTo, rest, hupTo, -, -⟩ := encodeFrom_append hall
  obtain ⟨parts, last, -, hlast, rfl⟩ := encodeFrom_append hupTo
  obtain ⟨file, -, hlast⟩ := bind_eq_ok.mp hlast
  obtain rfl := pure_eq_ok.mp hlast
  exact ⟨_, _, .shared h hupTo⟩

/-- Every file that is written is opened at its place and holds the contents of the model. -/
theorem Written.laidIn {start stop : Nat} {bytes : Bytes} (h : Written o d start stop bytes) :
    ∃ length, start + length = stop ∧ LaidIn o d bytes.toByteArray start length := by
  cases h with
  | alone h =>
    refine ⟨bytes.length, Nat.zero_add _, ?_⟩
    unfold encode at h
    split at h
    · obtain ⟨hc, parts, hparts, hbytes, hlength, hsmall⟩ := encodeContainer_spec h
      obtain ⟨file, hfile, hlast⟩ := bind_eq_ok.mp hparts
      obtain rfl := pure_eq_ok.mp hlast
      have hcontainer : encodeContainer o ([] ++ d :: []) = .ok bytes := h
      have hparts : encodeFrom o 0 0 ([] ++ [d]) = .ok ([] ++ [file]) := hparts
      have hlaid := laidIn_of_container hcontainer hparts
      rw [hlength]
      simpa using hlaid
    next hc =>
      obtain ⟨file, hfile, rfl⟩ := map_eq_ok.mp h
      exact laidIn_of_single hfile (by simpa using hc)
  | shared h hparts => exact ⟨_, rfl, laidIn_of_container h hparts⟩

/-- A file that is written on its own is opened and holds the contents of the classes. -/
theorem exists_file_of_encode {bytes : Bytes} (h : d.encode o = .ok bytes) :
    ∃ (c : Contents) (data : Contents.Data) (f : DexFile), Contents.ofDex o d = .ok c ∧
      DexFile.ofBytes o.options bytes.toByteArray 0 = .ok f ∧ f.Holds o c data := by
  obtain ⟨_, -, c, data, rest, f, hofDex, hf, hlaid, -⟩ := (Written.alone h).laidIn
  exact ⟨c, data, f, hofDex, hf, hlaid.holds⟩

end Dex

/-! ## Files without classes -/

/-- What is written as a container. -/
def newest : WriteOptions := ⟨{ targetApi := 35 }, .dex041⟩

/-- What is written as a compact file. -/
def compactOptions : WriteOptions := ⟨{ targetApi := 28 }, .compact⟩

namespace Contents

/-- What there is without classes. -/
def nothing : Contents := ⟨{}, {}, []⟩

theorem ofDex_nil : ofDex newest ⟨[]⟩ = .ok nothing := by cbv

theorem exists_encodeStandard_nothing {headerOffset : Nat} (hsmall : headerOffset < 0x10000) :
    ∃ file, nothing.encodeStandard newest headerOffset = .ok file ∧ file.length < 0x1000 := by
  obtain ⟨d, hd, hsections, hbytes, hids⟩ : ∃ d : Data, nothing.data newest
      (alignUp (headerOffset + Header.sizeOf newest.version) mapAlignment) = .ok d ∧
      (d.sections newest.version.isCompact).flatMap DataSection.mapItems = [] ∧ d.bytes false = [] ∧
      nothing.encodeIds d = .ok [] := ⟨_, rfl, rfl, rfl, rfl⟩
  have hstart := alignUp_le (headerOffset + Header.sizeOf newest.version) mapAlignment
  have hmap (l : IdLayout) (offset : Nat) : (MapItem.encodeList
      (nothing.mapOf newest headerOffset l d offset)).length = 28 := by
    rw [MapItem.length_encodeList, mapOf, length_sortedBy, List.length_append, List.length_append,
      hsections]
    rfl
  have htail (l : IdLayout) (start offset : Nat) : (padded dataAlignment start
      (padded mapAlignment start (d.bytes false) ++
        MapItem.encodeList (nothing.mapOf newest headerOffset l d offset))).length ≤ 38 := by
    refine Nat.le_trans (length_padded_le _ _ _) ?_
    have hitems := length_padded_le mapAlignment start (d.bytes false)
    rw [hbytes] at hitems
    rw [List.length_append, hmap, hbytes]
    exact Nat.add_le_add_right (Nat.add_le_add_right hitems 28) 7
  refine ⟨_, bind_eq_ok.mpr ⟨d, hd, bind_eq_ok.mpr ⟨[], hids, bind_eq_ok.mpr ⟨(), if_neg ?_, rfl⟩⟩⟩,
    ?_⟩
  · have hbound : headerOffset + 120 + 3 + 38 ≤ 0xffffffff := by omega
    exact Nat.not_lt.mpr (Nat.le_trans (Nat.add_le_add hstart (htail _ _ _)) hbound)
  · rw [List.length_append]
    refine Nat.lt_of_le_of_lt (Nat.add_le_add (length_padded_le _ _ _) (htail _ _ _)) ?_
    rw [List.append_nil, Header.length_encode (v := .dex041) ⟨rfl, rfl, rfl, rfl⟩]
    decide

theorem exists_encodeCompact_nothing :
    ∃ file, nothing.encodeCompact compactOptions = .ok file := by
  obtain ⟨d, hd, hsections, hbytes, hids, hoffsets⟩ : ∃ d : Data,
      nothing.data compactOptions reserved = .ok d ∧
      (d.sections compactOptions.version.isCompact).flatMap DataSection.mapItems = [] ∧
      d.bytes true = [] ∧ nothing.encodeIds d = .ok [] ∧ nothing.debugOffsets d = .ok [] :=
    ⟨_, rfl, rfl, rfl, rfl, rfl⟩
  have hmap (l : IdLayout) (offset : Nat) : (MapItem.encodeList
      (nothing.mapOf compactOptions 0 l d offset)).length = 28 := by
    rw [MapItem.length_encodeList, mapOf, length_sortedBy, List.length_append, List.length_append,
      hsections]
    rfl
  have htail (l : IdLayout) (offset : Nat) : (padded dataAlignment 0 (padded mapAlignment 0
      (padded mapAlignment 0 (List.replicate reserved 0 ++ d.bytes true) ++
        MapItem.encodeList (nothing.mapOf compactOptions 0 l d offset)) ++
      DebugTable.encode [])).length ≤ 49 := by
    refine Nat.le_trans (length_padded_le _ _ _) (Nat.add_le_add_right ?_ 7)
    have htable : (DebugTable.encode []).length = 0 := by cbv
    rw [List.length_append, htable]
    refine Nat.le_trans (length_padded_le _ _ _) (Nat.add_le_add_right ?_ 3)
    rw [List.length_append, hmap, hbytes]
    exact Nat.add_le_add_right (length_padded_le mapAlignment 0 (List.replicate reserved 0)) 28
  refine ⟨_, bind_eq_ok.mpr ⟨d, hd, bind_eq_ok.mpr ⟨[], hids, bind_eq_ok.mpr ⟨[], hoffsets,
    bind_eq_ok.mpr ⟨(), if_neg (Nat.not_lt.mpr ?_), rfl⟩⟩⟩⟩⟩
  have hstart : alignUp (nothing.layout (Header.sizeOf compactOptions.version)).stop
      dataAlignment = 136 := by cbv
  rw [hstart]
  exact Nat.le_trans (Nat.add_le_add_left (htail _ _) _) (by decide)

end Contents

theorem Dex.exists_encode_compact_nothing :
    ∃ bytes, Dex.encode compactOptions ⟨[]⟩ = .ok bytes := by
  obtain ⟨file, hfile⟩ := Contents.exists_encodeCompact_nothing
  have hofDex : Contents.ofDex compactOptions ⟨[]⟩ = .ok Contents.nothing := by cbv
  exact ⟨_, map_eq_ok.mpr ⟨file, bind_eq_ok.mpr ⟨(), rfl, bind_eq_ok.mpr ⟨_, hofDex, hfile⟩⟩, rfl⟩⟩

theorem Dex.exists_container_nothing :
    ∃ bytes, Dex.encodeContainer newest [⟨[]⟩, ⟨[]⟩] = .ok bytes := by
  have hfile {headerOffset : Nat} (hsmall : headerOffset < 0x10000) :
      ∃ file, Dex.encodeUnsigned newest headerOffset ⟨[]⟩ = .ok file ∧ file.length < 0x1000 := by
    obtain ⟨file, hfile, hlength⟩ := Contents.exists_encodeStandard_nothing hsmall
    exact ⟨file, bind_eq_ok.mpr ⟨(), rfl, bind_eq_ok.mpr ⟨_, Contents.ofDex_nil, hfile⟩⟩, hlength⟩
  obtain ⟨first, hfirst, hlength⟩ := hfile (show 0 < 0x10000 by decide)
  obtain ⟨second, hsecond, -⟩ := hfile (show 0 + first.length < 0x10000 by omega)
  have hlast : Dex.encodeFrom newest 1 (0 + first.length) [⟨[]⟩] = .ok [second] :=
    bind_eq_ok.mpr ⟨second, within_eq_ok_iff.mpr hsecond, rfl⟩
  have hparts : Dex.encodeFrom newest 0 0 [⟨[]⟩, ⟨[]⟩] = .ok [first, second] :=
    bind_eq_ok.mpr ⟨first, within_eq_ok_iff.mpr hfirst, bind_eq_ok.mpr ⟨_, hlast, rfl⟩⟩
  exact ⟨_, bind_eq_ok.mpr ⟨_, hparts, rfl⟩⟩

end Dalvik
