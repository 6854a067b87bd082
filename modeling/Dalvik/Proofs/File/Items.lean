import Dalvik.Contents.Ids
import Dalvik.File.Encode
import Dalvik.Proofs.Reads

/-!
# Ids, the map and the header are read back

The items of fixed size hold one word after another. Signing a file replaces two fields of its
header and leaves everything else in place.
-/
namespace Dalvik
open Decoder

/-! ## Ids -/

namespace IdItem

theorem Proto.decode_reads (p : Proto) : Proto.decode.Reads p.encode p := by
  simp only [Proto.encode, List.append_assoc]
  apply (u4_reads p.shorty).bind
  apply (u4_reads p.returnType).bind
  exact (u4_reads p.parameters).map

theorem Member.decode_reads (m : Member) : Member.decode.Reads m.encode m := by
  simp only [Member.encode, List.append_assoc]
  apply (u2_reads m.declaringClass).bind
  apply (u2_reads m.signature).bind
  exact (u4_reads m.name).map

/-- The last two bytes of a handle are left over. -/
theorem Handle.decode_eq (h : Handle) {bytes : ByteArray} {index : Nat}
    (hs : h.encode.Stands bytes index) : Handle.decode.valueAt bytes index = .ok h := by
  have hread : Handle.decode.Reads (Bytes.u2 h.kind ++ (Bytes.u2 0 ++ Bytes.u2 h.member)) h := by
    apply (u2_reads h.kind).bind
    apply (u2_reads 0).bind
    exact (u2_reads h.member).map
  have hs : Bytes.Stands (Bytes.u2 h.kind ++ (Bytes.u2 0 ++ Bytes.u2 h.member) ++ Bytes.u2 0) bytes
      index := by simpa only [Handle.encode, List.append_assoc] using hs
  exact hread.valueAt hs.left

theorem Class.decode_reads (c : Class) : Class.decode.Reads c.encode c := by
  simp only [Class.encode, List.append_assoc]
  apply (u4_reads c.type).bind
  apply (u4_reads c.access).bind
  apply (u4_reads c.superclass).bind
  apply (u4_reads c.interfaces).bind
  apply (u4_reads c.sourceFile).bind
  apply (u4_reads c.annotations).bind
  apply (u4_reads c.data).bind
  exact (u4_reads c.staticValues).map

end IdItem

/-! ## The map -/

theorem MapItem.decode_reads (m : MapItem) : MapItem.decode.Reads m.encode m := by
  simp only [MapItem.encode, List.append_assoc]
  apply (u2_reads m.code).bind
  apply (u2_reads 0).bind
  apply (u4_reads m.size).bind
  exact (u4_reads m.offset).map

theorem MapItem.length_encodeList (items : List MapItem) :
    (encodeList items).length = 4 + itemSize * items.length := by
  simp [encodeList, encode, itemSize, List.length_flatMap, Nat.mul_comm]

theorem MapItem.decodeList_eq {items : List MapItem} {bytes : ByteArray} {index : Nat}
    (hd : bytes.size < UInt32.size) (hs : (encodeList items).Stands bytes index) :
    decodeList.valueAt bytes index = .ok items := by
  have hinside := hs.inside (by simp [encodeList, Bytes.u4])
  have hpos : itemSize = 12 := rfl
  rw [length_encodeList, hpos] at hinside
  have hnat : (UInt32.ofNat items.length).toNat = items.length :=
    UInt32.toNat_ofNat_of_lt' (by omega)
  have hcount := u4_reads _ hs.left
  have hitems := Reads.repeated_map encode id items fun m _ => decode_reads m
  rw [List.map_id] at hitems
  have hroom : ¬ bytes.size / itemSize < items.length := by
    rw [Nat.not_lt, Nat.le_div_iff_mul_le (by decide), hpos]
    omega
  have hrun : decodeList bytes index = .ok items (index + 4 + (items.flatMap encode).length) := by
    rw [decodeList, bind_of_ok hcount, input_bind, hnat, if_neg hroom]
    exact hitems hs.right
  simp only [Decoder.valueAt, hrun]

/-! ## The header -/

theorem Extent.decode_reads (e : Extent) : Extent.decode.Reads e.encode e :=
  (u4_reads e.size).bind (u4_reads e.offset).map

namespace Header

/-- The header has the fields of its version, and those of a fixed length have it. -/
structure Fits (v : Version) (h : Header) : Prop where
  magic : h.magic = v.magic
  signature : h.signature.length = signatureSize
  compact : h.compact.isSome = v.isCompact
  container : h.container.isSome = v.isContainer

variable {v : Version} {h : Header}

theorem length_magic (v : Version) : v.magic.length = magicSize := by cases v <;> rfl

/-- Fields that are there in some versions only, and what follows them. -/
theorem option_reads {α β : Type} {d : Decoder α} {encode : α → Bytes} {value : Option α} {b : Bool}
    {f : Option α → Decoder β} {rest : Bytes} {c : β} (hb : value.isSome = b)
    (hd : ∀ a, d.Reads (encode a) a) (hf : (f value).Reads rest c) :
    (if b then some <$> d >>= f else pure none >>= f : Decoder β).Reads
      ((value.map encode).getD [] ++ rest) c := by
  subst hb
  cases value with
  | none => exact hf
  | some a =>
    simp only [Option.isSome_some, if_true, bind_map_left]
    exact (hd a).bind hf

theorem decode_reads (hf : h.Fits v) : (Header.decode v).Reads h.encode h := by
  have hcompact : ∀ c, decodeCompactFields.Reads (encodeCompactFields c) c := by
    intro c
    simp only [encodeCompactFields, List.append_assoc]
    apply (u4_reads c.features).bind
    apply (u4_reads c.debugTable).bind
    apply (u4_reads c.debugIndex).bind
    apply (u4_reads c.debugBase).bind
    apply (u4_reads c.ownedBegin).bind
    exact (u4_reads c.ownedEnd).map
  have hcontainer : ∀ c, decodeContainerFields.Reads (encodeContainerFields c) c :=
    fun c => (u4_reads c.size).bind (u4_reads c.headerOffset).map
  have hmagic : (raw magicSize).Reads h.magic h.magic := by
    have hlen := length_magic v
    rw [← hf.magic] at hlen
    rw [← hlen]
    exact raw_reads (List.length_pos_iff.mp (by rw [hlen]; decide))
  have hsignature : (raw signatureSize).Reads h.signature h.signature := by
    rw [← hf.signature]
    exact raw_reads (List.length_pos_iff.mp (by rw [hf.signature]; decide))
  simp only [encode, List.append_assoc]
  apply hmagic.bind
  apply (u4_reads h.checksum).bind
  apply hsignature.bind
  apply (u4_reads h.fileSize).bind
  apply (u4_reads h.headerSize).bind
  apply (u4_reads h.endianTag).bind
  apply h.link.decode_reads.bind
  apply (u4_reads h.mapOffset).bind
  apply h.strings.decode_reads.bind
  apply h.types.decode_reads.bind
  apply h.protos.decode_reads.bind
  apply h.fields.decode_reads.bind
  apply h.methods.decode_reads.bind
  apply h.classes.decode_reads.bind
  apply h.data.decode_reads.bind
  apply option_reads hf.compact hcompact
  rw [← List.append_nil ((h.container.map encodeContainerFields).getD [])]
  exact option_reads hf.container hcontainer (.pure h)

theorem length_encode (hf : h.Fits v) : h.encode.length = sizeOf v := by
  have hmagic := length_magic v
  rw [← hf.magic] at hmagic
  obtain ⟨-, hsignature, hcompact, hcontainer⟩ := hf
  have hcompact : ((h.compact.map encodeCompactFields).getD []).length =
      if v.isCompact then 24 else 0 := by
    rw [← hcompact]
    cases h.compact <;> rfl
  have hcontainer : ((h.container.map encodeContainerFields).getD []).length =
      if v.isContainer then 8 else 0 := by
    rw [← hcontainer]
    cases h.container <;> rfl
  simp only [encode, Extent.encode, List.length_append, Bytes.length_u4, hmagic, hsignature,
    hcompact, hcontainer]
  cases v <;> rfl

end Header

/-! ## Signing -/

theorem length_sha1 (message : Bytes) : (Digest.sha1 message).length = Header.signatureSize := by
  simp [Digest.sha1, Digest.bigEndian32, Header.signatureSize]

/-- Signing changes two fields of the header: the signature is that of all bytes behind it, and the
checksum is that of the signature and the bytes behind it. -/
theorem sign_encode {v : Version} {h : Header} (hf : h.Fits v) (rest : Bytes) :
    ∃ checksum signature, { h with checksum, signature }.Fits v ∧
      Dex.sign (h.encode ++ rest) = { h with checksum, signature }.encode ++ rest ∧
      signature = Digest.sha1
        (({ h with checksum, signature }.encode ++ rest).drop Header.fileSizeOffset) ∧
      checksum = Digest.adler32
        (({ h with checksum, signature }.encode ++ rest).drop Header.signatureOffset) := by
  have hmagic := Header.length_magic v
  rw [← hf.magic] at hmagic
  -- the fields behind the signature, which stay
  obtain ⟨fields, hfields⟩ : ∃ fields : Bytes, ∀ checksum signature,
      { h with checksum, signature }.encode =
        h.magic ++ Bytes.u4 checksum ++ (signature ++ fields) :=
    ⟨_, fun _ _ => by simp only [Header.encode, List.append_assoc]; rfl⟩
  have hself : h.encode = h.magic ++ Bytes.u4 h.checksum ++ (h.signature ++ fields) :=
    hfields h.checksum h.signature
  have hfront (checksum : UInt32) :
      (h.magic ++ Bytes.u4 checksum).length = Header.signatureOffset := by
    simp [hmagic, Header.signatureOffset, Header.checksumOffset]
  have dropSigned (checksum : UInt32) (signature : Bytes) :
      ({ h with checksum, signature }.encode ++ rest).drop Header.signatureOffset =
        signature ++ fields ++ rest := by
    rw [hfields, List.append_assoc, List.drop_left' (hfront checksum)]
  have dropSum (checksum : UInt32) {signature : Bytes}
      (hlen : signature.length = Header.signatureSize) :
      ({ h with checksum, signature }.encode ++ rest).drop Header.fileSizeOffset =
        fields ++ rest := by
    rw [Header.fileSizeOffset, ← List.drop_drop, dropSigned, List.append_assoc,
      List.drop_left' hlen]
  generalize hsha : Digest.sha1 (fields ++ rest) = signature
  have hlen : signature.length = Header.signatureSize := hsha ▸ length_sha1 _
  generalize hadler : Digest.adler32 (signature ++ fields ++ rest) = checksum
  refine ⟨checksum, signature, ⟨hf.magic, hlen, hf.compact, hf.container⟩, ?_, ?_, ?_⟩
  · have hsigned : (h.encode ++ rest).overwrite Header.signatureOffset signature =
        { h with checksum := h.checksum, signature }.encode ++ rest := by
      rw [hself, hfields, List.append_assoc _ (h.signature ++ fields), List.append_assoc h.signature,
        List.append_assoc _ (signature ++ fields), List.append_assoc signature]
      exact overwrite_append (hfront h.checksum) (by rw [hlen, hf.signature])
    have hdrop := dropSum h.checksum hf.signature
    rw [Dex.sign, hdrop, hsha, hsigned, dropSigned, hadler, hfields, hfields]
    simp only [List.append_assoc]
    exact overwrite_append hmagic rfl
  · rw [dropSum checksum hlen, hsha]
  · rw [dropSigned, hadler]

/-- Filling in the size of a container changes one field of the header. -/
theorem overwrite_containerSize {v : Version} {h : Header} {c : ContainerFields} (hf : h.Fits v)
    (hc : h.container = some c) (size : UInt32) (rest : Bytes) :
    (h.encode ++ rest).overwrite Header.containerSizeOffset (Bytes.u4 size) =
      { h with container := some { c with size } }.encode ++ rest := by
  have hmagic := Header.length_magic v
  rw [← hf.magic] at hmagic
  have hcontainer : v.isContainer = true := by rw [← hf.container, hc]; rfl
  have hcompact : h.compact = none := by
    have := hf.compact
    cases v <;> simp_all [Version.isContainer, Version.isCompact]
  have hencode (container : ContainerFields) : { h with container := some container }.encode =
      { h with container := none }.encode ++ (Bytes.u4 container.size ++
        Bytes.u4 container.headerOffset) := by
    simp [Header.encode, Header.encodeContainerFields]
  have hlength : { h with container := none }.encode.length = Header.containerSizeOffset := by
    simp [Header.encode, Extent.encode, hmagic, hf.signature, hcompact, Header.containerSizeOffset,
      Header.baseSize, Header.magicSize, Header.signatureSize]
  have hself : h = { h with container := some c } := by rw [← hc]
  rw [hself, hencode c, hencode { c with size }, List.append_assoc, List.append_assoc,
    List.append_assoc, List.append_assoc]
  exact overwrite_append hlength rfl

end Dalvik
