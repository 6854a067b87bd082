import Dalvik.Proofs.File.Entries

/-!
# Signatures and checksums are those of the bytes

Signing comes last, when the sizes of a container are in its headers already, and the signature
comes before the checksum that covers it. So both are right in every file of every buffer.
-/
namespace Dalvik
open Result

namespace DexFile

/-- The header tells the checksum and the signature of the file, which ends at `stop`, and the size
and the place that it has in a container. -/
structure Sealed (f : DexFile) (stop : Nat) : Prop where
  covers : f.checksumStop = stop
  start : f.headerOffset + Header.fileSizeOffset ≤ stop
  inside : stop ≤ f.bytes.size
  checksum : f.header.checksum =
    Digest.adler32 (f.bytes.extract (f.headerOffset + Header.signatureOffset) stop).toList
  noMismatch : f.checksumMismatch? = none
  signature : f.header.signature =
    Digest.sha1 (f.bytes.extract (f.headerOffset + Header.fileSizeOffset) stop).toList
  container : f.header.container.isSome = f.version.isContainer ∧ ∀ k ∈ f.header.container,
    k.size.toNat = f.bytes.size ∧ k.headerOffset.toNat = f.headerOffset

/-- The files are opened and sealed, one behind the other up to the end of the bytes. -/
def SealedFrom (o : Options) (bytes : ByteArray) (start : Nat) : List DexFile → Prop
  | [] => start = bytes.size
  | f :: rest => ofBytes o bytes start = .ok f ∧
      ∃ stop, f.Sealed stop ∧ SealedFrom o bytes stop rest

variable {f : DexFile} {o : WriteOptions} {c : Contents} {d : Contents.Data} {rest : Bytes}

/-- The checksum covers the file to its end. -/
theorem Laid.checksumStop_eq (h : f.Laid o c d rest) :
    f.checksumStop = f.headerOffset + (f.header.encode ++ rest).length := by
  have hversion := h.holds.version
  unfold checksumStop
  rw [hversion]
  cases h.parts with
  | standard parts hrest =>
    have hlength := parts.length_eq
    have hstop := parts.stop
    have hversion : ¬ o.version.isCompact = true := by simp [parts.version]
    rw [if_neg hversion, DexFile.size, parts.fileSize, hrest, UInt32.toNat_ofNat_of_lt' (by omega)]
    omega
  | compact parts hplace hrest =>
    have hlength := parts.length_eq
    have hstop := parts.stop
    rw [if_pos parts.version, parts.data, hplace, hrest, hlength]
    dsimp only
    rw [UInt32.toNat_ofNat_of_lt' (by omega), UInt32.toNat_ofNat_of_lt' (by omega), Nat.zero_add]

theorem Laid.sealed (h : f.Laid o c d rest) :
    f.Sealed (f.headerOffset + (f.header.encode ++ rest).length) := by
  have hfits := h.parts.fits
  have hheader : Header.fileSizeOffset ≤ (f.header.encode ++ rest).length := by
    have hbase : Header.fileSizeOffset ≤ Header.sizeOf o.version := by cases o.version <;> decide
    rw [List.length_append, Header.length_encode hfits]
    exact Nat.le_trans hbase (Nat.le_add_right _ _)
  have hsignature : Header.signatureOffset ≤ (f.header.encode ++ rest).length :=
    Nat.le_trans (by decide) hheader
  have hinside := h.inside
  have hsmall := h.small
  have hchecksum : f.header.checksum = Digest.adler32 (f.bytes.extract
      (f.headerOffset + Header.signatureOffset)
      (f.headerOffset + (f.header.encode ++ rest).length)).toList := by
    rw [h.stands.extract_drop hsignature]
    exact h.checksum
  exact {
    covers := h.checksumStop_eq
    start := Nat.add_le_add_left hheader _
    inside := hinside
    checksum := hchecksum
    noMismatch := by
      unfold checksumMismatch?
      dsimp only
      rw [h.checksumStop_eq, ← hchecksum, if_pos ⟨Nat.add_le_add_left hsignature _, hinside⟩,
        if_pos rfl]
    signature := by
      rw [h.stands.extract_drop hheader]
      exact h.signature
    container := by
      refine ⟨by rw [hfits.container, h.holds.version], fun k hk => ⟨h.container k hk, ?_⟩⟩
      rw [h.parts.container k hk, UInt32.toNat_ofNat_of_lt' (by omega)] }

end DexFile

namespace Dex

variable {o : WriteOptions} {d : Dex} {files : List Dex} {headerOffset length : Nat}
  {bytes : ByteArray}

theorem LaidIn.exists_sealed (h : LaidIn o d bytes headerOffset length) :
    ∃ f, DexFile.ofBytes o.options bytes headerOffset = .ok f ∧
      f.Sealed (headerOffset + length) := by
  obtain ⟨c, data, rest, f, -, hf, hlaid, rfl⟩ := h
  obtain ⟨-, hplace, -⟩ := DexFile.ofBytes_spec hf
  exact ⟨f, hf, hplace ▸ hlaid.sealed⟩

theorem LaidFrom.sealedFrom {opened : List DexFile} (h : LaidFrom o bytes headerOffset files opened) :
    DexFile.SealedFrom o.options bytes headerOffset opened := by
  induction h with
  | nil => exact rfl
  | cons hc hf hlaid hrest ih =>
    obtain ⟨-, hplace, -⟩ := DexFile.ofBytes_spec hf
    exact ⟨hf, _, hplace ▸ hlaid.sealed, ih⟩

/-- Whatever is written, alone or in a container, every file is opened at its place, and its header
tells the checksum and the signature that its bytes have. -/
theorem exists_sealed_of_encode (o : WriteOptions) :
    (∀ (d : Dex) (bytes : Bytes), d.encode o = .ok bytes →
      ∃ f, DexFile.ofBytes o.options bytes.toByteArray 0 = .ok f ∧ f.Sealed bytes.length) ∧
    ∀ (files : List Dex) (bytes : Bytes), encodeContainer o files = .ok bytes →
      ∃ opened : List DexFile, opened.length = files.length ∧
        DexFile.SealedFrom o.options bytes.toByteArray 0 opened := by
  have container (files : List Dex) (bytes : Bytes) (h : encodeContainer o files = .ok bytes) :
      ∃ opened : List DexFile, opened.length = files.length ∧
        DexFile.SealedFrom o.options bytes.toByteArray 0 opened := by
    obtain ⟨opened, hopened⟩ := exists_laidFrom_of_encodeContainer h
    exact ⟨opened, hopened.length_eq, hopened.sealedFrom⟩
  refine ⟨fun d bytes h => ?_, container⟩
  unfold encode at h
  split at h
  · -- a container of one file
    obtain ⟨opened, hcount, hopened⟩ := container _ _ h
    obtain ⟨f, rfl⟩ := List.length_eq_one_iff.mp hcount
    obtain ⟨hf, stop, hsealed, hstop⟩ := hopened
    have hsize : bytes.toByteArray.size = bytes.length := List.size_toByteArray ..
    exact ⟨f, hf, hsize ▸ hstop ▸ hsealed⟩
  next hc =>
    obtain ⟨file, hfile, rfl⟩ := map_eq_ok.mp h
    have hsealed := (laidIn_of_single hfile (by simpa using hc)).exists_sealed
    rwa [Nat.zero_add] at hsealed

/-- A file with one class, and a container of two files without classes. -/
theorem exists_sealed_of_encode_bareClass :
    (∃ bytes f, Dex.encode {} ⟨[bareClass]⟩ = .ok bytes ∧
      DexFile.ofBytes {} bytes.toByteArray 0 = .ok f ∧ f.Sealed bytes.length) ∧
    ∃ bytes f g, encodeContainer newest [⟨[]⟩, ⟨[]⟩] = .ok bytes ∧
      DexFile.SealedFrom newest.options bytes.toByteArray 0 [f, g] := by
  constructor
  · obtain ⟨bytes, hbytes⟩ := exists_encode_bareClass
    obtain ⟨f, hf, hsealed⟩ := (exists_sealed_of_encode {}).1 _ _ hbytes
    exact ⟨bytes, f, hbytes, hf, hsealed⟩
  · obtain ⟨bytes, hbytes⟩ := exists_container_nothing
    obtain ⟨opened, hcount, hsealed⟩ := (exists_sealed_of_encode newest).2 _ _ hbytes
    obtain ⟨f, g, rfl⟩ := List.length_eq_two.mp hcount
    exact ⟨bytes, f, g, hbytes, hsealed⟩

end Dex

end Dalvik
