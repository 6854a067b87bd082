import Dalvik.File.Decode
import Dalvik.Proofs.File.RoundTrip
import Dalvik.Proofs.File.Sealed
import Dalvik.Proofs.Placement.Classes

/-!
# The place of a file in a container does not matter

A container is read file by file, each from where the one before ends. Every model comes back as it
does when it is written on its own.
-/
namespace Dalvik
open Result

namespace DexFile

variable {f : DexFile} {o : WriteOptions} {c : Contents} {d : Contents.Data} {rest : Bytes}

/-- Except for the data of a compact file, the header tells the size of the file. -/
theorem Laid.size_eq (h : f.Laid o c d rest) (ho : o.version.isCompact = false) :
    f.size = (f.header.encode ++ rest).length := by
  have hstop := h.checksumStop_eq
  rw [checksumStop, h.holds.version, ho, if_neg (by decide)] at hstop
  exact Nat.add_left_cancel hstop

theorem Laid.length_pos (h : f.Laid o c d rest) : 0 < (f.header.encode ++ rest).length := by
  have hheader : 0 < Header.sizeOf o.version := by cases o.version <;> decide
  rw [List.length_append, Header.length_encode h.parts.fits]
  exact Nat.lt_of_lt_of_le hheader (Nat.le_add_right _ _)

/-- What is read of the contents does not depend on where their file is. -/
theorem Laid.dex_eq_ok {f' : DexFile} {d' : Contents.Data} {rest' : Bytes} {dex y : Dex}
    (h : f.Laid o c d rest) (h' : f'.Laid o c d' rest') (hc : Contents.ofDex o dex = .ok c)
    (ho : o.version.isCompact = false) (hy : f.dex = .ok y) : f'.dex = .ok y := by
  obtain ⟨g, hg⟩ := Contents.fills_of_ofDex hc
  exact DexFile.dex_eq_ok h.holds h'.holds (Contents.short_of_ofDex hc)
    (Contents.shallow_of_ofDex hc) ho hg hy

end DexFile

namespace Dex

variable {o : WriteOptions} {files alone : List Dex} {opened : List DexFile} {bytes : ByteArray}
  {start : Nat}

/-- The model that is read from the file of `d` where `d` is written on its own. -/
def ReadsAlone (o : WriteOptions) (d a : Dex) : Prop :=
  ∃ bytes, d.encode o = .ok bytes ∧ (Dex.decode o.options bytes.toByteArray).outcome = .ok a

theorem ReadsAlone.exists_laid {d a : Dex} (h : ReadsAlone o d a) :
    ∃ (c : Contents) (data : Contents.Data) (rest : Bytes) (f : DexFile),
      Contents.ofDex o d = .ok c ∧ f.Laid o c data rest ∧ f.dex = .ok a := by
  obtain ⟨bytes, hbytes, hread⟩ := h
  obtain ⟨_, -, c, data, rest, f, hc, hf, hlaid, -⟩ := (Written.alone hbytes).laidIn
  rw [Dex.decode, hf] at hread
  exact ⟨c, data, rest, f, hc, hlaid, hread⟩

namespace LaidFrom

theorem start_eq (h : LaidFrom o bytes start [] opened) : start = bytes.size ∧ opened = [] := by
  cases h
  exact ⟨rfl, rfl⟩

theorem start_lt (h : LaidFrom o bytes start files opened) (hne : files ≠ []) :
    start < bytes.size := by
  cases h with
  | nil => exact absurd rfl hne
  | cons hc hf hlaid =>
    obtain ⟨hbytes, hplace, -⟩ := DexFile.ofBytes_spec hf
    exact hbytes ▸ hplace ▸ Nat.lt_of_lt_of_le (Nat.lt_add_of_pos_right hlaid.length_pos) hlaid.inside

/-- Every file gives what is read where its model is written on its own. -/
theorem forall₂_dex (h : LaidFrom o bytes start files opened) (ho : o.version.isCompact = false)
    (halone : List.Forall₂ (ReadsAlone o) files alone) :
    List.Forall₂ (fun f a => f.dex = .ok a) opened alone := by
  induction h generalizing alone with
  | nil =>
    cases halone
    exact .nil
  | cons hc hf hlaid hrest ih =>
    cases halone with
    | cons hfirst halone =>
      obtain ⟨c, data, rest, f, hc', hlaid', hread⟩ := hfirst.exists_laid
      obtain rfl := Except.ok.inj (hc.symm.trans hc')
      exact .cons (hlaid'.dex_eq_ok hlaid hc ho hread) (ih halone)

/-- Reading goes from file to file up to the end of the bytes. -/
theorem decodeFrom_eq (h : LaidFrom o bytes start files opened) (ho : o.version.isContainer = true)
    (hne : files ≠ []) (hread : List.Forall₂ (fun f a => f.dex = .ok a) opened alone) :
    Dex.decodeFrom o.options bytes start = ⟨.ok alone, []⟩ := by
  induction h generalizing alone with
  | nil => exact absurd rfl hne
  | @cons start d files f opened c data rest hc hf hlaid hrest ih =>
    cases hread with
    | @cons _ a _ others hfirst hread =>
      have hsize := hlaid.size_eq (by simpa using not_isCompact_of_isContainer ho)
      have hpos := hlaid.length_pos
      have hversion := hlaid.holds.version
      rw [← hsize] at hrest ih hpos
      rw [Dex.decodeFrom, hf]
      dsimp only
      rw [hfirst, hlaid.sealed.noMismatch, hversion]
      dsimp only
      cases files with
      | nil =>
        obtain ⟨hstop, rfl⟩ := hrest.start_eq
        cases hread
        rw [if_neg (by omega)]
        rfl
      | cons =>
        have hlt := hrest.start_lt (List.cons_ne_nil _ _)
        rw [if_pos ⟨ho, by omega, hlt⟩, ih (List.cons_ne_nil _ _) hread]
        rfl

/-- Each file is where those before it end, and its header tells so. -/
theorem headers (h : LaidFrom o bytes start files opened)
    (ho : o.version.isContainer = true) :
    start + (opened.map DexFile.size).sum = bytes.size ∧ ∀ i (hi : i < opened.length),
      DexFile.ofBytes o.options bytes (start + ((opened.take i).map DexFile.size).sum) =
        .ok opened[i] ∧
      ∃ k ∈ opened[i].header.container, k.size.toNat = bytes.size ∧
        k.headerOffset.toNat = start + ((opened.take i).map DexFile.size).sum := by
  induction h with
  | nil => exact ⟨rfl, nofun⟩
  | @cons start d files f opened c data rest hc hf hlaid hrest ih =>
    have hsize := hlaid.size_eq (by simpa using not_isCompact_of_isContainer ho)
    rw [← hsize] at ih
    obtain ⟨hsum, heach⟩ := ih
    rw [List.map_cons, List.sum_cons, ← Nat.add_assoc]
    refine ⟨hsum, fun i hi => ?_⟩
    cases i with
    | zero =>
      obtain ⟨hbytes, hplace, -⟩ := DexFile.ofBytes_spec hf
      obtain ⟨hsome, hcontainer⟩ := hlaid.sealed.container
      rw [hlaid.holds.version, ho] at hsome
      obtain ⟨k, hk⟩ := Option.isSome_iff_exists.mp hsome
      obtain ⟨hwhole, hstart⟩ := hcontainer k hk
      exact ⟨hf, k, hk, hbytes ▸ hwhole, hplace ▸ hstart⟩
    | succ i =>
      rw [List.take_succ_cons, List.map_cons, List.sum_cons, ← Nat.add_assoc]
      exact heach i (Nat.lt_of_succ_lt_succ hi)

end LaidFrom

/-- A container is read to the models that are read from its files written alone, in their order. Each
file lies where the files before it end, and its header tells that place and the size of the whole,
which is that of all files. -/
theorem decodeContainer_encodeContainer {bytes : Bytes} (h : encodeContainer o files = .ok bytes)
    (halone : List.Forall₂ (ReadsAlone o) files alone) :
    Dex.decodeContainer o.options bytes.toByteArray = ⟨.ok alone, []⟩ ∧
    ∃ opened : List DexFile, List.Forall₂ (fun f a => f.dex = .ok a) opened alone ∧
      (opened.map DexFile.size).sum = bytes.length ∧ ∀ i (hi : i < opened.length),
        DexFile.ofBytes o.options bytes.toByteArray ((opened.take i).map DexFile.size).sum =
          .ok opened[i] ∧
        ∃ k ∈ opened[i].header.container, k.size.toNat = bytes.length ∧
          k.headerOffset.toNat = ((opened.take i).map DexFile.size).sum := by
  obtain ⟨ho, -⟩ := encodeContainer_spec h
  have hcompact : o.version.isCompact = false := by simpa using not_isCompact_of_isContainer ho
  obtain ⟨-, hne⟩ := unsupported_ite_eq_ok.mp h
  obtain ⟨hne, -⟩ := violation_ite_eq_ok.mp hne
  obtain ⟨opened, hopened⟩ := exists_laidFrom_of_encodeContainer h
  have hread := hopened.forall₂_dex hcompact halone
  obtain ⟨hsum, heach⟩ := hopened.headers ho
  have hsize : bytes.toByteArray.size = bytes.length := List.size_toByteArray ..
  rw [hsize, Nat.zero_add] at hsum
  simp only [hsize, Nat.zero_add] at heach
  exact ⟨hopened.decodeFrom_eq ho (by simpa using hne) hread, opened, hread, hsum, heach⟩

/-! ## A class behind a file without classes -/

section
open Contents

theorem exists_nothing_newest :
    ∃ file, encodeUnsigned newest 0 ⟨[]⟩ = .ok file ∧ file.length < 0x1000 := by
  obtain ⟨file, hfile, hlength⟩ := exists_encodeStandard_nothing (show 0 < 0x10000 by decide)
  exact ⟨file, bind_eq_ok.mpr ⟨(), rfl, bind_eq_ok.mpr ⟨_, ofDex_nil, hfile⟩⟩, hlength⟩

theorem exists_bareClass_newest {headerOffset : Nat} (hsmall : headerOffset < 0x10000) :
    ∃ file, encodeUnsigned newest headerOffset ⟨[bareClass]⟩ = .ok file := by
  obtain ⟨file, hfile⟩ : ∃ file, bare.encodeStandard newest headerOffset = .ok file :=
    exists_encodeStandard_bare hsmall
  exact ⟨file, bind_eq_ok.mpr ⟨(), rfl, bind_eq_ok.mpr ⟨_, ofDex_bareClass, hfile⟩⟩⟩

theorem exists_container_bareClass :
    ∃ bytes, encodeContainer newest [⟨[]⟩, ⟨[bareClass]⟩] = .ok bytes := by
  obtain ⟨first, hfirst, hlength⟩ := exists_nothing_newest
  obtain ⟨second, hsecond⟩ := exists_bareClass_newest (show 0 + first.length < 0x10000 by omega)
  have hlast : encodeFrom newest 1 (0 + first.length) [⟨[bareClass]⟩] = .ok [second] :=
    bind_eq_ok.mpr ⟨second, within_eq_ok_iff.mpr hsecond, rfl⟩
  have hparts : encodeFrom newest 0 0 [⟨[]⟩, ⟨[bareClass]⟩] = .ok [first, second] :=
    bind_eq_ok.mpr ⟨first, within_eq_ok_iff.mpr hfirst, bind_eq_ok.mpr ⟨_, hlast, rfl⟩⟩
  exact ⟨_, bind_eq_ok.mpr ⟨_, hparts, rfl⟩⟩

/-- A model without methods and values is read back as it is. -/
theorem readsAlone_newest {d : Dex} {c : Contents} {file : Bytes}
    (hfile : d.encodeUnsigned newest 0 = .ok file) (hc : ofDex newest d = .ok c)
    (hm : c.pools.methodHandles.toList = []) (hbare : ∀ x ∈ d.classes, x.methods = [] ∧ x.fields = [])
    (hnormal : d.normal newest c.readSite = d) : ReadsAlone newest d d := by
  have hparts : encodeFrom newest 0 0 [d] = .ok [file] :=
    bind_eq_ok.mpr ⟨file, within_eq_ok_iff.mpr hfile, rfl⟩
  obtain ⟨bytes, hbytes⟩ : ∃ bytes, d.encode newest = .ok bytes := ⟨_, bind_eq_ok.mpr ⟨_, hparts, rfl⟩⟩
  obtain ⟨f, hopen, hdex⟩ := exists_dex_of_encode hbytes hc (by simp [hm])
    (fun x hx m hm => by simp [(hbare x hx).1] at hm) (fun hpacks => by cases hpacks)
    (fun x hx rest hrest _ z hz => by
      have hz := (sortedBy_perm _ _).mem_iff.mp (hrest.mem hz)
      have hfields : z ∈ x.fields := List.mem_append_left _ hz
      simp [(hbare x hx).2] at hfields)
  refine ⟨bytes, hbytes, ?_⟩
  rw [Dex.decode, hopen]
  exact hdex.trans (congrArg Except.ok hnormal)

theorem decodeContainer_encodeContainer_bareClass : ∃ bytes opened,
    encodeContainer newest [⟨[]⟩, ⟨[bareClass]⟩] = .ok bytes ∧
      Dex.decodeContainer newest.options bytes.toByteArray = ⟨.ok [⟨[]⟩, ⟨[bareClass]⟩], []⟩ ∧
      List.Forall₂ (fun (f : DexFile) a => f.dex = .ok a) opened [⟨[]⟩, ⟨[bareClass]⟩] := by
  obtain ⟨bytes, hbytes⟩ := exists_container_bareClass
  obtain ⟨first, hfirst, -⟩ := exists_nothing_newest
  obtain ⟨second, hsecond⟩ := exists_bareClass_newest (show 0 < 0x10000 by decide)
  have hnothing : ReadsAlone newest ⟨[]⟩ ⟨[]⟩ := readsAlone_newest hfirst ofDex_nil rfl nofun rfl
  have hbare : ReadsAlone newest ⟨[bareClass]⟩ ⟨[bareClass]⟩ :=
    readsAlone_newest hsecond ofDex_bareClass rfl (fun x hx => by
      rw [List.mem_singleton.mp hx]
      exact ⟨rfl, rfl⟩) (by cbv)
  obtain ⟨hread, opened, heach, -⟩ :=
    decodeContainer_encodeContainer hbytes (.cons hnothing (.cons hbare .nil))
  exact ⟨bytes, opened, hbytes, hread, heach⟩

end

end Dex

end Dalvik
