import Dalvik.Proofs.Code.Header
import Dalvik.Proofs.File.Data
import Dalvik.Proofs.Leb128

/-!
# Items have places of their own

No item is empty, so the offsets of the items of a section increase, and each of them is inside of
its section. What is aligned begins at a multiple of its alignment.
-/
namespace Dalvik
open Result

namespace Placed

/-- An item placed at `position` is nothing, or it begins inside of its bytes, aligned. -/
def Fits (alignment position : Nat) (p : Placed) : Prop :=
  p = nothing ∨
    position ≤ p.offset ∧ p.offset < position + p.bytes.length ∧ alignment ∣ p.offset

/-- Of two items, the second one begins behind the first one, as far as they begin at all. -/
def Before (p q : Placed) : Prop := p.offset ≠ 0 → q.offset ≠ 0 → p.offset < q.offset

variable {α : Type} {place : Nat → α → Result Placed} {items : List α} {out : List Placed}
  {alignment position : Nat}

theorem inside_of_all
    (hplace : ∀ (q : Nat), ∀ a ∈ items, ∀ p, place q a = .ok p → p.Fits alignment q)
    (h : all place position items = .ok out) : ∀ p ∈ out, p.offset ≠ 0 →
      position ≤ p.offset ∧ p.offset < position + (out.flatMap bytes).length ∧
        alignment ∣ p.offset := by
  induction items generalizing position out with
  | nil =>
    cases h
    nofun
  | cons a items ih =>
    obtain ⟨p, hp, h⟩ := bind_eq_ok.mp h
    obtain ⟨rest, hrest, h⟩ := bind_eq_ok.mp h
    obtain rfl := pure_eq_ok.mp h
    have hafter := ih (fun q x hx => hplace q x (List.mem_cons_of_mem a hx)) hrest
    rw [List.flatMap_cons, List.length_append]
    intro x hx hne
    rcases List.mem_cons.mp hx with rfl | hx
    · rcases hplace _ a List.mem_cons_self x hp with rfl | ⟨hle, hlt, hdvd⟩
      · exact absurd rfl hne
      · exact ⟨hle, by omega, hdvd⟩
    · obtain ⟨hle, hlt, hdvd⟩ := hafter x hx hne
      exact ⟨by omega, by omega, hdvd⟩

theorem pairwise_of_all
    (hplace : ∀ (q : Nat), ∀ a ∈ items, ∀ p, place q a = .ok p → p.Fits alignment q)
    (h : all place position items = .ok out) : out.Pairwise Before := by
  induction items generalizing position out with
  | nil =>
    cases h
    exact .nil
  | cons a items ih =>
    obtain ⟨p, hp, h⟩ := bind_eq_ok.mp h
    obtain ⟨rest, hrest, h⟩ := bind_eq_ok.mp h
    obtain rfl := pure_eq_ok.mp h
    have hplace' := fun q x hx => hplace q x (List.mem_cons_of_mem a hx)
    have hinside := inside_of_all hplace' hrest
    refine List.pairwise_cons.mpr ⟨fun x hx hp0 hx0 => ?_, ih hplace' hrest⟩
    obtain ⟨hle, -⟩ := hinside x hx hx0
    rcases hplace _ a List.mem_cons_self p hp with rfl | ⟨-, hlt, -⟩
    · exact absurd rfl hp0
    · omega

end Placed

namespace DataSection

/-- The items begin inside of the section, one behind the other, and aligned. -/
structure Spaced (s : DataSection) (alignment : Nat) : Prop where
  inside : ∀ p ∈ s.items, p.offset ≠ 0 →
    s.start ≤ p.offset ∧ p.offset < s.stop ∧ alignment ∣ p.offset
  increasing : s.items.Pairwise Placed.Before

variable {α : Type} {kind : SectionKind} {start alignment : Nat} {items : List α} {s : DataSection}

theorem spaced_of_build {place : Nat → α → Result Placed}
    (hplace : ∀ (q : Nat), ∀ a ∈ items, ∀ p, place q a = .ok p → p.Fits alignment q)
    (h : build kind place start items = .ok s) : s.Spaced alignment := by
  obtain ⟨out, hout, h⟩ := bind_eq_ok.mp h
  cases h
  exact ⟨Placed.inside_of_all hplace hout, Placed.pairwise_of_all hplace hout⟩

theorem spaced_of_ofItems (k : Nat) {encode : α → Result Bytes}
    (hencode : ∀ a ∈ items, ∀ b, encode a = .ok b → b ≠ [])
    (h : ofItems kind (2 ^ k) encode start items = .ok s) : s.Spaced (2 ^ k) := by
  refine spaced_of_build (fun q a ha p hp => .inr ?_) h
  obtain ⟨b, hb, hp⟩ := bind_eq_ok.mp hp
  obtain rfl := pure_eq_ok.mp hp
  have hpos := List.length_pos_of_ne_nil (hencode a ha b hb)
  simp only [Placed.aligned, List.length_append, length_padding]
  refine ⟨le_alignUp _ _, ?_, Nat.dvd_of_mod_eq_zero (alignUp_mod _ k)⟩
  have hpad := length_padding q (2 ^ k)
  omega

/-- Different items have different offsets. -/
theorem Spaced.eq_of_offset (h : s.Spaced alignment) {i j : Nat} {p q : Placed}
    (hi : s.items[i]? = some p) (hj : s.items[j]? = some q) (hne : p.offset ≠ 0)
    (heq : p.offset = q.offset) : i = j := by
  obtain ⟨hilt, rfl⟩ := List.getElem?_eq_some_iff.mp hi
  obtain ⟨hjlt, rfl⟩ := List.getElem?_eq_some_iff.mp hj
  have hpair := List.pairwise_iff_getElem.mp h.increasing
  rcases Nat.lt_trichotomy i j with hlt | rfl | hlt
  · have hbefore := hpair i j hilt hjlt hlt hne (heq ▸ hne)
    omega
  · rfl
  · have hbefore := hpair j i hjlt hilt hlt (heq ▸ hne) hne
    omega

end DataSection

/-! ## No item is empty -/

theorem DebugInfo.ne_nil_of_encode {r : Resolver} {d : DebugInfo} {out : Bytes}
    (h : d.encode r = .ok out) : out ≠ [] := by
  obtain ⟨⟨program, lineStart⟩, -, h⟩ := bind_eq_ok.mp h
  obtain ⟨names, -, h⟩ := bind_eq_ok.mp h
  obtain rfl := pure_eq_ok.mp h
  simp [Bytes.uleb_ne_nil]

theorem ne_nil_of_encodeArray {r : Resolver} {values : List Value} {out : Bytes}
    (h : encodeArray r values = .ok out) : out ≠ [] := by
  obtain ⟨rest, -, h⟩ := bind_eq_ok.mp h
  obtain rfl := pure_eq_ok.mp h
  simp [Bytes.ulebNat, Bytes.uleb_ne_nil]

theorem AnnotationItem.ne_nil_of_encode {r : Resolver} {a : AnnotationItem} {out : Bytes}
    (h : a.encode r = .ok out) : out ≠ [] := by
  obtain ⟨value, -, h⟩ := bind_eq_ok.mp h
  obtain rfl := pure_eq_ok.mp h
  exact List.cons_ne_nil _ _

theorem encodeOffsets_ne_nil (offsets : List UInt32) : encodeOffsets offsets ≠ [] := by
  simp [encodeOffsets, Bytes.u4]

theorem CodeItem.fits_of_encode {compact : Bool} {table : OpcodeTable} {r : Resolver}
    {position : Nat} {i : CodeItem} {p : Placed} (h : i.encode compact table r position = .ok p) :
    p.Fits (alignment compact) position := by
  obtain ⟨tries, front, header, code, blocks, hparts⟩ := exists_parts h
  obtain ⟨counts, -, hheader⟩ := bind_eq_ok.mp hparts.head
  -- the header, and the units before it that keep it aligned
  have haligned : 0 < header.length ∧ alignment compact ∣
      position + (padding position (alignment compact)).length + front.length := by
    rw [length_padding]
    cases compact with
    | true =>
      have heven : 2 ∣ alignUp position 2 := Nat.dvd_of_mod_eq_zero (alignUp_mod position 1)
      obtain ⟨-, hheader⟩ := violation_ite_eq_ok.mp hheader
      cases hheader
      rw [Bytes.length_flatMap_u2, Bytes.length_flatMap_u2]
      exact ⟨by simp [CodeHeader.Small.header], Nat.dvd_add heven (Nat.dvd_mul_right _ _)⟩
    | false =>
      cases hheader
      exact ⟨by simp [CodeHeader.encode], Nat.dvd_of_mod_eq_zero (alignUp_mod position 2)⟩
  have hoffset := hparts.offset
  refine .inr ⟨le_offset_of_encode h, ?_, hoffset ▸ haligned.2⟩
  rw [hparts.bytes]
  simp only [List.length_append]
  omega

namespace Contents

variable {o : WriteOptions} {c : Contents} {start : Nat} {d : Data}

theorem fits_of_placeCode {table : OpcodeTable} {debug : DataSection} {position : Nat}
    {entry : SharedCode × Nat} {p : Placed} (h : c.placeCode o table debug position entry = .ok p) :
    p.Fits (CodeItem.alignment o.version.isCompact) position := by
  obtain ⟨debugOffset, -, h⟩ := bind_eq_ok.mp h
  split at h
  · exact CodeItem.fits_of_encode (within_eq_ok_iff.mp h)
  · exact CodeItem.fits_of_encode h

theorem ne_nil_of_encodeClassData {r : Resolver} {code : DataSection} {e : ClassEntry} {out : Bytes}
    (h : encodeClassData r o code e = .ok out) : out ≠ [] := by
  obtain ⟨staticFields, -, h⟩ := bind_eq_ok.mp h
  obtain ⟨instanceFields, -, h⟩ := bind_eq_ok.mp h
  obtain ⟨directMethods, -, h⟩ := bind_eq_ok.mp h
  obtain ⟨virtualMethods, -, h⟩ := bind_eq_ok.mp h
  obtain rfl := pure_eq_ok.mp h
  simp [Bytes.ulebNat, Bytes.uleb_ne_nil]

/-- The places of all items of the data. -/
structure Spaced (o : WriteOptions) (d : Data) : Prop where
  debugInfos : d.debugInfos.Spaced 1
  code : d.code.Spaced (CodeItem.alignment o.version.isCompact)
  encodedArrays : d.encodedArrays.Spaced 1
  annotations : d.annotations.Spaced 1
  annotationSets : d.annotationSets.Spaced 4
  annotationSetLists : d.annotationSetLists.Spaced 4
  directories : d.directories.Spaced 4
  typeLists : d.typeLists.Spaced 4
  classData : d.classData.Spaced 1
  strings : d.strings.Spaced 1
  hiddenApi : d.hiddenApi.Spaced 4

theorem Built.spaced (h : c.Built o start d) : Spaced o d := by
  obtain ⟨debug, -, hcode, hinfos, -⟩ := codeSections_spec h.codeSections
  have offsets {x : Result (List UInt32)} {b : Bytes} (hb : (do return encodeOffsets (← x)) = .ok b) :
      b ≠ [] := by
    obtain ⟨offsets, -, hb⟩ := bind_eq_ok.mp hb
    rw [← pure_eq_ok.mp hb]
    exact encodeOffsets_ne_nil offsets
  exact {
    debugInfos := DataSection.spaced_of_ofItems 0 (fun _ _ _ => DebugInfo.ne_nil_of_encode) hinfos
    code := DataSection.spaced_of_build (fun _ _ _ _ => fits_of_placeCode) hcode
    encodedArrays := DataSection.spaced_of_ofItems 0 (fun _ _ _ => ne_nil_of_encodeArray)
      h.encodedArrays
    annotations := DataSection.spaced_of_ofItems 0 (fun _ _ _ => AnnotationItem.ne_nil_of_encode)
      h.annotations
    annotationSets := DataSection.spaced_of_ofItems 2 (fun _ _ _ => offsets) h.annotationSets
    annotationSetLists := DataSection.spaced_of_ofItems 2 (fun _ _ _ => offsets) h.annotationSetLists
    directories := by
      refine DataSection.spaced_of_ofItems 2 (fun dir _ b hb => ?_) h.directories
      obtain ⟨fields, -, hb⟩ := bind_eq_ok.mp hb
      obtain ⟨methods, -, hb⟩ := bind_eq_ok.mp hb
      obtain ⟨parameters, -, hb⟩ := bind_eq_ok.mp hb
      obtain ⟨ofClass, -, hb⟩ := bind_eq_ok.mp hb
      obtain rfl := pure_eq_ok.mp hb
      simp [OffsetDirectory.encode, Bytes.u4]
    typeLists := by
      refine DataSection.spaced_of_ofItems 2 (fun types _ b hb => ?_) h.typeLists
      obtain ⟨indices, -, hb⟩ := bind_eq_ok.mp hb
      obtain rfl := pure_eq_ok.mp hb
      simp [Bytes.u4]
    classData := by
      refine DataSection.spaced_of_build (fun q e _ p hp => ?_) h.classData
      split_ifs at hp
      · obtain ⟨b, hb, hp⟩ := bind_eq_ok.mp hp
        obtain rfl := pure_eq_ok.mp hp
        have hpos := List.length_pos_of_ne_nil
          (ne_nil_of_encodeClassData (within_eq_ok_iff.mp hb))
        exact .inr ⟨Nat.le_refl _, Nat.lt_add_of_pos_right hpos, Nat.one_dvd _⟩
      · exact .inl (pure_eq_ok.mp hp).symm
    strings := by
      refine DataSection.spaced_of_ofItems 0 (fun s _ b hb => ?_) h.strings
      cases hb
      simp [Text.encodeStringData]
    hiddenApi := by
      have hsection := h.hiddenApi
      unfold hiddenApiSection at hsection
      dsimp only at hsection
      split at hsection
      · rw [← pure_eq_ok.mp hsection]
        exact ⟨fun _ hp => absurd hp List.not_mem_nil, .nil⟩
      · obtain ⟨-, hsection⟩ := unsupported_ite_eq_ok.mp hsection
        refine DataSection.spaced_of_ofItems 2 (fun b hmem b' hb => ?_) hsection
        obtain rfl := List.mem_singleton.mp hmem
        cases hb
        simp [HiddenApi.encodeSection, Bytes.u4] }

end Contents

end Dalvik
