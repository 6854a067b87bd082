import Dalvik.Proofs.File.Sections
import Dalvik.Proofs.Resolved.Data

/-!
# The data of a file shows the contents

Each section is built from a list of items of the contents; wherever the data stands, the items of
every section stand at their offsets.
-/
namespace Dalvik
open Result

namespace Contents

variable {o : WriteOptions} {c : Contents} {start : Nat} {d : Data} {data : ByteArray}

/-- The bytes of a set of annotations. -/
def encodeSet (c : Contents) (annotations : DataSection) (set : List AnnotationItem) :
    Result Bytes := do
  let offsets ← set.mapM fun a => annotations.offset "annotation" (c.items.annotations.id? a)
  return encodeOffsets offsets

/-- The bytes of the sets of parameters. -/
def encodeSetList (c : Contents) (sets : DataSection) (lists : List (List AnnotationItem)) :
    Result Bytes :=
  return encodeOffsets (← lists.mapM (c.setOffset sets))

/-- The code items stand at their offsets; those of a compact file point to no debug information. -/
def ShowsCode (c : Contents) (o : WriteOptions) (d : Data) (data : ByteArray) : Prop :=
  ∃ debug : DataSection, (¬ o.version.isCompact → debug = d.debugInfos) ∧
    ∀ (i : Nat) (s : SharedCode), c.items.code.toList[i]? = some s →
      ∃ (p : Placed) (q : Nat), d.code.items[i]? = some p ∧
      c.placeCode o (OpcodeTable.ofTarget o.target) debug q (s, i) = .ok p ∧
      p.bytes.Stands data q ∧ 0 < q ∧ q + p.bytes.length ≤ data.size

/-- The data of the classes that have members stands at its offsets. -/
def ShowsClassData (c : Contents) (o : WriteOptions) (d : Data) (data : ByteArray) : Prop :=
  ∀ (i : Nat) (e : ClassEntry), c.classes[i]? = some e →
    if e.hasData then ∃ (p : Placed) (b : Bytes), d.classData.items[i]? = some p ∧
      encodeClassData c.resolver o d.code e = .ok b ∧ b.Stands data p.offset ∧ 0 < p.offset ∧
      p.offset ≤ data.size
    else d.classData.items[i]? = some Placed.nothing

/-- The section of restrictions is there if some have to be kept there. -/
def ShowsHiddenApi (c : Contents) (o : WriteOptions) (d : Data) (data : ByteArray) : Prop :=
  let classes := c.classes.map restrictions
  if !o.options.hiddenApiFlags || packsRestrictions o || classes.all Option.isNone then
    d.hiddenApi.items = []
  else ∃ p : Placed, d.hiddenApi.items = [p] ∧ HiddenApi.packedApi ≤ o.options.targetApi ∧
    (HiddenApi.encodeSection classes).Stands data p.offset ∧ 0 < p.offset ∧ p.offset ≤ data.size

/-- Every item of the contents stands at its offset in the data. -/
structure Shows (c : Contents) (o : WriteOptions) (d : Data) (data : ByteArray) : Prop where
  debugInfos : d.debugInfos.Shows data (DebugInfo.encode c.resolver) c.items.debugInfos.toList
  code : c.ShowsCode o d data
  encodedArrays : d.encodedArrays.Shows data (encodeArray c.resolver) c.items.encodedArrays.toList
  annotations : d.annotations.Shows data (AnnotationItem.encode c.resolver)
    c.items.annotations.toList
  annotationSets : d.annotationSets.Shows data (c.encodeSet d.annotations)
    c.items.annotationSets.toList
  annotationSetLists : d.annotationSetLists.Shows data (c.encodeSetList d.annotationSets)
    c.items.annotationSetLists.toList
  directories : d.directories.Shows data (c.encodeDirectory d.annotationSets d.annotationSetLists)
    c.items.directories.toList
  typeLists : d.typeLists.Shows data (encodeTypeList c.resolver) c.items.typeLists.toList
  classData : c.ShowsClassData o d data
  strings : d.strings.Shows data (fun s => .ok (Text.encodeStringData s)) c.pools.strings.toList
  hiddenApi : c.ShowsHiddenApi o d data

/-- The kinds of the sections in their order. -/
def dataKinds (compact : Bool) : List SectionKind :=
  (if compact then [.codeItems, .debugInfo] else [.debugInfo, .codeItems]) ++
    [.encodedArrays, .annotationItems, .annotationSets, .annotationSetLists,
      .annotationDirectories, .typeLists, .classData, .stringData, .hiddenApi]

theorem kind_of_build {α : Type} {kind : SectionKind} {place : Nat → α → Result Placed}
    {items : List α} {s : DataSection} (h : DataSection.build kind place start items = .ok s) :
    s.kind = kind := by
  obtain ⟨out, -, h⟩ := bind_eq_ok.mp h
  cases h
  rfl

theorem hiddenApiSection_spec {s : DataSection} (h : c.hiddenApiSection o start = .ok s) :
    s.start = start ∧ s.kind = .hiddenApi := by
  unfold hiddenApiSection at h
  dsimp only at h
  split at h
  · cases h
    exact ⟨rfl, rfl⟩
  · obtain ⟨-, h⟩ := unsupported_ite_eq_ok.mp h
    exact ⟨DataSection.start_of_build h, kind_of_build h⟩

theorem Data.mem_sections {d : Data} {compact : Bool} {s : DataSection} :
    s ∈ d.sections compact ↔ s ∈ [d.debugInfos, d.code, d.encodedArrays, d.annotations,
      d.annotationSets, d.annotationSetLists, d.directories, d.typeLists, d.classData, d.strings,
      d.hiddenApi] := by
  unfold Data.sections
  split <;> grind

/-- How each section comes about. -/
structure Built (c : Contents) (o : WriteOptions) (start : Nat) (d : Data) : Prop where
  codeSections : c.codeSections o start = .ok (d.debugInfos, d.code)
  encodedArrays : c.encodedArraySection
    (if o.version.isCompact then d.debugInfos.stop else d.code.stop) = .ok d.encodedArrays
  annotations : c.annotationSection d.encodedArrays.stop = .ok d.annotations
  annotationSets : c.annotationSetSection d.annotations d.annotations.stop = .ok d.annotationSets
  annotationSetLists : c.annotationSetListSection d.annotationSets d.annotationSets.stop =
    .ok d.annotationSetLists
  directories : c.directorySection d.annotationSets d.annotationSetLists
    d.annotationSetLists.stop = .ok d.directories
  typeLists : c.typeListSection d.directories.stop = .ok d.typeLists
  classData : c.classDataSection o d.code d.typeLists.stop = .ok d.classData
  strings : c.stringSection d.classData.stop = .ok d.strings
  hiddenApi : c.hiddenApiSection o d.strings.stop = .ok d.hiddenApi

theorem built_of_data (h : c.data o start = .ok d) : c.Built o start d := by
  obtain ⟨⟨debugInfos, code⟩, codeSections, h⟩ := bind_eq_ok.mp h
  obtain ⟨_, encodedArrays, h⟩ := bind_eq_ok.mp h
  obtain ⟨_, annotations, h⟩ := bind_eq_ok.mp h
  obtain ⟨_, annotationSets, h⟩ := bind_eq_ok.mp h
  obtain ⟨_, annotationSetLists, h⟩ := bind_eq_ok.mp h
  obtain ⟨_, directories, h⟩ := bind_eq_ok.mp h
  obtain ⟨_, typeLists, h⟩ := bind_eq_ok.mp h
  obtain ⟨_, classData, h⟩ := bind_eq_ok.mp h
  obtain ⟨_, strings, h⟩ := bind_eq_ok.mp h
  obtain ⟨_, hiddenApi, h⟩ := bind_eq_ok.mp h
  obtain rfl := pure_eq_ok.mp h
  exact ⟨codeSections, encodedArrays, annotations, annotationSets, annotationSetLists, directories,
    typeLists, classData, strings, hiddenApi⟩

theorem data_of_built (h : c.Built o start d) : c.data o start = .ok d :=
  bind_eq_ok.mpr ⟨_, h.codeSections, bind_eq_ok.mpr ⟨_, h.encodedArrays,
    bind_eq_ok.mpr ⟨_, h.annotations, bind_eq_ok.mpr ⟨_, h.annotationSets,
      bind_eq_ok.mpr ⟨_, h.annotationSetLists, bind_eq_ok.mpr ⟨_, h.directories,
        bind_eq_ok.mpr ⟨_, h.typeLists, bind_eq_ok.mpr ⟨_, h.classData,
          bind_eq_ok.mpr ⟨_, h.strings, bind_eq_ok.mpr ⟨_, h.hiddenApi, rfl⟩⟩⟩⟩⟩⟩⟩⟩⟩⟩

theorem Built.length_strings (h : c.Built o start d) :
    d.strings.items.length = c.pools.strings.size := by
  rw [DataSection.length_of_build h.strings, ItemSet.length_toList]

/-- The first two sections, in one order or the other. -/
theorem codeSections_spec {debugInfos code : DataSection}
    (h : c.codeSections o start = .ok (debugInfos, code)) :
    ∃ debug : DataSection, (¬ o.version.isCompact → debug = debugInfos) ∧
      c.codeSection o debug code.start = .ok code ∧
      c.debugInfoSection debugInfos.start = .ok debugInfos ∧
      if o.version.isCompact then code.start = start ∧ debugInfos.start = code.stop
      else debugInfos.start = start ∧ code.start = debugInfos.stop := by
  unfold codeSections at h
  split at h
  next hc =>
    obtain ⟨code', hcode, h⟩ := bind_eq_ok.mp h
    obtain ⟨debugInfos', hdebug, h⟩ := bind_eq_ok.mp h
    cases h
    have hstart : code.start = start := DataSection.start_of_build hcode
    have hafter : debugInfos.start = code.stop := DataSection.start_of_build hdebug
    rw [if_pos hc, hstart, hafter]
    exact ⟨_, absurd hc, hcode, hdebug, rfl, rfl⟩
  next hc =>
    obtain ⟨debugInfos', hdebug, h⟩ := bind_eq_ok.mp h
    obtain ⟨code', hcode, h⟩ := bind_eq_ok.mp h
    cases h
    have hstart : debugInfos.start = start := DataSection.start_of_build hdebug
    have hafter : code.start = debugInfos.stop := DataSection.start_of_build hcode
    rw [if_neg hc, hstart, hafter]
    exact ⟨_, fun _ => rfl, hcode, hdebug, rfl, rfl⟩

/-- The sections follow each other. -/
theorem Built.chained (h : c.Built o start d) :
    DataSection.Chained start (d.sections o.version.isCompact) := by
  obtain ⟨debug, -, -, -, hcode⟩ := codeSections_spec h.codeSections
  have rest : DataSection.Chained (if o.version.isCompact then d.debugInfos.stop else d.code.stop)
      [d.encodedArrays, d.annotations, d.annotationSets, d.annotationSetLists, d.directories,
        d.typeLists, d.classData, d.strings, d.hiddenApi] :=
    ⟨DataSection.start_of_build h.encodedArrays, DataSection.start_of_build h.annotations,
      DataSection.start_of_build h.annotationSets, DataSection.start_of_build h.annotationSetLists,
      DataSection.start_of_build h.directories, DataSection.start_of_build h.typeLists,
      DataSection.start_of_build h.classData, DataSection.start_of_build h.strings,
      (hiddenApiSection_spec h.hiddenApi).1, trivial⟩
  unfold Data.sections
  split_ifs at hcode rest ⊢ with hc
  · exact ⟨hcode.1, hcode.2, rest⟩
  · exact ⟨hcode.1, hcode.2, rest⟩

theorem Built.kinds (h : c.Built o start d) :
    (d.sections o.version.isCompact).map DataSection.kind = dataKinds o.version.isCompact := by
  obtain ⟨debug, -, hcode, hdebug, -⟩ := codeSections_spec h.codeSections
  have code := kind_of_build hcode
  have debugInfos := kind_of_build hdebug
  have encodedArrays := kind_of_build h.encodedArrays
  have annotations := kind_of_build h.annotations
  have annotationSets := kind_of_build h.annotationSets
  have annotationSetLists := kind_of_build h.annotationSetLists
  have directories := kind_of_build h.directories
  have typeLists := kind_of_build h.typeLists
  have classData := kind_of_build h.classData
  have strings := kind_of_build h.strings
  have hiddenApi := (hiddenApiSection_spec h.hiddenApi).2
  unfold Data.sections dataKinds
  split_ifs <;> simp [*]

theorem showsCode {debug : DataSection} (hdebug : ¬ o.version.isCompact → debug = d.debugInfos)
    (h : c.codeSection o debug d.code.start = .ok d.code) (hs : 0 < d.code.start ∧
      d.code.bytes.Stands data d.code.start ∧ d.code.stop ≤ data.size) : c.ShowsCode o d data := by
  refine ⟨debug, hdebug, fun i s hget => ?_⟩
  have hget : c.items.code.toList.zipIdx[i]? = some (s, i) := by simp [hget]
  obtain ⟨q, p, hp, hplace, hstands, hle, hinside⟩ :=
    DataSection.placed_of_build h hs.2.1 hs.2.2 hget
  exact ⟨p, q, hp, hplace, hstands, by omega, hinside⟩

theorem showsClassData {start : Nat} (h : c.classDataSection o d.code start = .ok d.classData)
    (hs : 0 < d.classData.start ∧ d.classData.bytes.Stands data d.classData.start ∧
      d.classData.stop ≤ data.size) : c.ShowsClassData o d data := by
  intro i e hget
  obtain ⟨q, p, hp, hplace, hstands, hle, hinside⟩ :=
    DataSection.placed_of_build h hs.2.1 hs.2.2 hget
  split_ifs at hplace ⊢ with hdata
  · obtain ⟨b, hb, hplace⟩ := bind_eq_ok.mp hplace
    obtain rfl := pure_eq_ok.mp hplace
    dsimp only at hstands hinside
    exact ⟨_, b, hp, Result.within_eq_ok_iff.mp hb, hstands, by dsimp only; omega, by
      dsimp only
      omega⟩
  · obtain rfl := pure_eq_ok.mp hplace
    exact hp

theorem showsHiddenApi {start : Nat} (h : c.hiddenApiSection o start = .ok d.hiddenApi)
    (hs : 0 < d.hiddenApi.start ∧ d.hiddenApi.bytes.Stands data d.hiddenApi.start ∧
      d.hiddenApi.stop ≤ data.size) : c.ShowsHiddenApi o d data := by
  unfold hiddenApiSection at h
  unfold ShowsHiddenApi
  dsimp only at h ⊢
  by_cases hnone : !o.options.hiddenApiFlags || packsRestrictions o ||
      (c.classes.map restrictions).all Option.isNone
  · rw [if_pos hnone] at h ⊢
    rw [← pure_eq_ok.mp h]
    rfl
  · rw [if_neg hnone] at h ⊢
    obtain ⟨hapi, h⟩ := unsupported_ite_eq_ok.mp h
    obtain ⟨out, hout, h⟩ := bind_eq_ok.mp h
    obtain ⟨p, hp, hout⟩ := bind_eq_ok.mp hout
    obtain ⟨rest, hrest, hout⟩ := bind_eq_ok.mp hout
    cases hrest
    obtain rfl := pure_eq_ok.mp hout
    obtain rfl := pure_eq_ok.mp hp
    rw [← pure_eq_ok.mp h] at hs ⊢
    obtain ⟨hpos, hstands, hinside⟩ := hs
    simp only [DataSection.bytes, DataSection.stop, List.flatMap_cons, List.flatMap_nil,
      List.append_nil, Placed.aligned, List.length_append] at hpos hstands hinside ⊢
    exact ⟨_, rfl, Int.not_lt.mp hapi, hstands.right, by dsimp only; omega, by dsimp only; omega⟩

/-- Wherever the data stands, it shows the contents. -/
theorem Built.shows (h : c.Built o start d) (hstart : 0 < start)
    (hs : (d.bytes o.version.isCompact).Stands data start)
    (hfit : start + (d.bytes o.version.isCompact).length ≤ data.size) : c.Shows o d data := by
  have sections := DataSection.stands_of_chained h.chained hs hfit
  have mem : ∀ s ∈ [d.debugInfos, d.code, d.encodedArrays, d.annotations, d.annotationSets,
      d.annotationSetLists, d.directories, d.typeLists, d.classData, d.strings, d.hiddenApi],
      0 < s.start ∧ s.bytes.Stands data s.start ∧ s.stop ≤ data.size := by
    intro s hs
    obtain ⟨hle, hs⟩ := sections s (Data.mem_sections.mpr hs)
    exact ⟨by omega, hs⟩
  simp only [List.mem_cons, List.not_mem_nil, or_false, forall_eq_or_imp, forall_eq] at mem
  obtain ⟨⟨-, debugInfos⟩, code, ⟨-, encodedArrays⟩, ⟨-, annotations⟩, ⟨-, annotationSets⟩,
    ⟨-, annotationSetLists⟩, ⟨-, directories⟩, ⟨-, typeLists⟩, classData, ⟨-, strings⟩, hiddenApi⟩ :=
    mem
  obtain ⟨debug, hdebug, hcode, hinfos, -⟩ := codeSections_spec h.codeSections
  exact {
    debugInfos := DataSection.shows_of_ofItems hinfos debugInfos.1 debugInfos.2
    code := showsCode hdebug hcode code
    encodedArrays := DataSection.shows_of_ofItems h.encodedArrays encodedArrays.1 encodedArrays.2
    annotations := DataSection.shows_of_ofItems h.annotations annotations.1 annotations.2
    annotationSets :=
      DataSection.shows_of_ofItems h.annotationSets annotationSets.1 annotationSets.2
    annotationSetLists :=
      DataSection.shows_of_ofItems h.annotationSetLists annotationSetLists.1 annotationSetLists.2
    directories := DataSection.shows_of_ofItems h.directories directories.1 directories.2
    typeLists := DataSection.shows_of_ofItems h.typeLists typeLists.1 typeLists.2
    classData := showsClassData h.classData classData
    strings := DataSection.shows_of_ofItems h.strings strings.1 strings.2
    hiddenApi := showsHiddenApi h.hiddenApi hiddenApi }

end Contents

end Dalvik
