import Dalvik.File.Decode
import Dalvik.Proofs.Code.Counts
import Dalvik.Proofs.File.Open

/-!
# Faults of reading a file

Whatever the bytes are: opening a file in them, reading its ids and its classes, and walking through
a container never take a byte, a slice or a cell that is not there. No result leaves its word either,
but for one sum: that of the code units of an item of a compact file.
-/
namespace Dalvik
open Result Text

variable {may : Operation → Prop}

namespace DexFile

/-! ## Opening -/

theorem faultless_versionAt (bytes : ByteArray) (headerOffset : Nat) :
    (versionAt bytes headerOffset).Faultless may := by
  have hmagic (magic : List UInt8) : (Version.ofMagic magic).Faultless may := by
    unfold Version.ofMagic
    split
    · simp
    · split <;> simp
  refine faultless_guard (faultless_notADex _) nofun fun h => ?_
  -- the magic is the first part of the header, which lies inside
  have hbase : Header.magicSize ≤ Header.baseSize := by decide
  refine (Access.faultless_slice.mpr ⟨Nat.le_add_right _ _, by omega⟩).bind fun magic _ => ?_
  refine (hmagic _).bind fun v _ => ?_
  exact faultless_guard (faultless_notADex _) nofun fun _ => faultless_pure v

theorem faultless_dataOf (bytes : ByteArray) (v : Version) (h : Header) :
    (dataOf bytes v h).Faultless may := by
  refine faultless_ite.mpr ⟨fun _ => ?_, fun _ => faultless_pure bytes⟩
  refine faultless_guard (faultless_malformed _) nofun fun hstop => ?_
  exact Access.faultless_slice.mpr ⟨by omega, Nat.le_refl _⟩

theorem faultless_checkHeader (h : Header) (v : Version) (headerOffset available : Nat) :
    (checkHeader h v headerOffset available).Faultless may := by
  refine faultless_guard (faultless_malformed _) nofun fun _ => ?_
  refine faultless_guard (faultless_malformed _) nofun fun _ => ?_
  refine faultless_guard (faultless_malformed _) nofun fun _ => ?_
  refine faultless_guard (faultless_malformed _) nofun fun _ => ?_
  refine faultless_guard (faultless_malformed _) nofun fun _ => ?_
  split
  · refine faultless_guard (faultless_malformed _) nofun fun _ => ?_
    exact faultless_ite.mpr ⟨fun _ => faultless_malformed _, fun _ => trivial⟩
  · trivial

theorem faultless_checkMap (h : Header) (headerOffset : Nat) (seen : List UInt16)
    (map : List MapItem) : (checkMap h headerOffset seen map).Faultless may := by
  have hitem (seen : List UInt16) (m : MapItem) : (checkMapItem h headerOffset seen m).Faultless may := by
    unfold checkMapItem
    split
    · simp
    · refine faultless_guard (faultless_malformed _) nofun fun _ => ?_
      split
      · simp
      · trivial
  induction map generalizing seen with
  | nil => trivial
  | cons m map ih => exact (hitem seen m).bind fun _ _ => ih _

theorem faultless_build (name : String) (extent : Extent) (itemSize fileSize : Nat) :
    (IdSection.build name extent itemSize fileSize).Faultless may := by
  unfold IdSection.build
  dsimp only
  split <;> simp

theorem faultless_ofBytes (o : Options) (bytes : ByteArray) (headerOffset : Nat) :
    (ofBytes o bytes headerOffset).Faultless may := by
  have hvalid : o.validate.Faultless may := by
    unfold Options.validate
    simp
  have hids (name : String) (extent : Extent) (size : Nat) :
      (IdSection.build name extent size bytes.size).Faultless may :=
    faultless_build name extent size bytes.size
  refine hvalid.bind fun _ _ => (faultless_versionAt bytes headerOffset).bind fun v _ => ?_
  refine (Header.faultless_decode v bytes headerOffset).bind fun header _ => ?_
  refine (faultless_checkHeader header v headerOffset bytes.size).bind fun _ _ => ?_
  refine (faultless_dataOf bytes v header).bind fun data _ => ?_
  refine faultless_ite_bind (faultless_pure _)
    (faultless_within.mpr (MapItem.faultless_decodeList data _)) fun map => ?_
  refine (faultless_checkMap header headerOffset [] map).bind fun _ _ => ?_
  refine (hids ..).bind fun _ _ => (hids ..).bind fun _ _ => (hids ..).bind fun _ _ => ?_
  refine (hids ..).bind fun _ _ => (hids ..).bind fun _ _ => (hids ..).bind fun _ _ => ?_
  exact (hids ..).bind fun _ _ => (hids ..).bind fun _ _ => faultless_pure _

/-! ## Ids -/

section
variable (f : DexFile)

theorem faultless_idPosition (s : IdSection) (index : UInt32) : (s.position index).Faultless may :=
  (faultless_checkIndex _ _ _).bind fun _ _ => trivial

/-- An index that has been checked has a cell. -/
theorem faultless_item {α : Type} {d : Decoder α} (hd : d.Faultless may) (s : IdSection)
    (index : UInt32) : (f.item s d index).Faultless may := by
  refine (faultless_idPosition s index).bind fun position hposition => ?_
  have hindex : index.toNat < s.size := by
    obtain ⟨_, hindex, -⟩ := bind_eq_ok.mp hposition
    by_contra h
    rw [checkIndex, if_neg h] at hindex
    cases hindex
  exact (Access.faultless_entry.mpr hindex).bind fun _ _ => hd f.bytes position

theorem faultless_string (index : UInt32) : (f.string index).Faultless may :=
  (f.faultless_item Decoder.faultless_u4 f.strings index).bind fun _ _ =>
    faultless_within.mpr (Text.faultless_decodeStringData _ _)

theorem faultless_type (index : UInt32) : (f.type index).Faultless may :=
  (f.faultless_item Decoder.faultless_u4 f.types index).bind fun _ _ =>
    (f.faultless_string _).bind fun _ _ => trivial

theorem faultless_typeList (offset : UInt32) : (f.typeList offset).Faultless may := by
  have htype : Decoder.Faultless may (do f.type (← Decoder.u2).toUInt32) :=
    Decoder.faultless_u2.bind fun i => Decoder.faultless_lift (f.faultless_type _)
  have htypes : f.decodeTypes.Faultless may := by
    refine Decoder.faultless_position.bind fun start => Decoder.faultless_u4.bind fun size => ?_
    refine Decoder.faultless_available.bind fun room => Decoder.faultless_guard fun _ => ?_
    exact htype.repeated _
  exact faultless_ite.mpr ⟨fun _ => trivial, fun _ => htypes _ _⟩

theorem faultless_proto (index : UInt32) : (f.proto index).Faultless may :=
  (f.faultless_item IdItem.Proto.faultless_decode f.protos index).bind fun _ _ =>
    (f.faultless_type _).bind fun _ _ => (f.faultless_typeList _).bind fun _ _ => trivial

theorem faultless_field (index : UInt32) : (f.field index).Faultless may :=
  (f.faultless_item IdItem.Member.faultless_decode f.fields index).bind fun _ _ =>
    (f.faultless_type _).bind fun _ _ => (f.faultless_type _).bind fun _ _ =>
      (f.faultless_string _).bind fun _ _ => trivial

theorem faultless_method (index : UInt32) : (f.method index).Faultless may :=
  (f.faultless_item IdItem.Member.faultless_decode f.methods index).bind fun _ _ =>
    (f.faultless_type _).bind fun _ _ => (f.faultless_proto _).bind fun _ _ =>
      (f.faultless_string _).bind fun _ _ => trivial

theorem faultless_methodHandle (index : UInt32) : (f.methodHandle index).Faultless may := by
  have hkind (code : UInt16) : (HandleKind.ofCode code).Faultless may := by
    unfold HandleKind.ofCode
    split <;> simp
  refine (f.faultless_item IdItem.Handle.faultless_decode f.methodHandles index).bind fun h _ => ?_
  refine (hkind _).bind fun kind _ => faultless_ite.mpr ⟨fun _ => ?_, fun _ => ?_⟩
  · exact (f.faultless_method _).bind fun _ _ => trivial
  · exact (f.faultless_field _).bind fun _ _ => trivial

theorem faultless_valueSource : f.valueSource.Faultless may where
  string := f.faultless_string
  type := f.faultless_type
  proto := f.faultless_proto
  field := f.faultless_field
  method := f.faultless_method
  methodHandle := f.faultless_methodHandle
  callSite _ := faultless_bounds _ _ _

theorem faultless_callSite (index : UInt32) : (f.callSite index).Faultless may := by
  have hvalues (name : String) (values : List Value) : (CallSite.ofValues name values).Faultless may := by
    unfold CallSite.ofValues
    repeat' split
    all_goals simp
  refine (f.faultless_item Decoder.faultless_u4 f.callSites index).bind fun offset _ => ?_
  refine Faultless.bind ?_ fun values _ => hvalues _ values
  exact faultless_within.mpr (faultless_decodeArray f.faultless_valueSource _ _)

theorem faultless_source : f.source.Faultless may :=
  { f.faultless_valueSource with callSite := f.faultless_callSite }

end

/-! ## Annotations -/

section
variable (f : DexFile)

theorem faultless_annotationSet (offset : UInt32) : (f.annotationSet offset).Faultless may := by
  have hannotation (offset : UInt32) : (f.annotationAt offset).Faultless may :=
    faultless_within.mpr (AnnotationItem.faultless_decode f.faultless_source _ _)
  refine faultless_ite.mpr ⟨fun _ => faultless_pure _, fun _ => ?_⟩
  exact (faultless_decodeOffsets .set f.data _).bind fun _ _ =>
    faultless_mapM fun offset _ => hannotation offset

theorem faultless_annotationSetList (offset : UInt32) : (f.annotationSetList offset).Faultless may :=
  (faultless_decodeOffsets .setList f.data _).bind fun _ _ =>
    faultless_mapM fun offset _ => f.faultless_annotationSet offset

theorem faultless_decodeDirectory : f.decodeDirectory.Faultless may := by
  have hset (offset : UInt32) :
      Decoder.Faultless may (liftM (f.annotationSet offset)) :=
    Decoder.faultless_lift (f.faultless_annotationSet offset)
  have hmembers (members : List MemberOffset) : Decoder.Faultless may
      (members.mapM fun m => return (m.member, ← f.annotationSet m.offset)) :=
    Decoder.faultless_mapM fun m => (hset m.offset).bind fun _ => by simp
  have hparameters (members : List MemberOffset) : Decoder.Faultless may
      (members.mapM fun m => return (m.member, ← f.annotationSetList m.offset)) :=
    Decoder.faultless_mapM fun m =>
      (Decoder.faultless_lift (f.faultless_annotationSetList m.offset)).bind fun _ => by simp
  refine OffsetDirectory.faultless_decode.bind fun d => (hset d.classOffset).bind fun ofClass => ?_
  refine (hmembers d.fields).bind fun ofFields => (hmembers d.methods).bind fun ofMethods => ?_
  exact (hparameters d.parameters).bind fun ofParameters => by simp

theorem faultless_annotations (offset : UInt32) : (f.annotations offset).Faultless may :=
  faultless_ite.mpr ⟨fun _ => trivial, fun _ =>
    faultless_within.mpr (f.faultless_decodeDirectory f.data offset.toNat)⟩

end

/-! ## Members -/

/-- Wherever the restrictions are, the members are read without a fault. -/
def MemberDecoder.Faultless (may : Operation → Prop) {α : Type} (m : MemberDecoder α) : Prop :=
  ∀ place, (m.run place).Faultless may

namespace MemberDecoder
variable {α β : Type}

theorem faultless_pure (a : α) : Faultless may (pure a) := fun _ => Decoder.faultless_pure _

theorem Faultless.bind {m : MemberDecoder α} {next : α → MemberDecoder β} (hm : Faultless may m)
    (hnext : ∀ a, Faultless may (next a)) : Faultless may (m >>= next) :=
  fun place => (hm place).bind fun (a, place) => hnext a place

theorem faultless_get : Faultless may get := fun _ => Decoder.faultless_pure _

theorem faultless_set (place : Option Nat) : Faultless may (set place) := fun _ => Decoder.faultless_pure _

theorem faultless_decoder {d : Decoder α} (h : d.Faultless may) : Faultless may (liftM d) :=
  fun _ => h.bind fun _ => Decoder.faultless_pure _

theorem faultless_lift {r : Result α} (h : r.Faultless may) : Faultless may (liftM r) :=
  faultless_decoder (Decoder.faultless_lift h)

theorem Faultless.run' {m : MemberDecoder α} (h : Faultless may m) (place : Option Nat) :
    (m.run' place).Faultless may :=
  Decoder.faultless_map.mpr (h place)

end MemberDecoder

section
variable (f : DexFile)
open MemberDecoder

theorem faultless_memberFlags (stored : UInt32) : (f.memberFlags stored).Faultless may := by
  unfold memberFlags
  split
  · exact faultless_pure _
  · split
    · exact faultless_pure _
    · refine faultless_get.bind fun place => ?_
      refine (faultless_lift (HiddenApi.faultless_next f.data place)).bind fun _ => ?_
      exact (faultless_set _).bind fun _ => faultless_pure _

theorem faultless_nextIndex (previous : Option UInt32) : (nextIndex previous).Faultless may := by
  refine Decoder.faultless_uleb.bind fun difference => ?_
  cases previous with
  | none => exact Decoder.faultless_pure _
  | some p => exact Decoder.faultless_guard fun _ => Decoder.faultless_pure _

theorem faultless_staticValues (offset : UInt32) : (f.staticValues offset).Faultless may :=
  faultless_ite.mpr ⟨fun _ => trivial, fun _ =>
    faultless_within.mpr (faultless_decodeArray f.faultless_source _ _)⟩

theorem faultless_initialValue (id : FieldId) (values : List Value) :
    (initialValue id values).Faultless may := by
  have hdefault (t : TypeId) : (Value.defaultFor t).Faultless may := by
    unfold Value.defaultFor
    split <;> simp
  cases values with
  | nil => exact faultless_within.mpr (hdefault id.type)
  | cons v rest => trivial

theorem faultless_decodeFields (a : Annotations) (count : Nat) (previous : Option UInt32)
    (values : Option (List Value)) : (f.decodeFields a count previous values).Faultless may := by
  induction count generalizing previous values with
  | zero => exact MemberDecoder.faultless_pure _
  | succ count ih =>
    refine (faultless_decoder (faultless_nextIndex previous)).bind fun index => ?_
    refine (faultless_lift (f.faultless_field index)).bind fun id => ?_
    refine (faultless_decoder Decoder.faultless_uleb).bind fun stored => ?_
    refine (f.faultless_memberFlags stored).bind fun (access, restriction) => ?_
    refine (faultless_lift (faultless_option_mapM values (faultless_initialValue id))).bind fun _ => ?_
    exact (ih _ _).bind fun _ => MemberDecoder.faultless_pure _

theorem faultless_debugInfo (index : UInt32) (item : CodeItem) :
    (f.debugInfo index item).Faultless may := by
  have hread (offset : UInt32) : Result.Faultless may (do
      if offset = 0 then return none
      let d ← ((DebugInfo.decode f.source).valueAt f.data offset.toNat).within
        s!"debug info at {hex offset.toNat}"
      return some d) := by
    refine faultless_ite.mpr ⟨fun _ => Result.faultless_pure _, fun _ => ?_⟩
    exact (faultless_within.mpr (DebugInfo.faultless_decode f.faultless_source _ _)).bind
      fun _ _ => Result.faultless_pure _
  refine faultless_ite.mpr ⟨fun _ => Result.faultless_pure _, fun _ => ?_⟩
  cases f.header.compact with
  | none => exact hread item.debugOffset
  | some c => exact (DebugTable.faultless_lookup _ _ _ _ _ _ _).bind fun offset _ => hread offset

section
variable (hadd : f.version.isCompact → may .add)
include hadd

theorem faultless_codeItem (offset : UInt32) : (f.codeItem offset).Faultless may := by
  refine faultless_ite.mpr ⟨fun _ => Result.faultless_pure _, fun _ => ?_⟩
  exact (faultless_within.mpr (CodeItem.faultless_decode f.faultless_source hadd _ _ _)).bind
    fun _ _ => Result.faultless_pure _

theorem faultless_methodDef (a : Annotations) (index : UInt32) (id : MethodId)
    (access restriction codeOffset : UInt32) :
    (f.methodDef a index id access restriction codeOffset).Faultless may := by
  refine (f.faultless_codeItem hadd codeOffset).bind fun item _ => ?_
  cases item with
  | none => trivial
  | some item => exact (f.faultless_debugInfo index item).bind fun _ _ => Result.faultless_pure _

theorem faultless_decodeMethods (a : Annotations) (count : Nat) (previous : Option UInt32) :
    (f.decodeMethods a count previous).Faultless may := by
  induction count generalizing previous with
  | zero => exact MemberDecoder.faultless_pure _
  | succ count ih =>
    refine (faultless_decoder (faultless_nextIndex previous)).bind fun index => ?_
    refine (faultless_lift (f.faultless_method index)).bind fun id => ?_
    refine (faultless_decoder Decoder.faultless_uleb).bind fun stored => ?_
    refine (f.faultless_memberFlags stored).bind fun (access, restriction) => ?_
    refine (faultless_decoder Decoder.faultless_uleb).bind fun codeOffset => ?_
    have hmethod := f.faultless_methodDef hadd a index id access restriction codeOffset
    refine (faultless_lift (faultless_within.mpr hmethod)).bind fun _ => ?_
    exact (ih _).bind fun _ => MemberDecoder.faultless_pure _

end

/-! ## Classes -/

/-- The operations of which a result may leave its word while the class with an index is read: the sum
of code units in a compact file, and those for the place of a class that is the class of no file. -/
def MayOverflow (index : Nat) (operation : Operation) : Prop :=
  f.version.isCompact ∧ operation = .add ∨
    2 ^ 61 ≤ index ∧ (operation = .multiply ∨ operation = .add)

theorem faultless_firstRestriction (index : Nat) :
    (f.firstRestriction index).Faultless (f.MayOverflow index) := by
  unfold firstRestriction
  cases hoffset : f.hiddenApiOffset? with
  | none => trivial
  | some offset =>
    refine faultless_ite.mpr ⟨fun _ => faultless_within.mpr ?_, fun _ => trivial⟩
    have hword : offset < 2 ^ 32 := by
      obtain ⟨item, -, rfl⟩ := Option.map_eq_some_iff.mp hoffset
      exact item.offset.toNat_lt
    refine HiddenApi.faultless_locate ?_ _ _
    by_cases hindex : index < 2 ^ 61
    · exact .inl (by omega)
    · have hlarge := Nat.not_lt.mp hindex
      exact .inr ⟨.inr ⟨hlarge, .inl rfl⟩, .inr ⟨hlarge, .inr rfl⟩⟩

theorem faultless_decodeMembers (index : Nat) (a : Annotations) (values : List Value)
    (c : ClassDef) : (f.decodeMembers index a values c).Faultless (f.MayOverflow index) := by
  have hadd (hcompact : f.version.isCompact) : f.MayOverflow index .add := .inl ⟨hcompact, rfl⟩
  refine Decoder.faultless_uleb.bind fun _ => Decoder.faultless_uleb.bind fun _ => ?_
  refine Decoder.faultless_uleb.bind fun _ => Decoder.faultless_uleb.bind fun _ => ?_
  refine Decoder.faultless_available.bind fun _ => Decoder.faultless_guard fun _ => ?_
  refine (Decoder.faultless_lift (f.faultless_firstRestriction index)).bind fun place => ?_
  refine Faultless.run' ?_ place
  refine (f.faultless_decodeFields a _ _ _).bind fun _ => ?_
  refine (f.faultless_decodeFields a _ _ _).bind fun _ => ?_
  refine (f.faultless_decodeMethods hadd a _ _).bind fun _ => ?_
  exact (f.faultless_decodeMethods hadd a _ _).bind fun _ => MemberDecoder.faultless_pure _

theorem faultless_ofClassItem (index : Nat) (i : IdItem.Class) :
    (f.ofClassItem index i).Faultless (f.MayOverflow index) := by
  refine (f.faultless_type _).bind fun type _ => ?_
  refine (faultless_option_mapM _ f.faultless_type).bind fun _ _ => ?_
  refine (f.faultless_typeList _).bind fun _ _ => ?_
  refine (faultless_option_mapM _ f.faultless_string).bind fun _ _ => ?_
  refine (f.faultless_annotations _).bind fun a _ => (f.faultless_staticValues _).bind fun values _ => ?_
  refine faultless_ite.mpr ⟨fun _ => Result.faultless_pure _, fun _ => ?_⟩
  exact faultless_within.mpr (faultless_within.mpr (f.faultless_decodeMembers index a values _ _ _))

theorem faultless_classDef (index : Nat) : (f.classDef index).Faultless (f.MayOverflow index) :=
  (faultless_idPosition f.classes _).bind fun _ _ => faultless_within.mpr <|
    (IdItem.Class.faultless_decode _ _).bind fun item _ => f.faultless_ofClassItem index item

/-- All classes of a file are its own. -/
theorem faultless_dex (hsize : f.classes.size ≤ 2 ^ 61) :
    f.dex.Faultless fun operation => f.version.isCompact ∧ operation = .add := by
  refine (faultless_mapM fun index hindex => ?_).bind fun _ _ => Result.faultless_pure _
  refine (f.faultless_classDef index).mono fun operation hmay => hmay.resolve_right fun hlarge => ?_
  have hlt : index < f.classes.size := List.mem_range.mp hindex
  omega

end

/-- A file that has been opened has its classes counted in a word. -/
theorem faultless_dex_of_ofBytes {o : Options} {bytes : ByteArray} {headerOffset : Nat} {f : DexFile}
    (h : ofBytes o bytes headerOffset = .ok f) :
    f.dex.Faultless fun operation => f.version.isCompact ∧ operation = .add := by
  obtain ⟨-, -, -, hsize⟩ := ofBytes_spec h
  have hword := f.header.classes.size.toNat_lt
  exact f.faultless_dex (by omega)

end DexFile

/-! ## Containers -/

/-- Adding, if some file that is opened in the bytes is a compact one. -/
def Dex.CompactSum (o : Options) (bytes : ByteArray) (operation : Operation) : Prop :=
  operation = .add ∧
    ∃ offset f, DexFile.ofBytes o bytes offset = .ok f ∧ f.version.isCompact

theorem Dex.faultless_dex {o : Options} {bytes : ByteArray} {offset : Nat} {f : DexFile}
    (h : DexFile.ofBytes o bytes offset = .ok f) : f.dex.Faultless (CompactSum o bytes) :=
  (DexFile.faultless_dex_of_ofBytes h).mono fun _ ⟨hcompact, hadd⟩ => ⟨hadd, offset, f, h, hcompact⟩

theorem Dex.faultless_decodeFrom (o : Options) (bytes : ByteArray) (offset : Nat) :
    (decodeFrom o bytes offset).outcome.Faultless (CompactSum o bytes) := by
  induction offset using decodeFrom.induct o bytes with
  | case1 offset e hopen =>
    have hfile : (DexFile.ofBytes o bytes offset).Faultless (CompactSum o bytes) :=
      DexFile.faultless_ofBytes o bytes offset
    rw [decodeFrom, hopen]
    rw [hopen] at hfile
    exact (faultless_within (x := .error e)).mpr hfile
  | case2 offset f hopen e hdex =>
    have hclasses := faultless_dex hopen
    rw [decodeFrom, hopen]
    rw [hdex] at hclasses
    simp only [hdex]
    exact (faultless_within (x := .error e)).mpr hclasses
  | case3 offset f hopen d hdex next hnext ih =>
    rw [decodeFrom, hopen]
    simp only [hdex]
    rw [if_pos hnext]
    exact faultless_map.mpr ih
  | case4 offset f hopen d hdex next hnext =>
    rw [decodeFrom, hopen]
    simp only [hdex]
    rw [if_neg hnext]
    trivial

theorem Dex.faultless_decode (o : Options) (bytes : ByteArray) :
    (decode o bytes).outcome.Faultless (CompactSum o bytes) := by
  have hfile : (DexFile.ofBytes o bytes 0).Faultless (CompactSum o bytes) :=
    DexFile.faultless_ofBytes o bytes 0
  unfold decode
  split
  next e hopen =>
    rw [hopen] at hfile
    exact hfile
  next f hopen => exact faultless_dex hopen

/-- However malformed the bytes are, no byte, slice or cell that is taken directly is missing. Opening
a file and reading one of its ids end in a value or in an error that is given on purpose. So does
reading a class, all classes of a file and all files of a container, but for a sum that leaves its
word: that of the code units of a compact item, if the item states 2 ^ 32 of them or more. A class can
also be asked for by an index so large that the place of its restrictions leaves the word. -/
theorem DexFile.reading_faultless (o : Options) (bytes : ByteArray) (headerOffset : Nat) :
    (ofBytes o bytes headerOffset).Faultless Operation.never ∧
    (∀ f : DexFile, f.source.Faultless Operation.never ∧
      ∀ index, (f.classDef index).Faultless (f.MayOverflow index)) ∧
    (∀ f, ofBytes o bytes headerOffset = .ok f →
      f.dex.Faultless fun operation => f.version.isCompact ∧ operation = .add) ∧
    (Dex.decode o bytes).outcome.Faultless (Dex.CompactSum o bytes) ∧
    (Dex.decodeContainer o bytes).outcome.Faultless (Dex.CompactSum o bytes) ∧
    ∀ (compact : Bool) (table : OpcodeTable) (s : Source), s.Faultless Operation.never →
      ∀ (data : ByteArray) (start : Nat),
        (((CodeItem.decode compact table s).valueAt data start).Faultless Operation.never ↔
          ¬ (compact ∧ ∃ n, CodeHeader.StatesUnits data start n ∧ 2 ^ 32 ≤ n)) :=
  ⟨faultless_ofBytes o bytes headerOffset, fun f => ⟨f.faultless_source, f.faultless_classDef⟩,
    fun _ => faultless_dex_of_ofBytes, Dex.faultless_decode o bytes, Dex.faultless_decodeFrom o bytes 0,
    fun _ _ _ hs _ _ => CodeItem.faultless_decode_iff hs⟩

theorem faultless_twoNamesSource : twoNamesSource.Faultless Operation.never where
  string i := by
    unfold twoNamesSource
    simp
  type _ := trivial
  proto _ := faultless_bounds _ _ _
  field _ := faultless_bounds _ _ _
  method _ := faultless_bounds _ _ _
  methodHandle _ := faultless_bounds _ _ _
  callSite _ := faultless_bounds _ _ _

/-- An item that states one code unit and 2 ^ 32 - 1 more ends in a fault. -/
theorem DexFile.reading_faultless_overlong :
    twoNamesSource.Faultless Operation.never ∧
    ¬ ((CodeItem.decode true (.ofTarget (WriteOptions.target {})) twoNamesSource).valueAt
      CodeItem.overlongBytes 4).Faultless Operation.never := by
  obtain ⟨-, -, -, -, -, hitem⟩ := reading_faultless {} .empty 0
  refine ⟨faultless_twoNamesSource, fun hfaultless => ?_⟩
  refine (hitem true _ _ faultless_twoNamesSource _ 4).mp hfaultless ⟨rfl, 2 ^ 32, ?_, Nat.le_refl _⟩
  exact CodeItem.stated_overlongBytes.statesUnits

end Dalvik
