import Dalvik.File.Encode
import Dalvik.Proofs.Resolved.Data

/-!
# Files without dangling references

The ids refer to each other and to the data. With them the whole of a file is resolved, whether it
is compact, stands on its own or shares a buffer with others.
-/
namespace Dalvik
open Result

/-! ## Ids -/

namespace Gathered.Fills

variable {o : WriteOptions} {d : Dex} {g : Gathered} {c : Contents} {data : Contents.Data}

theorem has_of_holds (h : g.Fills o d c) {r : Reference} (hr : c.pools.Holds r) {p : Part}
    (hp : p ∈ Part.ofReference r) : g.Has p :=
  h.has (p := .reference r) (h.holds_iff.mp hr) hp

theorem resolved_protoItem (h : g.Fills o d c) (hd : c.Covered data) {p : ProtoId}
    (hp : p ∈ c.pools.protos.toList) : (c.protoItem data p).Resolved := by
  have has {q : Part} (hq : q ∈ Part.ofReference (.proto p)) : g.Has q :=
    h.has_of_holds (r := .proto p) hp hq
  refine Resolved.bind (h.knows (has (.head _))) fun _ _ => ?_
  refine Resolved.bind (h.knows (has (.tail _ (.head _)))) fun _ _ => ?_
  refine resolved_ite (fun _ => trivial) fun hne => ?_
  refine (hd.typeLists.resolved_offset_id ?_ _).bind fun _ _ => trivial
  rw [h.items]
  refine has (q := .typeList p.parameters) ?_
  rw [Part.ofReference, if_neg hne]
  exact .tail _ (.tail _ (.head _))

theorem resolved_fieldItem (h : g.Fills o d c) {f : FieldId} (hf : f ∈ c.pools.fields.toList) :
    (Contents.fieldItem c.resolver f).Resolved := by
  have has {q : Part} (hq : q ∈ Part.ofReference (.field f)) : g.Has q :=
    h.has_of_holds (r := .field f) hf hq
  refine Resolved.bind (h.knows (has (.head _))) fun _ _ => ?_
  refine Resolved.bind (h.knows (has (.tail _ (.tail _ (.head _))))) fun _ _ => ?_
  exact Resolved.bind (h.knows (has (.tail _ (.head _)))) fun _ _ => trivial

theorem resolved_methodItem (h : g.Fills o d c) {m : MethodId} (hm : m ∈ c.pools.methods.toList) :
    (Contents.methodItem c.resolver m).Resolved := by
  have has {q : Part} (hq : q ∈ Part.ofReference (.method m)) : g.Has q :=
    h.has_of_holds (r := .method m) hm hq
  refine Resolved.bind (h.knows (has (.head _))) fun _ _ => ?_
  refine Resolved.bind (h.knows (has (.tail _ (.tail _ (.head _))))) fun _ _ => ?_
  exact Resolved.bind (h.knows (has (.tail _ (.head _)))) fun _ _ => trivial

theorem resolved_handleItem (h : g.Fills o d c) {m : MethodHandle}
    (hm : m ∈ c.pools.methodHandles.toList) : (Contents.handleItem c.resolver m).Resolved := by
  have has {q : Part} (hq : q ∈ Part.ofReference (.methodHandle m)) : g.Has q :=
    h.has_of_holds (r := .methodHandle m) hm hq
  obtain ⟨kind, member⟩ := m
  cases member with
  | field f => exact Resolved.bind (h.knows (has (.head _))) fun _ _ => trivial
  | method m => exact Resolved.bind (h.knows (has (.head _))) fun _ _ => trivial

theorem resolved_callSiteItem (h : g.Fills o d c) (hd : c.Covered data) {s : CallSite}
    (hs : s ∈ c.pools.callSites.toList) : (c.callSiteItem data s).Resolved := by
  refine (hd.encodedArrays.resolved_offset_id ?_ _).bind fun _ _ => trivial
  rw [h.items]
  exact h.has_of_holds (r := .callSite s) (p := .encodedArray s.toValues) hs (.head _)

theorem resolved_classItem (h : g.Fills o d c) (hd : c.Covered data) {e : ClassEntry}
    (he : e ∈ c.classes) (index : Nat) :
    (Contents.classItem c.resolver data e index).Resolved := by
  have holds := h.holdsClass he
  refine Resolved.bind (h.knows_of_will holds.type) fun _ _ => ?_
  refine (resolved_option_mapM fun t ht => h.knows_of_will (holds.superclass t ht)).bind
    fun _ _ => ?_
  refine (hd.typeLists.resolved_optionalOffset (fun i hi => ?_) _).bind fun _ _ => ?_
  · rw [h.items]
    exact ItemSet.lt_length_of_id? (holds.interfaces.id?_eq hi)
  refine (resolved_option_mapM fun s hs => h.knows_of_will (holds.sourceFile s hs)).bind
    fun _ _ => ?_
  refine (hd.directories.resolved_optionalOffset (fun i hi => ?_) _).bind fun _ _ => ?_
  · obtain ⟨_, _, _, -, directory⟩ := holds.members
    obtain ⟨part, hpart, hid⟩ := directory.exists_part hi
    obtain ⟨s, -, rfl⟩ := Option.map_eq_some_iff.mp hpart
    rw [h.items]
    exact ItemSet.lt_length_of_id? hid
  refine (hd.encodedArrays.resolved_optionalOffset (fun i hi => ?_) _).bind fun _ _ => trivial
  obtain ⟨values, -, array⟩ := holds.values
  rw [h.items]
  exact ItemSet.lt_length_of_id? (array.id?_eq hi)

theorem resolved_encodeIds (h : g.Fills o d c) (hd : c.Covered data) :
    (c.encodeIds data).Resolved := by
  refine (resolved_mapM fun t ht => ?_).bind fun _ _ => ?_
  · have text : g.Has (.reference (.string t.descriptor)) :=
      h.has_of_holds (r := .type t) ht (.head _)
    exact Resolved.bind (h.knows text) fun _ _ => resolved_pure _
  refine (resolved_mapM fun p hp => h.resolved_protoItem hd hp).bind fun _ _ => ?_
  refine (resolved_mapM fun f hf => h.resolved_fieldItem hf).bind fun _ _ => ?_
  refine (resolved_mapM fun m hm => h.resolved_methodItem hm).bind fun _ _ => ?_
  refine (resolved_mapM fun e he => resolved_within.mpr
    (h.resolved_classItem hd (List.fst_mem_of_mem_zipIdx he) e.2)).bind fun _ _ => ?_
  refine (resolved_mapM fun s hs => h.resolved_callSiteItem hd hs).bind fun _ _ => ?_
  exact (resolved_mapM fun m hm => h.resolved_handleItem hm).bind fun _ _ => trivial

theorem resolved_debugOffsets (h : g.Fills o d c) (hd : c.Covered data) :
    (c.debugOffsets data).Resolved := by
  refine (resolved_mapM fun m hm => ?_).bind fun _ _ => trivial
  obtain ⟨hm, hsome⟩ := List.mem_filter.mp hm
  obtain ⟨e, he, hm⟩ := List.mem_flatMap.mp hm
  obtain ⟨i, hi⟩ := Option.isSome_iff_exists.mp hsome
  refine Resolved.bind (h.knows_method he hm) fun _ _ => ?_
  rw [hi]
  exact (hd.debugInfos.resolved_offset (h.debug_lt he hm i hi) _).bind fun _ _ => trivial

end Gathered.Fills

/-! ## Files -/

theorem Contents.resolved_checkFileSize (size : Nat) : (checkFileSize size).Resolved :=
  resolved_ite (fun _ => resolved_violation _) fun _ => trivial

namespace Gathered.Fills

variable {o : WriteOptions} {d : Dex} {g : Gathered} {c : Contents}

theorem resolved_encodeCompact (h : g.Fills o d c) : (c.encodeCompact o).Resolved := by
  have hstart : 0 < Contents.reserved := by decide
  refine (Contents.resolved_data h hstart).bind fun data hdata => ?_
  have hd := Contents.covered_of_data hstart hdata
  refine (h.resolved_encodeIds hd).bind fun _ _ => ?_
  refine (h.resolved_debugOffsets hd).bind fun _ _ => ?_
  exact (Contents.resolved_checkFileSize _).bind fun _ _ => trivial

theorem resolved_encodeStandard (h : g.Fills o d c) (headerOffset : Nat) :
    (c.encodeStandard o headerOffset).Resolved := by
  have hsize : 0 < Header.sizeOf o.version := by cases o.version <;> decide
  have hstart : 0 < alignUp (c.layout (headerOffset + Header.sizeOf o.version)).stop
      Contents.mapAlignment := by
    refine Nat.lt_of_lt_of_le ?_ (le_alignUp _ _)
    simp only [Contents.layout]
    omega
  refine (Contents.resolved_data h hstart).bind fun data hdata => ?_
  have hd := Contents.covered_of_data hstart hdata
  refine (h.resolved_encodeIds hd).bind fun _ _ => ?_
  exact (Contents.resolved_checkFileSize _).bind fun _ _ => trivial

end Gathered.Fills

theorem WriteOptions.resolved_validate (o : WriteOptions) : o.validate.Resolved := by
  refine Resolved.bind (resolved_ite (fun _ => resolved_unsupported _) fun _ => ?_) fun _ _ => ?_
  · exact resolved_ite (fun _ => resolved_unsupported _) fun _ =>
      resolved_ite (fun _ => resolved_unsupported _) fun _ => trivial
  · exact resolved_ite (fun _ => resolved_unsupported _) fun _ => trivial

namespace Dex

theorem resolved_encodeUnsigned (o : WriteOptions) (headerOffset : Nat) (d : Dex) :
    (d.encodeUnsigned o headerOffset).Resolved := by
  refine o.resolved_validate.bind fun _ _ => (Contents.resolved_ofDex o d).bind fun c hc => ?_
  obtain ⟨g, h⟩ := Contents.fills_of_ofDex hc
  exact resolved_ite (fun _ => h.resolved_encodeCompact) fun _ =>
    h.resolved_encodeStandard headerOffset

theorem resolved_encodeFrom (o : WriteOptions) (index headerOffset : Nat) (files : List Dex) :
    (encodeFrom o index headerOffset files).Resolved := by
  induction files generalizing index headerOffset with
  | nil => trivial
  | cons d files ih =>
    refine (resolved_within.mpr (resolved_encodeUnsigned o headerOffset d)).bind fun _ _ => ?_
    exact (ih _ _).bind fun _ _ => trivial

theorem resolved_container (o : WriteOptions) (files : List Dex) :
    (encodeContainer o files).Resolved := by
  refine resolved_ite (fun _ => (resolved_unsupported _).bind nofun) fun _ => ?_
  exact resolved_guard fun _ => (resolved_encodeFrom o 0 0 files).bind fun _ _ => trivial

/-- Writing never fails because something that is referred to has not been gathered: neither for a
file on its own nor for several in one buffer, whatever they contain and whatever they are written
as. -/
theorem encode_never_unresolved (o : WriteOptions) :
    (∀ d : Dex, (d.encode o).Resolved) ∧ ∀ files : List Dex, (encodeContainer o files).Resolved := by
  refine ⟨fun d => resolved_ite (fun _ => resolved_container o [d]) fun _ => ?_,
    resolved_container o⟩
  exact (resolved_encodeUnsigned o 0 d).map _

end Dex

end Dalvik
