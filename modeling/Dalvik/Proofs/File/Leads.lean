import Dalvik.Proofs.File.RoundTrip
import Dalvik.Proofs.File.Uses

/-!
# Uses lead to items

Following the offsets of a file from a use of a value on leads to the item of the value. The lemmas go
along the ways there are: from an id, from the definition of a class, from its directory, from the
data of its methods, and from one item to the next.
-/
namespace Dalvik
open Result

theorem SharedItem.unlessEmpty_eq_some {α : Type} {make : List α → SharedItem} {items : List α}
    {v : SharedItem} : unlessEmpty make items = some v ↔ items ≠ [] ∧ make items = v := by
  unfold unlessEmpty
  cases items <;> simp

namespace Use
open SharedItem DexFile

/-- An offset is stored where the value is used, and the item of the value begins there. -/
def Leads (f : DexFile) (dex : Dex) (c : Contents) (d : Contents.Data) (u : Use) (v : SharedItem) :
    Prop :=
  ∃ offset, u.offset? f dex c.pools = some offset ∧ v.BeginsAt c.items d offset.toNat

section
variable {f : DexFile} {o : WriteOptions} {c : Contents} {d : Contents.Data} {g : Gathered}
  {dex : Dex} {start k : Nat} {i : UInt32} {v : SharedItem} (h : f.Holds o c d)
  (hp : c.pools.Short) (hf : g.Fills o dex c) (hb : c.Built o start d)
  (hstop : start + (d.bytes o.version.isCompact).length < UInt32.size)
include hb hstop

/-- Sets of annotations that are not empty have an offset. -/
theorem beginsAt_of_setOffset {set : List AnnotationItem} {offset : UInt32}
    (hv : unlessEmpty .annotationSet set = some v)
    (ho : c.setOffset d.annotationSets set = .ok offset) : v.BeginsAt c.items d offset.toNat := by
  obtain ⟨hne, rfl⟩ := unlessEmpty_eq_some.mp hv
  rw [Contents.setOffset, if_neg (by simpa using hne)] at ho
  exact beginsAt_of_offset (u := .annotationSet set) hb hstop ho

include h

theorem leads_parameters (hv : (parameters i).item? o dex c.pools = some v) :
    (parameters i).Leads f dex c d v := by
  obtain ⟨q, hq, hv⟩ := Option.bind_eq_some_iff.mp hv
  obtain ⟨hne, rfl⟩ := unlessEmpty_eq_some.mp hv
  obtain ⟨item, hitem, hread⟩ := exists_item h.protos
    (fun x _ hstands => (IdItem.Proto.decode_reads x).valueAt hstands)
    (by rw [ItemSet.getElem?_toList, hq])
  obtain ⟨shorty, -, hitem⟩ := bind_eq_ok.mp hitem
  obtain ⟨returnType, -, hitem⟩ := bind_eq_ok.mp hitem
  rw [if_neg (by simpa using hne)] at hitem
  obtain ⟨offset, hoffset, hitem⟩ := bind_eq_ok.mp hitem
  obtain rfl := pure_eq_ok.mp hitem
  refine ⟨offset, ?_, beginsAt_of_offset (u := .typeList q.parameters) hb hstop hoffset⟩
  rw [offset?, hread]
  rfl

theorem leads_callSite (hv : (callSite i).item? o dex c.pools = some v) :
    (callSite i).Leads f dex c d v := by
  obtain ⟨q, hq, hv⟩ := Option.bind_eq_some_iff.mp hv
  obtain rfl := Option.some.inj hv
  obtain ⟨offset, hoffset, hread⟩ := exists_word h.callSites (by rw [ItemSet.getElem?_toList, hq])
  refine ⟨offset, ?_, beginsAt_of_offset (u := .encodedArray q.toValues) hb hstop hoffset⟩
  rw [offset?, hread]
  rfl

/-! ## Lists of offsets -/

theorem leads_setIn {list : Use}
    (ih : ∀ v, list.item? o dex c.pools = some v → list.Leads f dex c d v)
    (hv : (setIn list k).item? o dex c.pools = some v) : (setIn list k).Leads f dex c d v := by
  obtain ⟨w, hw, hv⟩ := Option.bind_eq_some_iff.mp hv
  obtain ⟨offset, hoffset, i, p, hi, hp, hn, -⟩ := ih w hw
  cases w with
  | annotationSetList sets =>
    obtain ⟨set, hset, hv⟩ := Option.bind_eq_some_iff.mp hv
    obtain ⟨b, hbytes, hstands⟩ := exists_bytes h.data.annotationSetLists hi hp hn
    obtain ⟨x, hx, hplace⟩ := exists_entryAt h hbytes hstands .setList hset
    refine ⟨x, ?_, beginsAt_of_setOffset hb hstop hv hplace⟩
    rw [offset?, hoffset]
    exact hx
  | _ => cases hv

theorem leads_annotationIn {set : Use}
    (ih : ∀ v, set.item? o dex c.pools = some v → set.Leads f dex c d v)
    (hv : (annotationIn set k).item? o dex c.pools = some v) :
    (annotationIn set k).Leads f dex c d v := by
  obtain ⟨w, hw, hv⟩ := Option.bind_eq_some_iff.mp hv
  obtain ⟨offset, hoffset, i, p, hi, hp, hn, -⟩ := ih w hw
  cases w with
  | annotationSet annotations =>
    obtain ⟨a, ha, hv⟩ := Option.bind_eq_some_iff.mp hv
    obtain rfl := Option.some.inj hv
    obtain ⟨b, hbytes, hstands⟩ := exists_bytes h.data.annotationSets hi hp hn
    obtain ⟨x, hx, hplace⟩ := exists_entryAt h hbytes hstands .set ha
    refine ⟨x, ?_, beginsAt_of_offset (u := .annotationItem a) hb hstop hplace⟩
    rw [offset?, hoffset]
    exact hx
  | _ => cases hv

/-! ## Classes -/

include hf

omit h in
/-- The offset of a part that was gathered. -/
theorem beginsAt_of_part {part : Part} {what : String} {offset : UInt32}
    (hid : v.id? g.items = g.id? part) (ho : (v.home d).offset what (g.id? part) = .ok offset) :
    v.BeginsAt c.items d offset.toNat := by
  rw [← hid, ← hf.items] at ho
  exact beginsAt_of_offset hb hstop ho

theorem leads_interfaces (hv : (interfaces i).item? o dex c.pools = some v) :
    (interfaces i).Leads f dex c d v := by
  obtain ⟨x, hx, hv⟩ := Option.bind_eq_some_iff.mp hv
  obtain ⟨hne, rfl⟩ := unlessEmpty_eq_some.mp hv
  obtain ⟨e, item, hdefines⟩ := exists_defines h hf hx
  refine ⟨item.interfaces, by rw [offset?, hdefines.item]; rfl, ?_⟩
  rcases hdefines.holds.interfaces.list_cases hdefines.interfaces with ⟨hnil, -⟩ | ho
  · exact absurd hnil hne
  · exact beginsAt_of_part (v := .typeList x.interfaces) hf hb hstop rfl ho

theorem leads_staticValues (hv : (staticValues i).item? o dex c.pools = some v) :
    (staticValues i).Leads f dex c d v := by
  obtain ⟨x, hx, hv⟩ := Option.bind_eq_some_iff.mp hv
  obtain ⟨values, hvalues, hv⟩ := Option.bind_eq_some_iff.mp hv
  obtain ⟨hne, rfl⟩ := unlessEmpty_eq_some.mp hv
  obtain ⟨e, item, hdefines⟩ := exists_defines h hf hx
  obtain ⟨all, hall, hplace⟩ := hdefines.holds.values
  have htrim : values = Value.trimDefaults all := by
    rw [ClassDef.staticValues?, ← hdefines.holds.staticFields, hall] at hvalues
    exact (Option.some.inj hvalues).symm
  refine ⟨item.staticValues, by rw [offset?, hdefines.item]; rfl, ?_⟩
  rcases hplace.list_cases hdefines.staticValues with ⟨hnil, -⟩ | ho
  · exact absurd (htrim.trans hnil) hne
  · rw [htrim]
    exact beginsAt_of_part (v := .encodedArray _) hf hb hstop rfl ho

omit h in
/-- A class has a directory unless its offset is 0. -/
theorem directory_cases {x : ClassDef} {e : ClassEntry} {item : IdItem.Class}
    (hdefines : f.Defines o c d g i x e item) :
    (x.directory? = none ∧ item.annotations = 0) ∨
      ∃ a, x.directory? = some a ∧
        (SharedItem.directory a).BeginsAt c.items d item.annotations.toNat := by
  obtain ⟨ofClass, fields, methods, hmembers, hplace⟩ := hdefines.holds.members
  rw [hmembers.directory?_eq hdefines.holds]
  rcases hplace.offset_cases hdefines.annotations with ⟨hnone, -, hzero⟩ | ⟨part, hpart, ho⟩
  · exact .inl ⟨Option.map_eq_none_iff.mp hnone, hzero⟩
  · obtain ⟨a, ha, rfl⟩ := Option.map_eq_some_iff.mp hpart
    exact .inr ⟨a, ha, beginsAt_of_part (v := .directory a) hf hb hstop rfl ho⟩

theorem leads_directory (hv : (directory i).item? o dex c.pools = some v) :
    (directory i).Leads f dex c d v := by
  obtain ⟨x, hx, hv⟩ := Option.bind_eq_some_iff.mp hv
  obtain ⟨a, ha, hv⟩ := Option.bind_eq_some_iff.mp hv
  obtain rfl := Option.some.inj hv
  obtain ⟨e, item, hdefines⟩ := exists_defines h hf hx
  refine ⟨item.annotations, by rw [offset?, hdefines.item]; rfl, ?_⟩
  rcases directory_cases hf hb hstop hdefines with ⟨hnone, -⟩ | ⟨a', ha', hbegins⟩
  · rw [hnone] at ha
    cases ha
  · obtain rfl := Option.some.inj (ha.symm.trans ha')
    exact hbegins

/-- The directory in the file has what was stored of the annotations of a class and of its members,
unless there are none. -/
theorem exists_directory {x : ClassDef} (hx : dex.classes[i.toNat]? = some x) :
    ∃ (e : ClassEntry) (ofClass : List AnnotationItem) (fields : List (FieldId × List AnnotationItem))
      (methods : List (MethodEntry × List AnnotationItem × List (List AnnotationItem))),
      g.HoldsClass o x e ∧ g.HoldsMembers o x e ofClass fields methods ∧
      (¬ (ofClass = [] ∧ (∀ y ∈ fields, y.2 = []) ∧ ∀ y ∈ methods, y.2.1 = [] ∧ y.2.2 = []) →
        ∃ owner places, f.directory? i = some places ∧
          Directs c d ⟨owner, ofClass, kept Prod.fst Prod.snd fields,
            kept (fun y => y.1.id) (fun y => y.2.1) methods,
            kept (fun y => y.1.id) (fun y => y.2.2) methods⟩ places) := by
  obtain ⟨e, item, hdefines⟩ := exists_defines h hf hx
  obtain ⟨ofClass, fields, methods, hmembers, -⟩ := hdefines.holds.members
  refine ⟨e, ofClass, fields, methods, hdefines.holds, hmembers, fun hsome => ?_⟩
  have hdirectory := hmembers.directory?_eq hdefines.holds
  rcases directory_cases hf hb hstop hdefines with ⟨hnone, -⟩ | ⟨a, ha, hbegins⟩
  · exact absurd (Gather.eq_nil_of_directoryOf (hdirectory.symm.trans hnone)) hsome
  · obtain ⟨owner, rfl⟩ := Gather.exists_owner_of_directoryOf (hdirectory.symm.trans ha)
    obtain ⟨places, hplaces, hdirects⟩ := exists_directs h hbegins
    rw [filter_eq_kept] at hdirects
    refine ⟨owner, places, ?_, hdirects⟩
    have hne : item.annotations ≠ 0 := by
      obtain ⟨_, _, -, -, -, hne⟩ := hbegins
      exact fun hzero => hne (by rw [hzero]; rfl)
    refine Option.bind_eq_some_iff.mpr ⟨item, hdefines.item, ?_⟩
    rw [if_neg hne, hplaces]
    rfl

theorem leads_ofClass (hv : (ofClass i).item? o dex c.pools = some v) :
    (ofClass i).Leads f dex c d v := by
  obtain ⟨x, hx, hv⟩ := Option.bind_eq_some_iff.mp hv
  obtain ⟨set, hset, hv⟩ := Option.bind_eq_some_iff.mp hv
  obtain ⟨e, ofClass, fields, methods, -, hmembers, hfile⟩ := exists_directory h hf hb hstop hx
  obtain rfl := Except.ok.inj ((toOption_eq_some.mp hset).symm.trans hmembers.set)
  obtain ⟨owner, places, hplaces, hdirects⟩ := hfile fun hnil =>
    (unlessEmpty_eq_some.mp hv).1 hnil.1
  refine ⟨places.classOffset, by rw [offset?, hplaces]; rfl, ?_⟩
  exact beginsAt_of_setOffset hb hstop hv hdirects.ofClass

/-! ## Members -/

include hp

theorem leads_ofField {y : FieldDef} (hv : (ofField i y).item? o dex c.pools = some v) :
    (ofField i y).Leads f dex c d v := by
  obtain ⟨x, hx, hv⟩ := Option.bind_eq_some_iff.mp hv
  obtain ⟨hx, hy⟩ := Option.filter_eq_some_iff.mp hx
  obtain ⟨set, hset, hv⟩ := Option.bind_eq_some_iff.mp hv
  obtain ⟨e, ofClass, fields, methods, hholds, hmembers, hfile⟩ := exists_directory h hf hb hstop hx
  obtain ⟨set', hset', hmem⟩ := hmembers.exists_fieldSet hholds (by simpa using hy)
  obtain rfl := Except.ok.inj ((toOption_eq_some.mp hset).symm.trans hset')
  have hne := (unlessEmpty_eq_some.mp hv).1
  obtain ⟨owner, places, hplaces, hdirects⟩ := hfile fun hnil => hne (hnil.2.1 _ hmem)
  obtain ⟨index, offset, hindex, hoffset, hfound⟩ :=
    exists_offsetOf hp.field_injective (hmembers.nodup_fieldIds hholds) hdirects.fields hmem hne
  refine ⟨offset, ?_, beginsAt_of_setOffset hb hstop hv hoffset⟩
  exact Option.bind_eq_some_iff.mpr ⟨x, hx, Option.bind_eq_some_iff.mpr ⟨places, hplaces,
    Option.bind_eq_some_iff.mpr ⟨index, toOption_eq_some.mpr hindex, hfound⟩⟩⟩

omit h hp hf hb hstop in
theorem methodIndex?_eq {x : ClassDef} (hx : dex.classes[i.toNat]? = some x) {m : MethodDef}
    {index : UInt32} (hindex : c.resolver.method (x.methodId m) = .ok index) :
    offset?.methodIndex? dex c.pools i m = some index :=
  Option.bind_eq_some_iff.mpr ⟨x, hx, toOption_eq_some.mpr hindex⟩

theorem leads_ofMethod {m : MethodDef} (hv : (ofMethod i m).item? o dex c.pools = some v) :
    (ofMethod i m).Leads f dex c d v := by
  obtain ⟨x, hx, hv⟩ := Option.bind_eq_some_iff.mp hv
  obtain ⟨hx, hm⟩ := Option.filter_eq_some_iff.mp hx
  obtain ⟨set, hset, hv⟩ := Option.bind_eq_some_iff.mp hv
  obtain ⟨e, ofClass, fields, methods, hholds, hmembers, hfile⟩ := exists_directory h hf hb hstop hx
  obtain ⟨y, sets, hmem, hold⟩ := hmembers.exists_entry (by simpa using hm)
  have hid : y.id = x.methodId m := hold.id
  obtain rfl := Except.ok.inj ((toOption_eq_some.mp hset).symm.trans hold.set)
  have hne := (unlessEmpty_eq_some.mp hv).1
  obtain ⟨owner, places, hplaces, hdirects⟩ := hfile fun hnil => hne (hnil.2.2 _ hmem).1
  obtain ⟨index, offset, hindex, hoffset, hfound⟩ := exists_offsetOf hp.method_injective
    (hmembers.nodup_methodIds hholds) hdirects.methods hmem hne
  refine ⟨offset, ?_, beginsAt_of_setOffset hb hstop hv hoffset⟩
  exact Option.bind_eq_some_iff.mpr ⟨places, hplaces, Option.bind_eq_some_iff.mpr
    ⟨index, methodIndex?_eq hx (hid ▸ hindex), hfound⟩⟩

theorem leads_ofParameters {m : MethodDef}
    (hv : (ofParameters i m).item? o dex c.pools = some v) :
    (ofParameters i m).Leads f dex c d v := by
  obtain ⟨x, hx, hv⟩ := Option.bind_eq_some_iff.mp hv
  obtain ⟨hx, hm⟩ := Option.filter_eq_some_iff.mp hx
  obtain ⟨all, hall, hv⟩ := Option.bind_eq_some_iff.mp hv
  obtain ⟨hne, rfl⟩ := unlessEmpty_eq_some.mp hv
  obtain ⟨e, ofClass, fields, methods, hholds, hmembers, hfile⟩ := exists_directory h hf hb hstop hx
  obtain ⟨y, sets, hmem, hold⟩ := hmembers.exists_entry (by simpa using hm)
  have hid : y.id = x.methodId m := hold.id
  have hsame : AnnotationItem.trimEmpty all = sets.2 := by
    obtain ⟨all', hall', hsets⟩ := hold.sets
    obtain rfl := Except.ok.inj ((toOption_eq_some.mp hall).symm.trans hall')
    exact hsets.symm
  rw [hsame] at hne ⊢
  obtain ⟨owner, places, hplaces, hdirects⟩ := hfile fun hnil => hne (hnil.2.2 _ hmem).2
  obtain ⟨index, offset, hindex, hoffset, hfound⟩ := exists_offsetOf hp.method_injective
    (hmembers.nodup_methodIds hholds) hdirects.parameters hmem hne
  refine ⟨offset, ?_, beginsAt_of_offset (u := .annotationSetList sets.2) hb hstop hoffset⟩
  exact Option.bind_eq_some_iff.mpr ⟨places, hplaces, Option.bind_eq_some_iff.mpr
    ⟨index, methodIndex?_eq hx (hid ▸ hindex), hfound⟩⟩

/-! ## Code and debug information -/

omit hb hstop in
/-- The data of a class has the offset of the code of each of its methods. -/
theorem exists_codeOffset {x : ClassDef} (hx : dex.classes[i.toNat]? = some x) {m : MethodDef}
    (hm : m ∈ x.methods) : ∃ y sets index offset, g.HoldsMethod o (x.methodId m, m) (y, sets) ∧
      y ∈ c.classes.flatMap ClassEntry.methods ∧ c.resolver.method y.id = .ok index ∧
      offset?.methodIndex? dex c.pools i m = some index ∧ f.codeOffset? i index = some offset ∧
      d.code.optionalOffset "code item" y.code = .ok offset := by
  obtain ⟨e, item, hdefines⟩ := exists_defines h hf hx
  obtain ⟨ofClass, fields, methods, hmembers, -⟩ := hdefines.holds.members
  obtain ⟨y, sets, hmem, hold⟩ := hmembers.exists_entry hm
  have hid : y.id = x.methodId m := hold.id
  have hy : y ∈ e.methods := by
    rw [hmembers.methods_eq]
    exact List.mem_map.mpr ⟨_, hmem, rfl⟩
  have hdata : e.hasData = true := by
    have hne : e.methods ≠ [] := List.ne_nil_of_mem hy
    rw [ClassEntry.hasData, List.isEmpty_eq_false_iff.mpr hne, Bool.and_false]
    rfl
  have hshows := h.data.classData i.toNat e hdefines.entry
  rw [if_pos hdata] at hshows
  obtain ⟨p, part, hget, hpart, hstands, hpos, hle⟩ := hshows
  have hsmall := h.small
  have hinside := hstands.length_le
  have hitem : item.data = UInt32.ofNat p.offset := by
    rw [hdefines.data, hget]
    rfl
  have hne : item.data ≠ 0 := hitem ▸ ofNat_ne_zero hpos (by omega)
  have hnat : item.data.toNat = p.offset := by
    rw [hitem, UInt32.toNat_ofNat_of_lt' (by omega)]
  obtain ⟨offsets, hread, hoffsets⟩ := exists_classCode hpart (by omega)
  obtain ⟨index, offset, hindex, hoffset, hfound⟩ := exists_lookup MethodEntry.id
    (fun y x => d.code.optionalOffset "code item" y.code = .ok x) hp.method_injective hoffsets
    (.refl _) hdefines.holds.nodup_methods hy
  refine ⟨y, sets, index, offset, hold,
    List.mem_flatMap.mpr ⟨e, List.mem_of_getElem? hdefines.entry, hy⟩, hindex,
    methodIndex?_eq hx (hid ▸ hindex), ?_, hoffset⟩
  refine Option.bind_eq_some_iff.mpr ⟨item, hdefines.item, ?_⟩
  rw [if_neg hne, hnat]
  exact Option.bind_eq_some_iff.mpr
    ⟨offsets, toOption_eq_some.mpr (hread.valueAt hstands), hfound⟩

omit h hp hf hb hstop in
/-- The debug information that is stored for a method has the id in its entry. -/
theorem mapM_id?_of_places {debug : Option DebugInfo} {id : Option Nat}
    (hplace : g.Places (debug.map .debugInfo) id) :
    debug.mapM g.items.debugInfos.id? = some id := by
  cases debug with
  | none =>
    cases id with
    | none => rfl
    | some id => exact hplace.elim
  | some dbg =>
    cases id with
    | none => exact hplace.elim
    | some id =>
      have hid : g.items.debugInfos.id? dbg = some id := hplace
      rw [Option.mapM_some, hid]
      rfl

theorem leads_code {m : MethodDef} (hv : (code i m).item? o dex c.pools = some v) :
    (code i m).Leads f dex c d v := by
  obtain ⟨x, hx, hv⟩ := Option.bind_eq_some_iff.mp hv
  obtain ⟨hx, hm⟩ := Option.filter_eq_some_iff.mp hx
  obtain ⟨implementation, hcode, hv⟩ := Option.bind_eq_some_iff.mp hv
  obtain rfl := Option.some.inj hv
  obtain ⟨y, sets, index, offset, hold, -, -, hindex, hfound, hoffset⟩ :=
    exists_codeOffset h hp hf hx (by simpa using hm)
  refine ⟨offset, Option.bind_eq_some_iff.mpr ⟨index, hindex, hfound⟩, ?_⟩
  rcases hold.code.offset_cases hoffset with ⟨hnone, -⟩ | ⟨part, hpart, ho⟩
  · rw [MethodDef.sharedCode, hcode] at hnone
    cases hnone
  · rw [MethodDef.sharedCode, hcode] at hpart
    obtain rfl := Option.some.inj hpart
    refine beginsAt_of_part (v := .code _ _ _ _) hf hb hstop ?_ ho
    have hdebug : (if o.version.isCompact then none else m.storedDebug o).mapM
        g.items.debugInfos.id? = some (if o.version.isCompact then none else y.debug) := by
      split
      · rfl
      · exact mapM_id?_of_places hold.debug
    rw [SharedItem.id?, hdebug]
    rfl

omit hb hstop in
/-- The debug information of a method has the offset that a standard file keeps in the code, and a
compact file in the table. -/
theorem exists_debugOffset {x : ClassDef} (hx : dex.classes[i.toNat]? = some x) {m : MethodDef}
    (hm : m ∈ x.methods) (hcode : m.code.isSome) (hd : (dex.classes.map ClassDef.type).Nodup) :
    ∃ y sets index offset, g.HoldsMethod o (x.methodId m, m) (y, sets) ∧
      offset?.methodIndex? dex c.pools i m = some index ∧ f.debugOffset? i index = some offset ∧
      d.debugInfos.optionalOffset "debug info" y.debug = .ok offset := by
  obtain ⟨y, sets, index, place, hold, hmem, hindex, hmethod, hfound, hplace⟩ :=
    exists_codeOffset h hp hf hx hm
  have hisSome := h.compact
  unfold DexFile.debugOffset?
  cases hcompact : f.header.compact with
  | none =>
    rw [hcompact] at hisSome
    have hstandard : ¬ o.version.isCompact := by rw [← hisSome]; decide
    rcases hold.code.offset_cases hplace with ⟨hnone, -⟩ | ⟨part, hpart, ho⟩
    · rw [Option.map_eq_none_iff, MethodDef.sharedCode, Option.map_eq_none_iff] at hnone
      rw [show m.code = none from hnone] at hcode
      cases hcode
    · obtain ⟨s, hs, rfl⟩ := Option.map_eq_some_iff.mp hpart
      obtain ⟨implementation, -, rfl⟩ := Option.map_eq_some_iff.mp hs
      have ho : d.code.offset "code item" (g.items.code.id? _) = .ok place := ho
      rw [← hf.items] at ho
      obtain ⟨offset, position, p, hoffset, hencode, hstands, -, -, -, hnat⟩ :=
        exists_encode_of_offset h ho
      obtain ⟨header, hheader, hdebug⟩ :=
        CodeItem.exists_header_of_encode (by simpa using hstandard) hencode hstands
      refine ⟨y, sets, index, offset, hold, hmethod, ?_, ?_⟩
      · refine Option.bind_eq_some_iff.mpr ⟨place, hfound, ?_⟩
        rw [hnat, hheader]
        exact congrArg some hdebug
      · simpa only [if_neg hstandard] using hoffset hstandard
  | some fields =>
    obtain ⟨offsets, hoffsets, hzero, hbase, hpos, hstands⟩ := h.debugTable fields hcompact
    obtain ⟨hlength, hspec⟩ := Contents.debugOffsets_spec hp hoffsets (hf.nodup_methods hd)
    obtain ⟨offset, hget, hoffset⟩ := hspec y hmem index hindex
    refine ⟨y, sets, index, offset, hold, hmethod, toOption_eq_some.mpr ?_, hoffset⟩
    have hsize : f.methods.size = offsets.length := by
      rw [h.methods.size, ItemSet.length_toList, hlength]
    rw [hzero, hbase, hsize]
    exact DebugTable.lookup_eq hpos hstands (hstands.length_lt h.small) hget

theorem leads_debugInfo (hd : (dex.classes.map ClassDef.type).Nodup) {m : MethodDef}
    (hv : (debugInfo i m).item? o dex c.pools = some v) : (debugInfo i m).Leads f dex c d v := by
  obtain ⟨x, hx, hv⟩ := Option.bind_eq_some_iff.mp hv
  obtain ⟨hx, hm⟩ := Option.filter_eq_some_iff.mp hx
  obtain ⟨dbg, hdbg, hv⟩ := Option.bind_eq_some_iff.mp hv
  obtain rfl := Option.some.inj hv
  have hcode : m.code.isSome := by
    obtain ⟨implementation, hcode, -⟩ := Option.bind_eq_some_iff.mp hdbg
    rw [hcode]
    rfl
  obtain ⟨y, sets, index, offset, hold, hindex, hfound, hoffset⟩ :=
    exists_debugOffset h hp hf hx (by simpa using hm) hcode hd
  refine ⟨offset, Option.bind_eq_some_iff.mpr ⟨index, hindex, hfound⟩, ?_⟩
  rcases hold.debug.offset_cases hoffset with ⟨hnone, -⟩ | ⟨part, hpart, ho⟩
  · rw [show m.storedDebug o = some dbg from hdbg] at hnone
    cases hnone
  · rw [show m.storedDebug o = some dbg from hdbg] at hpart
    obtain rfl := Option.some.inj hpart
    exact beginsAt_of_part (v := .debugInfo dbg) hf hb hstop rfl ho

/-! ## All uses -/

/-- Every use of a value leads to its item. -/
theorem leads (hd : (dex.classes.map ClassDef.type).Nodup) (u : Use) :
    ∀ v, u.item? o dex c.pools = some v → u.Leads f dex c d v := by
  induction u with
  | parameters i => exact fun v => leads_parameters h hb hstop
  | callSite i => exact fun v => leads_callSite h hb hstop
  | interfaces i => exact fun v => leads_interfaces h hf hb hstop
  | staticValues i => exact fun v => leads_staticValues h hf hb hstop
  | directory i => exact fun v => leads_directory h hf hb hstop
  | ofClass i => exact fun v => leads_ofClass h hf hb hstop
  | ofField i y => exact fun v => leads_ofField h hp hf hb hstop
  | ofMethod i m => exact fun v => leads_ofMethod h hp hf hb hstop
  | ofParameters i m => exact fun v => leads_ofParameters h hp hf hb hstop
  | setIn list k ih => exact fun v => leads_setIn h hb hstop ih
  | annotationIn set k ih => exact fun v => leads_annotationIn h hb hstop ih
  | code i m => exact fun v => leads_code h hp hf hb hstop
  | debugInfo i m => exact fun v => leads_debugInfo h hp hf hb hstop hd

end

end Use

end Dalvik
