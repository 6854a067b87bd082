import Dalvik.Proofs.File.Leads

/-!
# Equal values share an item

Every use of a shared value has the offset of the item of that value, whatever way leads to the use.
So two uses have the same offset if and only if their values are equal.
-/
namespace Dalvik
open Result

namespace Use
open SharedItem DexFile

/-! ## Directories of two classes -/

section
variable {f : DexFile} {o : WriteOptions} {c : Contents} {d : Contents.Data} {g : Gathered}
  {dex : Dex} {start : Nat} {i j offset : UInt32} (h : f.Holds o c d) (hf : g.Fills o dex c)
include h hf

/-- The offset of a directory belongs to the definition of a class. -/
theorem exists_class_of_directory (ho : (directory i).offset? f dex c.pools = some offset) :
    ∃ x e item, dex.classes[i.toNat]? = some x ∧ f.Defines o c d g i x e item ∧
      item.annotations = offset := by
  obtain ⟨item, hitem, ho⟩ := Option.bind_eq_some_iff.mp ho
  have hlt : i.toNat < dex.classes.length := by
    by_contra hge
    have hlength : c.classes.zipIdx.length ≤ i.toNat := by
      rw [List.length_zipIdx, ← hf.classes.length_eq]
      exact Nat.not_lt.mp hge
    have hread := toOption_eq_some.mp hitem
    rw [item_eq_error h.classes hlength] at hread
    cases hread
  obtain ⟨e, item', hdefines⟩ := exists_defines h hf (List.getElem?_eq_getElem hlt)
  obtain rfl := Option.some.inj (hitem.symm.trans hdefines.item)
  exact ⟨_, e, item, List.getElem?_eq_getElem hlt, hdefines, Option.some.inj ho⟩

/-- A directory that two classes share names no members. -/
theorem directs_nothing (hb : c.Built o start d)
    (hstop : start + (d.bytes o.version.isCompact).length < UInt32.size)
    (hd : (dex.classes.map ClassDef.type).Nodup) (hij : i ≠ j) (hne : offset ≠ 0)
    (hi : (directory i).offset? f dex c.pools = some offset)
    (hj : (directory j).offset? f dex c.pools = some offset) :
    ∃ p, OffsetDirectory.decode.valueAt f.data offset.toNat = .ok p ∧ p.fields = [] ∧
      p.methods = [] ∧ p.parameters = [] := by
  obtain ⟨x, e, item, hx, hdefines, rfl⟩ := exists_class_of_directory h hf hi
  obtain ⟨x', e', item', hx', hdefines', hsame⟩ := exists_class_of_directory h hf hj
  obtain ⟨a, ha, hbegins⟩ :=
    (directory_cases hf hb hstop hdefines).resolve_left fun hzero => hne hzero.2
  obtain ⟨a', ha', hbegins'⟩ :=
    (directory_cases hf hb hstop hdefines').resolve_left fun hzero => hne (hsame ▸ hzero.2)
  rw [hsame] at hbegins'
  obtain rfl : a = a' := SharedItem.directory.inj ((hbegins.eq_iff hb hbegins').mp rfl)
  obtain ⟨p, hp, hdirects⟩ := exists_directs h hbegins
  -- a directory with members belongs to one class
  have hmembers : a.ofFields = [] ∧ a.ofMethods = [] ∧ a.ofParameters = [] := by
    by_contra hsome
    have howner := ClassDef.owner_of_directory? ha hsome
    have howner' := ClassDef.owner_of_directory? ha' hsome
    have htype : x.type = x'.type := Option.some.inj (howner.symm.trans howner')
    refine hij (UInt32.toNat_inj.mp ?_)
    obtain ⟨hlt, rfl⟩ := List.getElem?_eq_some_iff.mp hx
    obtain ⟨hlt', rfl⟩ := List.getElem?_eq_some_iff.mp hx'
    have hiff := @List.Nodup.getElem_inj_iff _ _ hd i.toNat (by simpa using hlt) j.toNat
      (by simpa using hlt')
    exact hiff.mp (by simpa using htype)
  obtain ⟨hfields, hmethods, hparameters⟩ := hmembers
  have nothing {α β : Type} {index : α → Result UInt32} {place : β → Result UInt32}
      {members : List MemberOffset}
      (hm : Contents.memberOffsets index place [] = .ok members) : members = [] := by
    have hempty : sortedBy (compareOn MemberOffset.member) [] = members := pure_eq_ok.mp hm
    rw [← hempty]
    cbv
  exact ⟨p, hp, nothing (hfields ▸ hdirects.fields), nothing (hmethods ▸ hdirects.methods),
    nothing (hparameters ▸ hdirects.parameters)⟩

end

end Use

/-! ## Files share what is equal -/

/-- Shared values are stored once each, and every use of one has the offset of its item. -/
structure DexFile.Shares (f : DexFile) (o : WriteOptions) (dex : Dex) (c : Contents) : Prop where
  /-- The map counts the different values of each kind. -/
  counts : ∀ kind ∈ SharedItem.kinds, ∃ values : List SharedItem, values.Nodup ∧
    (∀ v, v ∈ values ↔ v.kind = kind ∧ v.IsIn c.items) ∧
    (mapped f.map kind).size.toNat = values.length
  stored : ∀ (u : Use) v, u.item? o dex c.pools = some v → v.IsIn c.items ∧
    ∃ offset, u.offset? f dex c.pools = some offset ∧ offset ≠ 0
  offset_eq_iff : ∀ (u u' : Use) v v' offset offset', u.item? o dex c.pools = some v →
    u'.item? o dex c.pools = some v' → u.offset? f dex c.pools = some offset →
    u'.offset? f dex c.pools = some offset' → (offset = offset' ↔ v = v')
  /-- Methods that share code have the same implementation, with the registers for calls that it
  needs, the same registers for arguments and, in a standard file, the same debug information. -/
  code : ∀ i m i' m' v v' offset, (Use.code i m).item? o dex c.pools = some v →
    (Use.code i' m').item? o dex c.pools = some v' →
    (Use.code i m).offset? f dex c.pools = some offset →
    (Use.code i' m').offset? f dex c.pools = some offset →
    m.code = m'.code ∧ m.incoming.toUInt16 = m'.incoming.toUInt16 ∧
      m.code.map Code.outgoing = m'.code.map Code.outgoing ∧
      (o.version.isCompact = false → m.storedDebug o = m'.storedDebug o)
  /-- A directory that names members belongs to one class. -/
  directories : ∀ i j offset, i ≠ j → offset ≠ 0 →
    (Use.directory i).offset? f dex c.pools = some offset →
    (Use.directory j).offset? f dex c.pools = some offset →
    ∃ p, OffsetDirectory.decode.valueAt f.data offset.toNat = .ok p ∧ p.fields = [] ∧
      p.methods = [] ∧ p.parameters = []

theorem DexFile.Laid.shares {f : DexFile} {o : WriteOptions} {c : Contents} {d : Contents.Data}
    {rest : Bytes} {dex : Dex} (h : f.Laid o c d rest) (hc : Contents.ofDex o dex = .ok c) :
    f.Shares o dex c := by
  obtain ⟨start, -, hb, hstop⟩ := h.parts.built
  obtain ⟨g, hf⟩ := Contents.fills_of_ofDex hc
  have hd := Contents.nodup_types_of_ofDex hc
  have leads := Use.leads h.holds (Contents.short_of_ofDex hc) hf hb hstop hd
  have offset_eq_iff : ∀ (u u' : Use) v v' offset offset', u.item? o dex c.pools = some v →
      u'.item? o dex c.pools = some v' → u.offset? f dex c.pools = some offset →
      u'.offset? f dex c.pools = some offset' → (offset = offset' ↔ v = v') := by
    intro u u' v v' offset offset' hv hv' ho ho'
    obtain ⟨x, hx, hbegins⟩ := leads u v hv
    obtain ⟨x', hx', hbegins'⟩ := leads u' v' hv'
    obtain rfl := Option.some.inj (ho.symm.trans hx)
    obtain rfl := Option.some.inj (ho'.symm.trans hx')
    rw [← UInt32.toNat_inj]
    exact hbegins.eq_iff hb hbegins'
  exact {
    counts := fun kind hkind => by
      obtain ⟨values, hnodup, hvalues, hlength⟩ :=
        SharedItem.exists_values_of_kind o hf.closed hkind
      exact ⟨values, hnodup, hvalues, by rw [h.mapFits.counts, hlength]⟩
    stored := fun u v hv => by
      obtain ⟨offset, ho, i, p, hi, -, -, hne⟩ := leads u v hv
      exact ⟨⟨i, hi⟩, offset, ho, fun hzero => hne (by rw [hzero]; rfl)⟩
    offset_eq_iff
    code := fun i m i' m' v v' offset hv hv' ho ho' => by
      have hsame := (offset_eq_iff _ _ v v' offset offset hv hv' ho ho').mp rfl
      obtain ⟨_, -, hv⟩ := Option.bind_eq_some_iff.mp hv
      obtain ⟨x, hx, hv⟩ := Option.bind_eq_some_iff.mp hv
      obtain ⟨_, -, hv'⟩ := Option.bind_eq_some_iff.mp hv'
      obtain ⟨x', hx', hv'⟩ := Option.bind_eq_some_iff.mp hv'
      rw [← Option.some.inj hv, ← Option.some.inj hv'] at hsame
      obtain ⟨rfl, hincoming, houtgoing, hdebug⟩ := SharedItem.code.inj hsame
      rw [hx, hx']
      refine ⟨rfl, hincoming, rfl, fun hstandard => ?_⟩
      simpa only [hstandard, Bool.false_eq_true, if_false] using hdebug
    directories := fun i j offset hij hne hi hj =>
      Use.directs_nothing h.holds hf hb hstop hd hij hne hi hj }

namespace Dex

variable {o : WriteOptions} {d : Dex} {start stop : Nat} {bytes : Bytes}

/-- In every file that is written, alone or in a container, equal values share one item, and different
values have items of their own. -/
theorem exists_shares_of_written (h : Written o d start stop bytes) :
    ∃ (c : Contents) (data : Contents.Data) (f : DexFile), Contents.ofDex o d = .ok c ∧
      DexFile.ofBytes o.options bytes.toByteArray start = .ok f ∧ f.Holds o c data ∧
      f.Shares o d c := by
  obtain ⟨length, rfl, c, data, rest, f, hofDex, hf, hlaid, rfl⟩ := h.laidIn
  exact ⟨c, data, f, hofDex, hf, hlaid.holds, hlaid.shares hofDex⟩

end Dex

/-! ## Two classes with the same interfaces -/

def heirClass (type : TypeId) : ClassDef := { type, interfaces := [⟨"LI;"⟩] }

def heirDex : Dex := ⟨[heirClass ⟨"LA;"⟩, heirClass ⟨"LB;"⟩]⟩

namespace Contents
open Gather

def heirEntry (type : TypeId) : ClassEntry :=
  ⟨heirClass type, some 0, none, none, [], [], [], []⟩

/-- What is found once a class with these interfaces has been looked into. -/
def heirFound (g : Gathered) (type : TypeId) : Gathered :=
  ((g.addType type).addType ⟨"LI;"⟩).addTypeList [⟨"LI;"⟩]

def heirsFound : Gathered := heirFound (heirFound {} ⟨"LA;"⟩) ⟨"LB;"⟩

def heirs : Contents where
  pools := {
    strings := .ofList ["LA;", "LB;", "LI;"]
    types := .ofList [⟨"LA;"⟩, ⟨"LB;"⟩, ⟨"LI;"⟩] }
  items := heirsFound.items
  classes := [heirEntry ⟨"LA;"⟩, heirEntry ⟨"LB;"⟩]

theorem classEntry_heir {type : TypeId} {g : Gathered}
    (hid : (g.items.typeLists.insert [⟨"LI;"⟩]).1 = 0) :
    classEntry {} (heirClass type) g = .ok (heirEntry type, heirFound g type) := by
  have hentry : classEntry {} (heirClass type) g =
      .ok (⟨heirClass type, some (g.items.typeLists.insert [⟨"LI;"⟩]).1, none, none, [], [], [], []⟩,
        heirFound g type) := by
    cbv
  rw [hentry, hid]
  rfl

theorem toPools_heirsFound : heirsFound.toPools = .ok heirs.pools := by
  have hstrings : heirsFound.strings.toList = ["LA;", "LI;", "LB;"] := by
    simp only [heirsFound, heirFound, Gathered.addType, Gathered.addTypeList, Gathered.addString,
      ItemSet.toList_insert]
    rfl
  have htypes : heirsFound.types.toList = [⟨"LA;"⟩, ⟨"LI;"⟩, ⟨"LB;"⟩] := by
    simp only [heirsFound, heirFound, Gathered.addType, Gathered.addTypeList, Gathered.addString,
      ItemSet.toList_insert]
    rfl
  have hstring : sortedBy Text.compareUtf16 ["LA;", "LI;", "LB;"] = ["LA;", "LB;", "LI;"] := by cbv
  have htype : sortedBy compare [TypeId.mk "LA;", ⟨"LI;"⟩, ⟨"LB;"⟩] =
      [⟨"LA;"⟩, ⟨"LB;"⟩, ⟨"LI;"⟩] := by cbv
  have hnil {α : Type} (cmp : α → α → Ordering) : sortedBy cmp [] = [] := by cbv
  have hprotos : heirsFound.protos.toList = [] := rfl
  have hfields : heirsFound.fields.toList = [] := rfl
  have hmethods : heirsFound.methods.toList = [] := rfl
  have hhandles : heirsFound.methodHandles.toList = [] := rfl
  have hsites : heirsFound.callSites.toList = [] := rfl
  rw [Gathered.toPools, hstrings, htypes, hprotos, hfields, hmethods, hhandles, hsites]
  simp only [Pools.build, Pools.pool, hstring, htype, hnil]
  rfl

theorem toList_heirLists : heirs.items.typeLists.toList = [[⟨"LI;"⟩]] := by
  change ((ItemSet.insert ∅ [TypeId.mk "LI;"]).2.insert [⟨"LI;"⟩]).2.toList = _
  rw [ItemSet.toList_insert, ItemSet.toList_insert]
  rfl

theorem ofDex_heirs : ofDex {} heirDex = .ok heirs := by
  have hzero {set : ItemSet (List TypeId)} {types : List TypeId}
      (h : (set.insert types).2.toList = [types]) : (set.insert types).1 = 0 := by
    have hlt := ItemSet.lt_length_of_id? (ItemSet.id?_insert_self set types)
    rw [h] at hlt
    exact Nat.lt_one_iff.mp hlt
  have hfirst : classEntry {} (heirClass ⟨"LA;"⟩) {} =
      .ok (heirEntry ⟨"LA;"⟩, heirFound {} ⟨"LA;"⟩) :=
    classEntry_heir (hzero (ItemSet.toList_insert ∅ _))
  have hsecond : classEntry {} (heirClass ⟨"LB;"⟩) (heirFound {} ⟨"LA;"⟩) =
      .ok (heirEntry ⟨"LB;"⟩, heirsFound) :=
    classEntry_heir (hzero toList_heirLists)
  have hnew : (ItemSet.insert ∅ (TypeId.mk "LA;")).2.contains ⟨"LB;"⟩ = false := by
    rw [ItemSet.contains, ← Bool.not_eq_true, ItemSet.isSome_id?_iff, ItemSet.toList_insert]
    decide
  have hentries : classEntries {} ∅ [heirClass ⟨"LA;"⟩, heirClass ⟨"LB;"⟩] {} =
      .ok (heirs.classes, heirsFound) := by
    rw [classEntries, ItemSet.contains, ItemSet.id?_empty, if_neg (by simp)]
    refine bind_eq_ok.mpr ⟨_, within_eq_ok_iff.mpr hfirst, bind_eq_ok.mpr
      ⟨([heirEntry ⟨"LB;"⟩], heirsFound), ?_, rfl⟩⟩
    rw [classEntries, show (heirClass ⟨"LA;"⟩).type = ⟨"LA;"⟩ from rfl,
      show (heirClass ⟨"LB;"⟩).type = ⟨"LB;"⟩ from rfl, hnew, if_neg (by simp)]
    exact bind_eq_ok.mpr ⟨_, within_eq_ok_iff.mpr hsecond, rfl⟩
  exact bind_eq_ok.mpr ⟨_, hentries, bind_eq_ok.mpr ⟨heirsFound, rfl,
    bind_eq_ok.mpr ⟨_, toPools_heirsFound, rfl⟩⟩⟩

/-- The data of the classes: one list of interfaces, and the names of the types. -/
def heirsData : Data :=
  ⟨.empty .debugInfo 200, .empty .codeItems 200, .empty .encodedArrays 200,
    .empty .annotationItems 200, .empty .annotationSets 200, .empty .annotationSetLists 200,
    .empty .annotationDirectories 200, ⟨.typeLists, 200, [⟨[1, 0, 0, 0, 2, 0], 200⟩]⟩,
    ⟨.classData, 206, [.nothing, .nothing]⟩,
    ⟨.stringData, 206, [⟨[3, 76, 65, 59, 0], 206⟩, ⟨[3, 76, 66, 59, 0], 211⟩,
      ⟨[3, 76, 73, 59, 0], 216⟩]⟩, .empty .hiddenApi 221⟩

theorem toList_heirStrings : heirs.pools.strings.toList = ["LA;", "LB;", "LI;"] :=
  ItemSet.toList_ofList_of_nodup (by decide)

theorem toList_heirTypes : heirs.pools.types.toList = [⟨"LA;"⟩, ⟨"LB;"⟩, ⟨"LI;"⟩] :=
  ItemSet.toList_ofList_of_nodup (by decide)

theorem type_heirs {t : TypeId} {k : Nat}
    (h : [TypeId.mk "LA;", ⟨"LB;"⟩, ⟨"LI;"⟩][k]? = some t) :
    heirs.resolver.type t = .ok (UInt32.ofNat k) :=
  Pools.lookup_ofList (by decide) h

theorem data_heirs : heirs.data {} 200 = .ok heirsData := by
  have hlists : heirs.typeListSection 200 = .ok heirsData.typeLists := by
    have hlist : encodeTypeList heirs.resolver [⟨"LI;"⟩] = .ok [1, 0, 0, 0, 2, 0] :=
      bind_eq_ok.mpr ⟨_, mapM_eq_ok.mpr (.cons (type_heirs (k := 2) rfl) .nil), rfl⟩
    have hplaced : (do
        return Placed.aligned wordAlignment 200 (← encodeTypeList heirs.resolver [⟨"LI;"⟩]) :
          Result Placed) = .ok ⟨[1, 0, 0, 0, 2, 0], 200⟩ := by
      rw [hlist]
      rfl
    rw [typeListSection, toList_heirLists]
    exact bind_eq_ok.mpr ⟨_, bind_eq_ok.mpr ⟨_, hplaced, rfl⟩, rfl⟩
  have hstrings : heirs.stringSection 206 = .ok heirsData.strings := by
    rw [stringSection, toList_heirStrings]
    cbv
  exact data_of_built {
    codeSections := rfl
    encodedArrays := rfl
    annotations := rfl
    annotationSets := rfl
    annotationSetLists := rfl
    directories := rfl
    typeLists := hlists
    classData := rfl
    strings := hstrings
    hiddenApi := rfl }

theorem exists_ids_heirs : ∃ ids, heirs.encodeIds heirsData = .ok ids := by
  have hstring {s : String} {k : Nat} (hs : ["LA;", "LB;", "LI;"][k]? = some s) :
      heirs.resolver.string s = .ok (UInt32.ofNat k) :=
    Pools.lookup_ofList (by decide) hs
  refine Encodable.exists_ids {
    types := ?_
    protos := List.forall_mem_nil _
    fields := List.forall_mem_nil _
    methods := List.forall_mem_nil _
    classes := List.forall_mem_cons.mpr ⟨⟨_, bind_eq_ok.mpr ⟨_, type_heirs (k := 0) rfl, rfl⟩⟩,
      List.forall_mem_singleton.mpr ⟨_, bind_eq_ok.mpr ⟨_, type_heirs (k := 1) rfl, rfl⟩⟩⟩
    callSites := List.forall_mem_nil _
    methodHandles := List.forall_mem_nil _ }
  rw [toList_heirTypes]
  exact List.forall_mem_cons.mpr ⟨⟨_, bind_eq_ok.mpr ⟨_, hstring (k := 0) rfl, rfl⟩⟩,
    List.forall_mem_cons.mpr ⟨⟨_, bind_eq_ok.mpr ⟨_, hstring (k := 1) rfl, rfl⟩⟩,
      List.forall_mem_singleton.mpr ⟨_, bind_eq_ok.mpr ⟨_, hstring (k := 2) rfl, rfl⟩⟩⟩⟩

theorem exists_encodeStandard_heirs : ∃ file, heirs.encodeStandard {} 0 = .ok file := by
  have hstart : alignUp (heirs.layout (0 + Header.sizeOf (WriteOptions.version {}))).stop
      mapAlignment = 200 := by
    rw [layout, ← ItemSet.length_toList, toList_heirStrings, ← ItemSet.length_toList,
      toList_heirTypes]
    rfl
  have hlength : (heirsData.bytes false).length = 21 := by cbv
  obtain ⟨ids, hids⟩ := exists_ids_heirs
  exact exists_encodeStandard hstart data_heirs hids (by rw [hlength]; decide)

end Contents

namespace Dex

theorem exists_encode_heirs : ∃ bytes, encode {} heirDex = .ok bytes := by
  obtain ⟨file, hfile⟩ := Contents.exists_encodeStandard_heirs
  exact ⟨_, map_eq_ok.mpr ⟨file, bind_eq_ok.mpr ⟨(), rfl, bind_eq_ok.mpr
    ⟨_, Contents.ofDex_heirs, hfile⟩⟩, rfl⟩⟩

/-- The classes have one list of interfaces between them. -/
theorem exists_shares_of_written_heirs : ∃ (bytes : Bytes) (c : Contents) (f : DexFile)
    (offset : UInt32), encode {} heirDex = .ok bytes ∧
      DexFile.ofBytes {} bytes.toByteArray 0 = .ok f ∧
      (DexFile.mapped f.map .typeLists).size = 1 ∧ offset ≠ 0 ∧
      (Use.interfaces 0).offset? f heirDex c.pools = some offset ∧
      (Use.interfaces 1).offset? f heirDex c.pools = some offset := by
  obtain ⟨bytes, hbytes⟩ := exists_encode_heirs
  obtain ⟨c, data, f, hc, hf, -, hshares⟩ := exists_shares_of_written (.alone hbytes)
  obtain rfl := Except.ok.inj (hc.symm.trans Contents.ofDex_heirs)
  have hfirst : (Use.interfaces 0).item? {} heirDex Contents.heirs.pools =
      some (.typeList [⟨"LI;"⟩]) := rfl
  have hsecond : (Use.interfaces 1).item? {} heirDex Contents.heirs.pools =
      some (.typeList [⟨"LI;"⟩]) := rfl
  obtain ⟨hin, offset, hoffset, hne⟩ := hshares.stored _ _ hfirst
  obtain ⟨-, offset', hoffset', -⟩ := hshares.stored _ _ hsecond
  obtain rfl := (hshares.offset_eq_iff _ _ _ _ _ _ hfirst hsecond hoffset hoffset').mpr rfl
  refine ⟨bytes, _, f, offset, hbytes, hf, ?_, hne, hoffset, hoffset'⟩
  obtain ⟨values, hnodup, hvalues, hsize⟩ := hshares.counts .typeLists (by decide)
  have hone : values = [.typeList [⟨"LI;"⟩]] := by
    refine List.perm_singleton.mp ((List.perm_ext_iff_of_nodup hnodup (List.nodup_singleton _)).mpr
      fun v => ?_)
    rw [hvalues, List.mem_singleton]
    constructor
    · rintro ⟨hkind, hin⟩
      cases v <;> cases hkind
      have hmem := ItemSet.mem_toList_iff.mpr hin
      rw [Contents.toList_heirLists, List.mem_singleton] at hmem
      rw [hmem]
    · rintro rfl
      exact ⟨rfl, hin⟩
  rw [← UInt32.toNat_inj, hsize, hone]
  rfl

end Dex

end Dalvik
