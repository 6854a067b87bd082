import Dalvik.Proofs.File.Classes

/-!
# Reading undoes writing

What is read from a written file is the classes in their normal form: members in the order of their
ids, static fields with the initial values they start with, call sites with the names that reading
gives them, and nothing of what the options leave out.
-/
namespace Dalvik
open Result

/-- A field as it is read back, but for its initial value. -/
def FieldDef.normal (o : WriteOptions) (f : FieldDef) : FieldDef :=
  { f with
    restriction := o.restriction f.restriction
    annotations := AnnotationItem.normalSet f.annotations }

/-- A method as it is read back. -/
def MethodDef.normal (o : WriteOptions) (site : CallSite → CallSite) (m : MethodDef) : MethodDef :=
  { m with
    parameters := m.parameters.map (Parameter.normal (m.code.isSome && o.options.debugInfo))
    restriction := o.restriction m.restriction
    code := m.code.map (Code.normal o site)
    annotations := AnnotationItem.normalSet m.annotations }

/-- A class as it is read back. -/
def ClassDef.normal (o : WriteOptions) (site : CallSite → CallSite) (x : ClassDef) : ClassDef :=
  { x with
    staticFields := (sortedBy (byKey compare x.fieldId) x.staticFields).map fun f =>
      { f.normal o with value := f.initial }
    instanceFields := (sortedBy (byKey compare x.fieldId) x.instanceFields).map (FieldDef.normal o)
    directMethods :=
      (sortedBy (byKey compare x.methodId) x.directMethods).map (MethodDef.normal o site)
    virtualMethods :=
      (sortedBy (byKey compare x.methodId) x.virtualMethods).map (MethodDef.normal o site)
    annotations := AnnotationItem.normalSet x.annotations }

/-- Classes as they are read back. -/
def Dex.normal (o : WriteOptions) (site : CallSite → CallSite) (d : Dex) : Dex :=
  ⟨d.classes.map (ClassDef.normal o site)⟩

theorem Gather.fieldEntries_eq (x : ClassDef) (fields : List FieldDef) :
    fieldEntries x fields =
      (sortedBy (byKey compare x.fieldId) fields).map fun z => ⟨z, x.fieldId z⟩ := by
  rw [fieldEntries, sortedMembers_eq, List.map_map]
  rfl

/-- True if the flags of all members leave room for the restrictions. -/
def ClassDef.Real (x : ClassDef) : Prop :=
  (∀ f ∈ x.fields, HiddenApi.Real f.access) ∧ ∀ m ∈ x.methods, HiddenApi.Real m.access

/-- True if static fields that start with default values, and have no other ones behind them, start
with those of their types: these values are not stored. -/
def ClassDef.Typed (x : ClassDef) : Prop :=
  ∀ rest, rest <:+ sortedBy (byKey compare x.fieldId) x.staticFields →
    (∀ f ∈ rest, ∀ v ∈ f.value, v.isDefault) → ∀ f ∈ rest, f.Typed

theorem ClassDef.Typed.of_tail {x : ClassDef} (ht : x.Typed) {kept tail : List Value}
    (hall : List.Forall₂ (fun y v => y.initial = .ok v) (Gather.fieldEntries x x.staticFields)
      (kept ++ tail)) (hdefault : ∀ v ∈ tail, v.isDefault) :
    ∀ y ∈ (Gather.fieldEntries x x.staticFields).drop kept.length, y.definition.Typed := by
  have htail := List.forall₂_drop_append _ _ _ hall
  rw [Gather.fieldEntries_eq, ← List.map_drop] at htail ⊢
  intro y hy
  obtain ⟨z, hz, rfl⟩ := List.mem_map.mp hy
  refine ht _ (List.drop_suffix _ _) (fun f hf => ?_) z hz
  obtain ⟨v, hv, hinitial⟩ := exists_left_of_mem htail.flip (List.mem_map_of_mem hf)
  exact FieldEntry.isDefault_of_initial hinitial (hdefault v hv)

theorem FieldDef.readAs_eq {o : WriteOptions} {f : FieldDef} {value : Option Value}
    (hreal : Contents.packsRestrictions o → HiddenApi.Real f.access) :
    f.readAs o value = { f.normal o with value } := by
  rw [readAs, WriteOptions.flags_of_real hreal]
  rfl

theorem MethodDef.readAs_eq {o : WriteOptions} {site : CallSite → CallSite} {m : MethodDef}
    (hreal : Contents.packsRestrictions o → HiddenApi.Real m.access) :
    m.readAs o site = m.normal o site := by
  rw [readAs, WriteOptions.flags_of_real hreal]
  rfl

theorem Gathered.HoldsClass.readAs_eq {o : WriteOptions} {site : CallSite → CallSite}
    {g : Gathered} {x : ClassDef} {e : ClassEntry} (hx : g.HoldsClass o x e)
    (hreal : Contents.packsRestrictions o → x.Real) :
    e.readAs o site FieldDef.initial = x.normal o site := by
  obtain ⟨_, _, _, hmembers, -⟩ := hx.members
  obtain ⟨hdirect, hvirtual⟩ := hmembers.forall₂_methods
  have hmethods {ms : List MethodDef} {ys : List MethodEntry}
      (heach : List.Forall₂ (fun m y => y.definition = m ∧ y.id = x.methodId m)
        (sortedBy (byKey compare x.methodId) ms) ys) (hin : ∀ m ∈ ms, m ∈ x.methods) :
      ys.map (·.definition.readAs o site) =
        (sortedBy (byKey compare x.methodId) ms).map (MethodDef.normal o site) := by
    rw [← map_eq_of_forall₂ heach fun m _ y hy => congrArg (MethodDef.readAs o site) hy.1.symm]
    refine List.map_congr_left fun m hm => MethodDef.readAs_eq fun hpacks => ?_
    exact (hreal hpacks).2 m (hin m ((sortedBy_perm _ _).mem_iff.mp hm))
  have hfields {fields : List FieldDef} {ys : List FieldEntry} (value : FieldDef → Option Value)
      (hys : ys = Gather.fieldEntries x fields) (hin : ∀ f ∈ fields, f ∈ x.fields) :
      ys.map (fun y => y.definition.readAs o (value y.definition)) =
        (sortedBy (byKey compare x.fieldId) fields).map fun f =>
          { f.normal o with value := value f } := by
    rw [hys, Gather.fieldEntries_eq, List.map_map]
    refine List.map_congr_left fun f hf => FieldDef.readAs_eq fun hpacks => ?_
    exact (hreal hpacks).1 f (hin f ((sortedBy_perm _ _).mem_iff.mp hf))
  have hnone : (sortedBy (byKey compare x.fieldId) x.instanceFields).map
      (fun f => { f.normal o with value := none }) =
        (sortedBy (byKey compare x.fieldId) x.instanceFields).map (FieldDef.normal o) := by
    refine List.map_congr_left fun f hf => ?_
    have hvalue : f.value = none := by
      refine hx.instanceValues ⟨f, x.fieldId f⟩ ?_
      rw [hx.instanceFields, Gather.fieldEntries_eq]
      exact List.mem_map_of_mem hf
    rw [← hvalue]
    rfl
  rw [ClassEntry.readAs, hmethods hdirect fun m hm => List.mem_append_left _ hm,
    hmethods hvirtual fun m hm => List.mem_append_right _ hm,
    hfields FieldDef.initial hx.staticFields fun f hf => List.mem_append_left _ hf,
    hfields (fun _ => none) hx.instanceFields fun f hf => List.mem_append_right _ hf,
    hnone, hx.definition]
  rfl

namespace Dex

variable {o : WriteOptions} {d : Dex} {c : Contents} {bytes : Bytes}

theorem validate_of_encode (h : d.encode o = .ok bytes) : o.validate = .ok () := by
  unfold encode at h
  split at h
  · obtain ⟨-, h⟩ := unsupported_ite_eq_ok.mp h
    obtain ⟨-, h⟩ := violation_ite_eq_ok.mp h
    obtain ⟨parts, hparts, -⟩ := bind_eq_ok.mp h
    obtain ⟨file, hfile, -⟩ := bind_eq_ok.mp hparts
    obtain ⟨_, hv, -⟩ := bind_eq_ok.mp (within_eq_ok_iff.mp hfile)
    exact hv
  · obtain ⟨file, hfile, -⟩ := map_eq_ok.mp h
    obtain ⟨_, hv, -⟩ := bind_eq_ok.mp hfile
    exact hv

/-- A file that is written on its own is opened, and its classes are read, for any initial values
that the stored ones and the defaults behind them give. -/
theorem exists_readAs_of_encode (h : d.encode o = .ok bytes) (hc : Contents.ofDex o d = .ok c)
    (hm : ∀ m ∈ c.pools.methodHandles.toList, m.IsConsistent)
    (hformed : ∀ x ∈ d.classes, x.WellFormed) {value : FieldDef → Option Value}
    (hvalue : ∀ e ∈ c.classes, ∀ values, e.staticFields.mapM FieldEntry.initial = .ok values →
      DexFile.Initial value (some ((Value.trimDefaults values).map Value.sorted)) e.staticFields) :
    ∃ f, DexFile.ofBytes o.options bytes.toByteArray 0 = .ok f ∧
      f.dex = .ok ⟨c.classes.map (ClassEntry.readAs o c.readSite value)⟩ := by
  obtain ⟨c', data, f, hc', hopen, hf⟩ := exists_file_of_encode h
  obtain rfl := Except.ok.inj (hc.symm.trans hc')
  obtain ⟨g, hg⟩ := Contents.fills_of_ofDex hc
  exact ⟨f, hopen, DexFile.dex_eq hf (Contents.short_of_ofDex hc) hm (Contents.shallow_of_ofDex hc)
    hg (validate_of_encode h) (Contents.nodup_types_of_ofDex hc) hformed hvalue⟩

/-- The initial values of static fields that start with defaults of their types only are those that
are stored and the defaults behind them. -/
theorem initial_of_typed {g : Gathered} (hg : g.Fills o d c) (htyped : ∀ x ∈ d.classes, x.Typed) :
    ∀ e ∈ c.classes, ∀ values, e.staticFields.mapM FieldEntry.initial = .ok values →
      DexFile.Initial FieldDef.initial (some ((Value.trimDefaults values).map Value.sorted))
        e.staticFields := by
  intro e he values hvalues
  obtain ⟨x, hx, hold⟩ := exists_left_of_mem hg.classes he
  obtain ⟨tail, htail, hdefault⟩ := Gather.exists_trim Value.isDefault values
  have hall : List.Forall₂ (fun y v => y.initial = .ok v) e.staticFields
      (Value.trimDefaults values ++ tail) := htail ▸ mapM_eq_ok.mp hvalues
  rw [hold.staticFields] at hall ⊢
  refine DexFile.initial_append hall hdefault (fun y hy => ?_) ((htyped x hx).of_tail hall hdefault)
  rw [Gather.fieldEntries_eq] at hy
  obtain ⟨z, -, rfl⟩ := List.mem_map.mp hy
  rfl

/-- A file that is written on its own gives back its classes in their normal form, with call sites
named after their indices. The call sites, and the method handles that have to be consistent, are
those of the contents that are gathered for the classes. -/
theorem exists_dex_of_encode (h : d.encode o = .ok bytes) (hc : Contents.ofDex o d = .ok c)
    (hm : ∀ m ∈ c.pools.methodHandles.toList, m.IsConsistent)
    (hformed : ∀ x ∈ d.classes, x.WellFormed)
    (hreal : Contents.packsRestrictions o → ∀ x ∈ d.classes, x.Real)
    (htyped : ∀ x ∈ d.classes, x.Typed) :
    ∃ f, DexFile.ofBytes o.options bytes.toByteArray 0 = .ok f ∧
      f.dex = .ok (d.normal o c.readSite) := by
  obtain ⟨g, hg⟩ := Contents.fills_of_ofDex hc
  obtain ⟨f, hopen, hdex⟩ :=
    exists_readAs_of_encode h hc hm hformed (initial_of_typed hg htyped)
  refine ⟨f, hopen, ?_⟩
  rw [hdex, normal]
  exact congrArg (Except.ok ∘ Dex.mk) (map_eq_of_forall₂ hg.classes fun x hx e hold =>
    (hold.readAs_eq fun hpacks => hreal hpacks x hx).symm).symm

end Dex

/-! ## A class with one static field -/

def numberField (access : UInt32) (value : Option Value) : FieldDef :=
  { name := "f", type := ⟨"I"⟩, access, value }

def numberClass (access : UInt32) (value : Option Value) : ClassDef :=
  { type := ⟨"LA;"⟩, staticFields := [numberField access value] }

def numberId : FieldId := ⟨⟨"LA;"⟩, "f", ⟨"I"⟩⟩

namespace Contents
open Gather

def numberEntry (access : UInt32) (value : Option Value) : ClassEntry :=
  ⟨numberClass access value, none, none, none, [⟨numberField access value, numberId⟩], [], [], []⟩

def number (access : UInt32) (value : Option Value) : Contents where
  pools := {
    strings := .ofList ["I", "LA;", "f"]
    types := .ofList [⟨"I"⟩, ⟨"LA;"⟩]
    fields := .ofList [numberId] }
  items := {}
  classes := [numberEntry access value]

/-- What the class refers to, in the order in which it is found. -/
def numberFound : Gathered := (Gathered.addType {} ⟨"LA;"⟩).addField numberId

section
variable {o : WriteOptions} {access : UInt32} {value : Option Value} {v : Value} {g : Gathered}

theorem toPools_numberFound : numberFound.toPools = .ok (number access value).pools := by
  have hstrings : numberFound.strings.toList = ["LA;", "f", "I"] := by
    simp only [numberFound, Gathered.addType, Gathered.addField, Gathered.addString, numberId,
      ItemSet.toList_insert]
    rfl
  have htypes : numberFound.types.toList = [⟨"LA;"⟩, ⟨"I"⟩] := by
    simp only [numberFound, Gathered.addType, Gathered.addField, Gathered.addString, numberId,
      ItemSet.toList_insert]
    rfl
  have hfields : numberFound.fields.toList = [numberId] := by
    simp only [numberFound, Gathered.addType, Gathered.addField, Gathered.addString,
      ItemSet.toList_insert]
    rfl
  have hstring : sortedBy Text.compareUtf16 ["LA;", "f", "I"] = ["I", "LA;", "f"] := by cbv
  have htype : sortedBy compare [TypeId.mk "LA;", ⟨"I"⟩] = [⟨"I"⟩, ⟨"LA;"⟩] := by cbv
  have hfield (cmp : FieldId → FieldId → Ordering) : sortedBy cmp [numberId] = [numberId] := by cbv
  have hnil {α : Type} (cmp : α → α → Ordering) : sortedBy cmp [] = [] := by cbv
  have hprotos : numberFound.protos.toList = [] := rfl
  have hmethods : numberFound.methods.toList = [] := rfl
  have hhandles : numberFound.methodHandles.toList = [] := rfl
  have hsites : numberFound.callSites.toList = [] := rfl
  rw [Gathered.toPools, hstrings, htypes, hprotos, hfields, hmethods, hhandles, hsites]
  simp only [Pools.build, Pools.pool, hstring, htype, hfield, hnil]
  rfl

theorem classEntry_number (hv : v.isDefault)
    (hinitial : initialValue ⟨numberField access value, numberId⟩ numberFound = .ok (v, g)) :
    classEntry o (numberClass access value) {} = .ok (numberEntry access value, g) := by
  have hdistinct : checkDistinct "field" [numberId] = .ok () := by
    simp [checkDistinct, ItemSet.firstRepeated?, ItemSet.firstRepeated?.go, ItemSet.contains]
  have hsorted : sortedMembers (numberClass access value).fieldId
      (numberClass access value).staticFields = [(numberId, numberField access value)] := by cbv
  have hempty {α ι : Type} [Ord ι] (id : α → ι) : sortedMembers id [] = [] := by cbv
  have hown (g : Gathered) : annotationSet [] g = .ok ([], g) := by
    have hset : AnnotationItem.sortedSet [] = .ok [] := by cbv
    exact bind_eq_ok.mpr ⟨_, bind_eq_ok.mpr ⟨_, hset, rfl⟩, rfl⟩
  have hfields (g : Gathered) : List.mapM field [⟨numberField access value, numberId⟩] g =
      .ok ([(numberId, [])], g.addField numberId) := by
    have hfield : field ⟨numberField access value, numberId⟩ g =
        .ok ((numberId, []), g.addField numberId) :=
      bind_eq_ok.mpr ⟨_, within_eq_ok_iff.mpr (hown _), rfl⟩
    rw [List.mapM_cons]
    exact bind_eq_ok.mpr ⟨_, hfield, rfl⟩
  have hvalues : List.mapM initialValue [⟨numberField access value, numberId⟩] numberFound =
      .ok ([v], g) := by
    rw [List.mapM_cons]
    exact bind_eq_ok.mpr ⟨_, hinitial, rfl⟩
  have htrim : Value.trimDefaults [v] = [] := by simp [Value.trimDefaults, hv]
  have hinstance : (numberClass access value).instanceFields = [] := rfl
  have hdirect : (numberClass access value).directMethods = [] := rfl
  have hvirtual : (numberClass access value).virtualMethods = [] := rfl
  unfold classEntry
  simp only [hsorted, hinstance, hdirect, hvirtual, hempty]
  refine bind_eq_ok.mpr ⟨_, bind_eq_ok.mpr ⟨_, hdistinct, rfl⟩, ?_⟩
  refine bind_eq_ok.mpr ⟨_, hown _, bind_eq_ok.mpr ⟨_, hfields _, bind_eq_ok.mpr ⟨_, hvalues, ?_⟩⟩⟩
  simp only [htrim]
  rfl

theorem ofDex_number (hv : v.isDefault)
    (hinitial : initialValue ⟨numberField access value, numberId⟩ numberFound = .ok (v, g))
    (hsettle : g.settleAll = .ok numberFound) :
    ofDex o ⟨[numberClass access value]⟩ = .ok (number access value) := by
  have hentries : classEntries o ∅ [numberClass access value] {} =
      .ok ([numberEntry access value], g) := by
    rw [classEntries, ItemSet.contains, ItemSet.id?_empty, if_neg (by simp)]
    change (Result.within _ (classEntry o (numberClass access value) {}) >>= _) = _
    rw [classEntry_number hv hinitial]
    rfl
  have hpools : numberFound.toPools = .ok (number access value).pools := toPools_numberFound
  exact bind_eq_ok.mpr ⟨_, hentries, bind_eq_ok.mpr ⟨_, hsettle, bind_eq_ok.mpr ⟨_, hpools, rfl⟩⟩⟩

theorem ofDex_number_none : ofDex o ⟨[numberClass access none]⟩ = .ok (number access none) := by
  have hdefault : Value.defaultFor ⟨"I"⟩ = .ok (.int 0) := by cbv
  have hinitial : initialValue ⟨numberField access none, numberId⟩ numberFound =
      .ok (.int 0, numberFound) := within_eq_ok_iff.mpr (bind_eq_ok.mpr ⟨_, hdefault, rfl⟩)
  exact ofDex_number rfl hinitial rfl

theorem ofDex_number_byte :
    ofDex o ⟨[numberClass access (some (.byte 0))]⟩ = .ok (number access (some (.byte 0))) := by
  have hinitial : initialValue ⟨numberField access (some (.byte 0)), numberId⟩ numberFound =
      .ok (.byte 0, numberFound.defer (.value (.byte 0))) := rfl
  exact ofDex_number rfl hinitial rfl

end

section
variable {options : Options} {access stored : UInt32} {value : Option Value} {b : UInt8}

theorem toList_numberStrings : (number access value).pools.strings.toList = ["I", "LA;", "f"] :=
  ItemSet.toList_ofList_of_nodup (by decide)

theorem toList_numberTypes : (number access value).pools.types.toList = [⟨"I"⟩, ⟨"LA;"⟩] :=
  ItemSet.toList_ofList_of_nodup (by decide)

theorem toList_numberFields : (number access value).pools.fields.toList = [numberId] :=
  ItemSet.toList_ofList_of_nodup (List.nodup_singleton _)

/-- The data of the class, with `b` for the flags of the field. -/
def numberData (b : UInt8) : Data :=
  ⟨.empty .debugInfo 172, .empty .codeItems 172, .empty .encodedArrays 172,
    .empty .annotationItems 172, .empty .annotationSets 172, .empty .annotationSetLists 172,
    .empty .annotationDirectories 172, .empty .typeLists 172,
    ⟨.classData, 172, [⟨[1, 0, 0, 0, 0, b], 172⟩]⟩,
    ⟨.stringData, 178, [⟨[1, 73, 0], 178⟩, ⟨[3, 76, 65, 59, 0], 181⟩, ⟨[1, 102, 0], 186⟩]⟩,
    .empty .hiddenApi 189⟩

theorem encodeClassData_number {code : DataSection}
    (hstored : storedAccess ⟨options, .dex038⟩ access 0 = .ok stored)
    (hb : Bytes.uleb stored = [b]) :
    encodeClassData (number access value).resolver ⟨options, .dex038⟩ code
      (numberEntry access value) = .ok [1, 0, 0, 0, 0, b] := by
  have hfield : (number access value).resolver.field numberId = .ok 0 :=
    Pools.lookup_ofList (List.pairwise_singleton _ _) (k := 0) rfl
  have hfields : encodeFields (number access value).resolver ⟨options, .dex038⟩ 0
      [⟨numberField access value, numberId⟩] = .ok [0, b] := by
    refine bind_eq_ok.mpr ⟨_, hfield, bind_eq_ok.mpr ⟨_, within_eq_ok_iff.mpr hstored, ?_⟩⟩
    rw [hb, show Bytes.uleb (0 - 0) = [0] by cbv]
    rfl
  have hcounts : Bytes.ulebNat 1 ++ Bytes.ulebNat 0 ++ Bytes.ulebNat 0 ++ Bytes.ulebNat 0 =
      [1, 0, 0, 0] := by cbv
  refine bind_eq_ok.mpr ⟨_, hfields, bind_eq_ok.mpr ⟨_, rfl, bind_eq_ok.mpr ⟨_, rfl, ?_⟩⟩⟩
  refine bind_eq_ok.mpr ⟨_, rfl, ?_⟩
  exact congrArg (fun counts => Except.ok (counts ++ [0, b] ++ [] ++ [] ++ [])) hcounts

theorem data_number (hstored : storedAccess ⟨options, .dex038⟩ access 0 = .ok stored)
    (hb : Bytes.uleb stored = [b]) :
    (number access value).data ⟨options, .dex038⟩ 172 = .ok (numberData b) := by
  have hclass : (number access value).classDataSection ⟨options, .dex038⟩ (numberData b).code 172 =
      .ok (numberData b).classData := by
    have hplaced : (do
        let bytes ← (encodeClassData (number access value).resolver ⟨options, .dex038⟩
          (numberData b).code (numberEntry access value)).within
            (toString (numberEntry access value).definition)
        return ⟨bytes, 172⟩ : Result Placed) = .ok ⟨[1, 0, 0, 0, 0, b], 172⟩ := by
      rw [encodeClassData_number hstored hb]
      rfl
    exact bind_eq_ok.mpr ⟨[⟨[1, 0, 0, 0, 0, b], 172⟩], bind_eq_ok.mpr ⟨_, hplaced, rfl⟩, rfl⟩
  have hstrings : (number access value).stringSection 178 = .ok (numberData b).strings := by
    rw [stringSection, toList_numberStrings]
    cbv
  have hhidden : (number access value).hiddenApiSection ⟨options, .dex038⟩ 189 =
      .ok (numberData b).hiddenApi := by
    have hnone : (number access value).classes.map restrictions = [none] := rfl
    unfold hiddenApiSection
    rw [hnone, if_pos (by simp)]
    rfl
  exact data_of_built {
    codeSections := rfl
    encodedArrays := rfl
    annotations := rfl
    annotationSets := rfl
    annotationSetLists := rfl
    directories := rfl
    typeLists := rfl
    classData := hclass
    strings := hstrings
    hiddenApi := hhidden }

theorem exists_ids_number : ∃ ids, (number access value).encodeIds (numberData b) = .ok ids := by
  have hstring {s : String} {k : Nat} (hs : ["I", "LA;", "f"][k]? = some s) :
      (number access value).resolver.string s = .ok (UInt32.ofNat k) :=
    Pools.lookup_ofList (by decide) hs
  have htype {t : TypeId} {k : Nat} (ht : [TypeId.mk "I", ⟨"LA;"⟩][k]? = some t) :
      (number access value).resolver.type t = .ok (UInt32.ofNat k) :=
    Pools.lookup_ofList (by decide) ht
  refine Encodable.exists_ids {
    types := ?_
    protos := List.forall_mem_nil _
    fields := ?_
    methods := List.forall_mem_nil _
    classes := List.forall_mem_singleton.mpr ⟨_, bind_eq_ok.mpr ⟨_, htype (k := 1) rfl, rfl⟩⟩
    callSites := List.forall_mem_nil _
    methodHandles := List.forall_mem_nil _ }
  · rw [toList_numberTypes]
    exact List.forall_mem_cons.mpr ⟨⟨_, bind_eq_ok.mpr ⟨_, hstring (k := 0) rfl, rfl⟩⟩,
      List.forall_mem_singleton.mpr ⟨_, bind_eq_ok.mpr ⟨_, hstring (k := 1) rfl, rfl⟩⟩⟩
  · rw [toList_numberFields]
    exact List.forall_mem_singleton.mpr ⟨_, bind_eq_ok.mpr ⟨_, htype (k := 1) rfl, bind_eq_ok.mpr
      ⟨_, htype (k := 0) rfl, bind_eq_ok.mpr ⟨_, hstring (k := 2) rfl, rfl⟩⟩⟩⟩

theorem exists_encodeStandard_number
    (hstored : storedAccess ⟨options, .dex038⟩ access 0 = .ok stored)
    (hb : Bytes.uleb stored = [b]) :
    ∃ file, (number access value).encodeStandard ⟨options, .dex038⟩ 0 = .ok file := by
  have hfields : (number access value).pools.fields.size = 1 := by
    rw [← ItemSet.length_toList, toList_numberFields]
    rfl
  have hstop : ((number access value).layout (0 + Header.sizeOf .dex038)).stop = 172 := by
    rw [layout, ← ItemSet.length_toList, toList_numberStrings, ← ItemSet.length_toList,
      toList_numberTypes, hfields]
    rfl
  have hstart : alignUp ((number access value).layout (0 + Header.sizeOf .dex038)).stop
      mapAlignment = 172 := by
    rw [hstop]
    rfl
  have hlength : ((numberData b).bytes false).length = 17 := by cbv
  obtain ⟨ids, hids⟩ : ∃ ids, (number access value).encodeIds (numberData b) = .ok ids :=
    exists_ids_number
  exact exists_encodeStandard hstart (data_number hstored hb) hids (by rw [hlength]; decide)

end

end Contents

namespace Dex
open Contents

section
variable {options : Options} {access stored : UInt32} {value : Option Value} {b : UInt8}
  (hv : WriteOptions.validate ⟨options, .dex038⟩ = .ok ())
  (hc : ofDex ⟨options, .dex038⟩ ⟨[numberClass access value]⟩ = .ok (number access value))
  (hstored : storedAccess ⟨options, .dex038⟩ access 0 = .ok stored) (hb : Bytes.uleb stored = [b])
include hv hc hstored hb

theorem exists_encode_number :
    ∃ bytes, encode ⟨options, .dex038⟩ ⟨[numberClass access value]⟩ = .ok bytes := by
  obtain ⟨file, hfile⟩ : ∃ file,
      (number access value).encodeStandard ⟨options, .dex038⟩ 0 = .ok file :=
    exists_encodeStandard_number hstored hb
  exact ⟨_, map_eq_ok.mpr ⟨file, bind_eq_ok.mpr ⟨(), hv, bind_eq_ok.mpr ⟨_, hc, hfile⟩⟩, rfl⟩⟩

/-- Where the field starts with a default value, it is read back with the one of its type. -/
theorem exists_readAs_number {v : Value} (hinitial : (numberEntry access value).staticFields.mapM
      FieldEntry.initial = .ok [v]) (hdefault : v.isDefault) : ∃ bytes f,
    encode ⟨options, .dex038⟩ ⟨[numberClass access value]⟩ = .ok bytes ∧
      DexFile.ofBytes options bytes.toByteArray 0 = .ok f ∧
      f.dex = .ok ⟨[{ numberClass access value with
        staticFields :=
          [(numberField access value).readAs ⟨options, .dex038⟩ (some (.int 0))] }]⟩ := by
  obtain ⟨bytes, hbytes⟩ := exists_encode_number hv hc hstored hb
  have hvalue : ∀ e ∈ [numberEntry access value], ∀ values,
      e.staticFields.mapM FieldEntry.initial = .ok values →
        DexFile.Initial (fun _ => some (.int 0))
          (some ((Value.trimDefaults values).map Value.sorted)) e.staticFields := by
    intro e he values hvalues
    obtain rfl := List.mem_singleton.mp he
    obtain rfl : [v] = values := Except.ok.inj (hinitial.symm.trans hvalues)
    have htrim : Value.trimDefaults [v] = [] := by simp [Value.trimDefaults, hdefault]
    have hfirst : (some []).mapM (DexFile.initialValue numberId) = .ok (some (.int 0)) := by cbv
    rw [htrim]
    exact ⟨hfirst, trivial⟩
  obtain ⟨f, hopen, hdex⟩ := exists_readAs_of_encode hbytes hc
    (fun m hm => absurd hm List.not_mem_nil) (fun x hx m hm => by
      rw [List.mem_singleton.mp hx] at hm
      exact absurd hm List.not_mem_nil) hvalue
  exact ⟨bytes, f, hbytes, hopen, hdex.trans (by cbv)⟩

end

/-- A static field without a value is read back with the default of its type. -/
theorem exists_dex_of_encode_number : ∃ bytes f,
    encode {} ⟨[numberClass 8 none]⟩ = .ok bytes ∧
      DexFile.ofBytes {} bytes.toByteArray 0 = .ok f ∧
      f.dex = .ok ⟨[numberClass 8 (some (.int 0))]⟩ := by
  have hstored : storedAccess {} 8 0 = .ok 8 := rfl
  have hb : Bytes.uleb 8 = [8] := by cbv
  obtain ⟨bytes, hbytes⟩ := exists_encode_number rfl ofDex_number_none hstored hb
  have hnomethods {x : ClassDef} (hx : x ∈ [numberClass 8 none]) : x.methods = [] := by
    rw [List.mem_singleton.mp hx]
    rfl
  obtain ⟨f, hopen, hdex⟩ := exists_dex_of_encode hbytes ofDex_number_none
    (fun m hm => absurd hm List.not_mem_nil)
    (fun x hx m hm => absurd hm (by rw [hnomethods hx]; exact List.not_mem_nil))
    (fun hpacks => by cases hpacks) (fun x hx rest hrest _ z hz v hv => by
      have hz := (sortedBy_perm _ _).mem_iff.mp (hrest.mem hz)
      rw [List.mem_singleton.mp hx] at hz
      rw [List.mem_singleton.mp hz] at hv
      cases hv)
  exact ⟨bytes, f, hbytes, hopen, hdex.trans (by cbv)⟩

/-- A default value of another type comes back as the one of the field's type, and flags without
room for the restriction come back changed. -/
theorem exists_dex_ne_normal :
    (∃ bytes f, encode {} ⟨[numberClass 8 (some (.byte 0))]⟩ = .ok bytes ∧
      DexFile.ofBytes {} bytes.toByteArray 0 = .ok f ∧
      f.dex = .ok ⟨[numberClass 8 (some (.int 0))]⟩ ∧
      ∀ site, normal {} site ⟨[numberClass 8 (some (.byte 0))]⟩ ≠
        ⟨[numberClass 8 (some (.int 0))]⟩) ∧
    ∃ bytes f, encode ⟨{ targetApi := 28 }, .dex038⟩ ⟨[numberClass 3 none]⟩ = .ok bytes ∧
      DexFile.ofBytes { targetApi := 28 } bytes.toByteArray 0 = .ok f ∧
      f.dex = .ok ⟨[{ numberClass 3 none with
        staticFields := [{ numberField 4 (some (.int 0)) with restriction := 1 }] }]⟩ ∧
      ∀ site, normal ⟨{ targetApi := 28 }, .dex038⟩ site ⟨[numberClass 3 none]⟩ ≠
        ⟨[{ numberClass 3 none with
          staticFields := [{ numberField 4 (some (.int 0)) with restriction := 1 }] }]⟩ := by
  constructor
  · have hstored : storedAccess {} 8 0 = .ok 8 := rfl
    have hb : Bytes.uleb 8 = [8] := by cbv
    obtain ⟨bytes, f, hbytes, hopen, hdex⟩ :=
      exists_readAs_number rfl ofDex_number_byte hstored hb (v := .byte 0) rfl rfl
    refine ⟨bytes, f, hbytes, hopen, hdex.trans (by cbv), fun site => ?_⟩
    have hnormal : normal {} site ⟨[numberClass 8 (some (.byte 0))]⟩ =
      ⟨[numberClass 8 (some (.byte 0))]⟩ := by cbv
    rw [hnormal]
    decide
  · have hstored : storedAccess ⟨{ targetApi := 28 }, .dex038⟩ 3 0 = .ok 3 := by cbv
    have hb : Bytes.uleb 3 = [3] := by cbv
    obtain ⟨bytes, f, hbytes, hopen, hdex⟩ :=
      exists_readAs_number (by cbv) ofDex_number_none hstored hb (v := .int 0) (by cbv) rfl
    refine ⟨bytes, f, hbytes, hopen, hdex.trans (by cbv), fun site => ?_⟩
    have hnormal : normal ⟨{ targetApi := 28 }, .dex038⟩ site ⟨[numberClass 3 none]⟩ =
      ⟨[numberClass 3 (some (.int 0))]⟩ := by cbv
    rw [hnormal]
    decide

end Dex

end Dalvik
