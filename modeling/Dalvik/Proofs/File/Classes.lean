import Dalvik.Proofs.File.Methods

/-!
# Classes are read back

The data of a class gives the numbers of its members and then the members in the order of their
ids. Its definition leads to the data and to everything else that was gathered for the class.
-/
namespace Dalvik
open Result

/-! ## Members in the order of their ids -/

section
variable {α ι : Type} [Ord ι] {id : α → ι} {members : List α}

theorem Gather.sortedMembers_eq :
    sortedMembers id members = (sortedBy (byKey compare id) members).map fun m => (id m, m) :=
  (map_sortedBy members fun _ _ => rfl).symm

theorem pairwise_ids [Std.TransCmp (compare : ι → ι → Ordering)] :
    ((sortedBy (byKey compare id) members).map id).Pairwise fun a b => (compare a b).isLE :=
  List.pairwise_map.mpr (pairwise_sortedBy (byKey compare id) members)

end

namespace DexFile

/-- The members of a class are in the order of their indices. -/
structure InOrder (r : Resolver) (e : ClassEntry) : Prop where
  staticFields : Ascending r.field none (e.staticFields.map FieldEntry.id)
  instanceFields : Ascending r.field none (e.instanceFields.map FieldEntry.id)
  directMethods : Ascending r.method none (e.directMethods.map MethodEntry.id)
  virtualMethods : Ascending r.method none (e.virtualMethods.map MethodEntry.id)

/-! ## The data of a class -/

/-- Fields without initial values. -/
theorem initial_none (fields : List FieldEntry) : Initial (fun _ => none) none fields := by
  induction fields with
  | nil => trivial
  | cons x fields ih => exact ⟨rfl, ih⟩

/-- A step for members, from the place of the first restriction. -/
theorem MemberReads.run {f : DexFile} {o : WriteOptions} {α : Type} {step : MemberDecoder α}
    {restrictions : List UInt32} {part : Bytes} {a : α}
    (hs : f.MemberReads o step restrictions part a) {place : Option Nat}
    (hplace : f.Keeps o place restrictions) : (step.run' place).Reads part a := by
  rw [← List.append_nil restrictions] at hplace
  obtain ⟨after, -, hread⟩ := hs place [] hplace
  exact hread.map (g := Prod.fst)

section
variable {f : DexFile} {o : WriteOptions} {c : Contents} {d : Contents.Data} {g : Gathered}
  (h : f.Holds o c d) (hp : c.pools.Short)
  (hm : ∀ m ∈ c.pools.methodHandles.toList, m.IsConsistent) (hn : c.Shallow)
  (hg : c.items = g.items) (hv : o.validate = .ok ())
  (hd : ((c.classes.flatMap ClassEntry.methods).map MethodEntry.id).Nodup)
include h hp hm hn hg hv hd

theorem decodeMembers_reads {index : Nat} {e : ClassEntry} (he : c.classes[index]? = some e)
    {a : Annotations} (hfields : ∀ x ∈ e.fields, FieldGiven c.resolver o a x)
    (hmethods : ∀ x ∈ e.methods, MethodGiven g c.resolver o a x) (horder : InOrder c.resolver e)
    {value : FieldDef → Option Value} {values : List Value}
    (hinitial : Initial value (some values) e.staticFields) {part : Bytes}
    (hpart : Contents.encodeClassData c.resolver o d.code e = .ok part)
    (hl : part.length < UInt32.size) (x : ClassDef) :
    (f.decodeMembers index a values x).Reads part { x with
      staticFields := e.staticFields.map fun y => y.definition.readAs o (value y.definition)
      instanceFields := e.instanceFields.map (·.definition.readAs o none)
      directMethods := e.directMethods.map (·.definition.readAs o c.readSite)
      virtualMethods := e.virtualMethods.map (·.definition.readAs o c.readSite) } := by
  obtain ⟨place, hplace, hkeeps⟩ := exists_place h he
  have hcounted := Contents.counted_of_encodeClassData hpart hl
  obtain ⟨staticFields, instanceFields, directMethods, virtualMethods, hstaticFields,
    hinstanceFields, hdirectMethods, hvirtualMethods, rfl⟩ := Contents.exists_of_encodeClassData hpart
  have hin : ∀ y ∈ e.methods, y ∈ c.classes.flatMap ClassEntry.methods := fun y hy =>
    List.mem_flatMap.mpr ⟨e, List.mem_of_getElem? he, hy⟩
  have hlstatic := Contents.length_encodeFields hstaticFields
  have hlinstance := Contents.length_encodeFields hinstanceFields
  have hldirect := Contents.length_encodeMethods hdirectMethods
  have hlvirtual := Contents.length_encodeMethods hvirtualMethods
  apply e.counts_reads
  apply Decoder.Reads.available
  intro room hroom
  simp only [List.length_append] at hroom
  dsimp only
  rw [hcounted.staticFields, hcounted.instanceFields, hcounted.directMethods,
    hcounted.virtualMethods, if_neg (by omega)]
  apply Decoder.Reads.lift hplace
  have hstatic := decodeFields_reads h hp none
    (fun y hy => hfields y (List.mem_append_left _ hy)) horder.staticFields hinitial hstaticFields
  have hinstance := decodeFields_reads h hp none
    (fun y hy => hfields y (List.mem_append_right _ hy)) horder.instanceFields
    (initial_none _) hinstanceFields
  have hdirect := decodeMethods_reads h hp hm hn hg hv hd none
    (fun y hy => hmethods y (List.mem_append_left _ hy))
    (fun y hy => hin y (List.mem_append_left _ hy)) horder.directMethods hdirectMethods
  have hvirtual := decodeMethods_reads h hp hm hn hg hv hd none
    (fun y hy => hmethods y (List.mem_append_right _ hy))
    (fun y hy => hin y (List.mem_append_right _ hy)) horder.virtualMethods hvirtualMethods
  refine (hstatic.bind (hinstance.bind (hdirect.bind hvirtual.map))).run ?_
  simpa only [ClassEntry.fields, ClassEntry.methods, List.map_append, List.append_assoc] using hkeeps

end

end DexFile

/-! ## What is known of the members -/

/-- True if all code of the class is well-formed. -/
def ClassDef.WellFormed (x : ClassDef) : Prop := ∀ m ∈ x.methods, ∀ c ∈ m.code, c.WellFormed

namespace Gathered.HoldsClass

variable {o : WriteOptions} {g : Gathered} {x : ClassDef} {e : ClassEntry} (hx : g.HoldsClass o x e)
include hx

theorem exists_field {y : FieldEntry} (hy : y ∈ e.fields) :
    ∃ z ∈ x.fields, y = ⟨z, x.fieldId z⟩ := by
  have hmem {fields : List FieldDef} (hy : y ∈ Gather.fieldEntries x fields) :
      ∃ z ∈ fields, y = ⟨z, x.fieldId z⟩ := by
    rw [Gather.fieldEntries, Gather.sortedMembers_eq, List.map_map] at hy
    obtain ⟨z, hz, rfl⟩ := List.mem_map.mp hy
    exact ⟨z, (sortedBy_perm _ _).mem_iff.mp hz, rfl⟩
  rw [ClassEntry.fields, hx.staticFields, hx.instanceFields] at hy
  rcases List.mem_append.mp hy with hy | hy
  · obtain ⟨z, hz, h⟩ := hmem hy
    exact ⟨z, List.mem_append_left _ hz, h⟩
  · obtain ⟨z, hz, h⟩ := hmem hy
    exact ⟨z, List.mem_append_right _ hz, h⟩

theorem nodup_fields : (e.fields.map FieldEntry.id).Nodup :=
  Gather.nodup_of_checkDistinct hx.distinctFields

end Gathered.HoldsClass

namespace Gathered.HoldsMembers

variable {o : WriteOptions} {g : Gathered} {x : ClassDef} {e : ClassEntry}
  {ofClass : List AnnotationItem} {fields : List (FieldId × List AnnotationItem)}
  {methods : List (MethodEntry × List AnnotationItem × List (List AnnotationItem))}
  (hx : g.HoldsMembers o x e ofClass fields methods)
include hx

theorem methods_eq : e.methods = methods.map Prod.fst := by
  rw [ClassEntry.methods, hx.directMethods, hx.virtualMethods, ← List.map_append,
    List.take_append_drop]

/-- The entry of a method is called by the id of the method. -/
theorem exists_method {y : MethodEntry} (hy : y ∈ e.methods) : ∃ m ∈ x.methods, ∃ sets,
    (y, sets) ∈ methods ∧ g.HoldsMethod o (x.methodId m, m) (y, sets) := by
  rw [hx.methods_eq] at hy
  obtain ⟨⟨y, sets⟩, hmem, rfl⟩ := List.mem_map.mp hy
  obtain ⟨p, hp, holds⟩ := exists_left_of_mem hx.methods hmem
  have hmethod {ms : List MethodDef} (hp : p ∈ Gather.sortedMembers x.methodId ms) :
      ∃ m ∈ ms, p = (x.methodId m, m) := by
    rw [Gather.sortedMembers_eq] at hp
    obtain ⟨m, hm, rfl⟩ := List.mem_map.mp hp
    exact ⟨m, (sortedBy_perm _ _).mem_iff.mp hm, rfl⟩
  rcases List.mem_append.mp hp with hp | hp
  · obtain ⟨m, hm, rfl⟩ := hmethod hp
    exact ⟨m, List.mem_append_left _ hm, sets, hmem, holds⟩
  · obtain ⟨m, hm, rfl⟩ := hmethod hp
    exact ⟨m, List.mem_append_right _ hm, sets, hmem, holds⟩

/-- The entry of a method says where its debug information and its code are. -/
theorem places_method {y : MethodEntry} (hy : y ∈ e.methods) :
    g.Places ((y.definition.storedDebug o).map .debugInfo) y.debug ∧
      g.Places ((y.definition.sharedCode o y.debug).map .code) y.code := by
  obtain ⟨m, -, _, -, hold⟩ := hx.exists_method hy
  have hdefinition : y.definition = m := hold.definition
  exact ⟨hdefinition ▸ hold.debug, hdefinition ▸ hold.code⟩

/-- The entries of the methods belong to the methods in the order of their ids. -/
theorem forall₂_methods :
    List.Forall₂ (fun m y => y.definition = m ∧ y.id = x.methodId m)
      (sortedBy (byKey compare x.methodId) x.directMethods) e.directMethods ∧
    List.Forall₂ (fun m y => y.definition = m ∧ y.id = x.methodId m)
      (sortedBy (byKey compare x.methodId) x.virtualMethods) e.virtualMethods := by
  have holds {ms : List MethodDef}
      {part : List (MethodEntry × List AnnotationItem × List (List AnnotationItem))}
      (h : List.Forall₂ (flip (g.HoldsMethod o)) part (Gather.sortedMembers x.methodId ms)) :
      List.Forall₂ (fun m y => y.definition = m ∧ y.id = x.methodId m)
        (sortedBy (byKey compare x.methodId) ms) (part.map Prod.fst) := by
    rw [Gather.sortedMembers_eq, List.forall₂_map_right_iff] at h
    rw [List.forall₂_map_right_iff]
    exact h.flip.imp fun _ _ hold => ⟨hold.definition, hold.id⟩
  rw [hx.directMethods, hx.virtualMethods]
  exact ⟨holds (List.forall₂_take_append _ _ _ hx.methods.flip),
    holds (List.forall₂_drop_append _ _ _ hx.methods.flip)⟩

end Gathered.HoldsMembers

theorem Gathered.HoldsClass.nodup_methods {o : WriteOptions} {g : Gathered} {x : ClassDef}
    {e : ClassEntry} (hx : g.HoldsClass o x e) : (e.methods.map MethodEntry.id).Nodup := by
  obtain ⟨_, _, _, hmembers, -⟩ := hx.members
  have hids := map_eq_of_forall₂ hmembers.methods fun _ _ _ hold => hold.id.symm
  have hnodup := Gather.nodup_of_checkDistinct hx.distinctMethods
  rw [hids] at hnodup
  rw [hmembers.methods_eq, List.map_map]
  exact hnodup

namespace Gathered.HoldsMembers

variable {o : WriteOptions} {g : Gathered} {x : ClassDef} {e : ClassEntry}
  {ofClass : List AnnotationItem} {fields : List (FieldId × List AnnotationItem)}
  {methods : List (MethodEntry × List AnnotationItem × List (List AnnotationItem))}
  (hm : g.HoldsMembers o x e ofClass fields methods) (hx : g.HoldsClass o x e)
include hm hx

theorem nodup_fieldIds : (fields.map Prod.fst).Nodup := by
  rw [← map_eq_of_forall₂ hm.fields fun _ _ _ hold => hold.id.symm]
  exact hx.nodup_fields

theorem nodup_methodIds : (methods.map fun e => e.1.id).Nodup := by
  have hnodup := hx.nodup_methods
  rw [hm.methods_eq, List.map_map] at hnodup
  exact hnodup

end Gathered.HoldsMembers

/-- The members of every class are in the order of their indices, as the pools are in the same
order as the ids. -/
theorem Gathered.Fills.inOrder {o : WriteOptions} {dex : Dex} {g : Gathered} {c : Contents}
    (h : g.Fills o dex c) (hp : c.pools.Short) {x : ClassDef} {e : ClassEntry}
    (hx : g.HoldsClass o x e) : DexFile.InOrder c.resolver e := by
  have hpools := Pools.eq_of_build h.pools
  have hfields : c.pools.fields.toList.Pairwise fun a b => (compare a b).isLE := by
    rw [hpools]
    exact Pools.pairwise_pool
  have hmethods : c.pools.methods.toList.Pairwise fun a b => (compare a b).isLE := by
    rw [hpools]
    exact Pools.pairwise_pool
  have fields_ascend {fields : List FieldDef} {entries : List FieldEntry}
      (heq : entries = Gather.fieldEntries x fields)
      (hsub : (entries.map FieldEntry.id).Sublist (e.fields.map FieldEntry.id)) :
      DexFile.Ascending c.resolver.field none (entries.map FieldEntry.id) := by
    refine DexFile.ascending_of_sorted hfields (Nat.le_trans hp.fields (by decide)) ?_
      (hx.nodup_fields.sublist hsub)
    rw [heq, Gather.fieldEntries, Gather.sortedMembers_eq, List.map_map, List.map_map]
    exact pairwise_ids
  obtain ⟨_, _, _, hmembers, -⟩ := hx.members
  have methods_ascend {methods : List MethodDef} {entries : List MethodEntry}
      (heach : List.Forall₂ (fun m y => y.definition = m ∧ y.id = x.methodId m)
        (sortedBy (byKey compare x.methodId) methods) entries)
      (hsub : (entries.map MethodEntry.id).Sublist (e.methods.map MethodEntry.id)) :
      DexFile.Ascending c.resolver.method none (entries.map MethodEntry.id) := by
    refine DexFile.ascending_of_sorted hmethods (Nat.le_trans hp.methods (by decide)) ?_
      (hx.nodup_methods.sublist hsub)
    rw [← map_eq_of_forall₂ heach fun _ _ _ hold => hold.2.symm]
    exact pairwise_ids
  exact {
    staticFields := fields_ascend hx.staticFields ((List.sublist_append_left _ _).map _)
    instanceFields := fields_ascend hx.instanceFields ((List.sublist_append_right _ _).map _)
    directMethods :=
      methods_ascend hmembers.forall₂_methods.1 ((List.sublist_append_left _ _).map _)
    virtualMethods :=
      methods_ascend hmembers.forall₂_methods.2 ((List.sublist_append_right _ _).map _) }

/-! ## Distinct methods -/

/-- No two methods of a file have the same id. -/
theorem Gathered.Fills.nodup_methods {o : WriteOptions} {dex : Dex} {g : Gathered} {c : Contents}
    (h : g.Fills o dex c) (ht : (dex.classes.map ClassDef.type).Nodup) :
    ((c.classes.flatMap ClassEntry.methods).map MethodEntry.id).Nodup := by
  have hclass : ∀ {x e}, g.HoldsClass o x e → (e.methods.map MethodEntry.id).Nodup ∧
      ∀ y ∈ e.methods, y.id.declaringClass = x.type := by
    intro x e hx
    obtain ⟨_, _, _, hmembers, -⟩ := hx.members
    refine ⟨hx.nodup_methods, fun y hy => ?_⟩
    obtain ⟨m, -, _, -, hold⟩ := hmembers.exists_method hy
    rw [hold.id]
    rfl
  have hclasses := h.classes
  generalize dex.classes = classes at ht hclasses
  generalize c.classes = entries at hclasses
  induction hclasses with
  | nil => simp
  | @cons x e classes entries hx hrest ih =>
    rw [List.map_cons, List.nodup_cons] at ht
    rw [List.flatMap_cons, List.map_append, List.nodup_append]
    refine ⟨(hclass hx).1, ih ht.2, fun a ha b hb hab => ht.1 ?_⟩
    -- a method of two classes would give them the same type
    obtain ⟨y, hy, rfl⟩ := List.mem_map.mp ha
    obtain ⟨z, hz, rfl⟩ := List.mem_map.mp hb
    obtain ⟨e', he', hz⟩ := List.mem_flatMap.mp hz
    obtain ⟨x', hx', hold⟩ := exists_left_of_mem hrest he'
    rw [← (hclass hx).2 y hy, hab, (hclass hold).2 z hz]
    exact List.mem_map.mpr ⟨x', hx', rfl⟩

/-! ## Classes -/

/-- The class of an entry as it is read back, with initial values for its static fields. -/
def ClassEntry.readAs (o : WriteOptions) (site : CallSite → CallSite)
    (value : FieldDef → Option Value) (e : ClassEntry) : ClassDef :=
  { e.definition with
    staticFields := e.staticFields.map fun y => y.definition.readAs o (value y.definition)
    instanceFields := e.instanceFields.map (·.definition.readAs o none)
    directMethods := e.directMethods.map (·.definition.readAs o site)
    virtualMethods := e.virtualMethods.map (·.definition.readAs o site)
    annotations := AnnotationItem.normalSet e.definition.annotations }

namespace DexFile

section
variable {o : WriteOptions} {r : Resolver} {g : Gathered} {x : ClassDef} {e : ClassEntry}
  {a : Annotations} {ofClass : List AnnotationItem} {fields : List (FieldId × List AnnotationItem)}
  {methods : List (MethodEntry × List AnnotationItem × List (List AnnotationItem))}
  (hmembers : g.HoldsMembers o x e ofClass fields methods)
  (htells : a.Tells r ofClass fields methods)
include hmembers htells

theorem fieldGiven (hx : g.HoldsClass o x e) {y : FieldEntry} (hy : y ∈ e.fields) :
    FieldGiven r o a y := by
  obtain ⟨z, hz, rfl⟩ := hx.exists_field hy
  obtain ⟨set, hset, hold⟩ := exists_left_of_mem hmembers.fields.flip hy
  exact {
    name := rfl
    type := rfl
    annotations := fun i hi => by
      rw [htells.ofFields set hset i (hold.id ▸ hi)]
      exact AnnotationItem.normalSet_of_sortedSet hold.set }

theorem methodGiven (hformed : x.WellFormed) {y : MethodEntry} (hy : y ∈ e.methods) :
    MethodGiven g r o a y := by
  obtain ⟨m, hm, ⟨set, sets⟩, hset, hold⟩ := hmembers.exists_method hy
  obtain ⟨all, hall, hsets⟩ := hold.sets
  have hdefinition : y.definition = m := hold.definition
  have hid : y.id = x.methodId m := hold.id
  exact {
    name := by rw [hid, hdefinition]; rfl
    proto := by rw [hid, hdefinition]; rfl
    formed := fun code hcode => hformed m hm code (hdefinition ▸ hcode)
    debug := (hmembers.places_method hy).1
    code := (hmembers.places_method hy).2
    annotations := fun i hi => by
      rw [htells.ofMethods _ hset i hi, hdefinition]
      exact AnnotationItem.normalSet_of_sortedSet hold.set
    parameters := fun i hi k p hk => by
      have hsets : sets = AnnotationItem.trimEmpty all := hsets
      rw [htells.ofParameters _ hset i hi, hsets]
      exact MethodDef.parameterSet_eq hall (hdefinition ▸ hk) }

end

theorem exists_of_classItem {r : Resolver} {d : Contents.Data} {e : ClassEntry} {index : Nat}
    {item : IdItem.Class} (h : Contents.classItem r d e index = .ok item) :
    ∃ type superclass interfaces sourceFile annotations staticValues,
      r.type e.definition.type = .ok type ∧
      e.definition.superclass.mapM r.type = .ok superclass ∧
      d.typeLists.optionalOffset "interfaces" e.interfaces = .ok interfaces ∧
      e.definition.sourceFile.mapM r.string = .ok sourceFile ∧
      d.directories.optionalOffset "annotations directory" e.annotations = .ok annotations ∧
      d.encodedArrays.optionalOffset "static values" e.staticValues = .ok staticValues ∧
      item = {
        type
        access := e.definition.access
        superclass := superclass.getD noIndex
        interfaces
        sourceFile := sourceFile.getD noIndex
        annotations
        data := UInt32.ofNat ((d.classData.items[index]?.map Placed.offset).getD 0)
        staticValues } := by
  obtain ⟨type, htype, h⟩ := bind_eq_ok.mp h
  obtain ⟨superclass, hsuperclass, h⟩ := bind_eq_ok.mp h
  obtain ⟨interfaces, hinterfaces, h⟩ := bind_eq_ok.mp h
  obtain ⟨sourceFile, hsourceFile, h⟩ := bind_eq_ok.mp h
  obtain ⟨annotations, hannotations, h⟩ := bind_eq_ok.mp h
  obtain ⟨staticValues, hstaticValues, h⟩ := bind_eq_ok.mp h
  exact ⟨type, superclass, interfaces, sourceFile, annotations, staticValues, htype, hsuperclass,
    hinterfaces, hsourceFile, hannotations, hstaticValues, (pure_eq_ok.mp h).symm⟩

theorem optional_eq {α : Type} {resolve : α → Result UInt32} {fetch : UInt32 → Result α}
    (hfetch : ∀ {a i}, resolve a = .ok i → fetch i = .ok a)
    (hsmall : ∀ {a i}, resolve a = .ok i → i.toNat < 2 ^ 31) {a : Option α} {index : Option UInt32}
    (h : a.mapM resolve = .ok index) :
    (optionalIndex? (index.getD noIndex)).mapM fetch = .ok a := by
  cases a with
  | none =>
    cases h
    rfl
  | some a =>
    obtain ⟨i, hi, h⟩ := bind_eq_ok.mp h
    obtain rfl := pure_eq_ok.mp h
    have hne : some i ≠ some noIndex := by
      intro heq
      have hlt := hsmall hi
      rw [Option.some.inj heq] at hlt
      exact absurd hlt (by decide)
    rw [optionalIndex?_getD hne]
    exact bind_eq_ok.mpr ⟨a, hfetch hi, rfl⟩

/-- The directory of a class tells the annotations of the class and of its members. -/
theorem exists_given {f : DexFile} {o : WriteOptions} {c : Contents} {d : Contents.Data}
    {g : Gathered} (h : f.Holds o c d) (hp : c.pools.Short)
    (hm : ∀ m ∈ c.pools.methodHandles.toList, m.IsConsistent) (hn : c.Shallow)
    (hg : c.items = g.items) {x : ClassDef} {e : ClassEntry} (hx : g.HoldsClass o x e)
    (hformed : x.WellFormed) {what : String} {offset : UInt32}
    (ho : d.directories.optionalOffset what e.annotations = .ok offset) :
    ∃ a, f.annotations offset = .ok a ∧ a.ofClass = AnnotationItem.normalSet x.annotations ∧
      (∀ y ∈ e.fields, FieldGiven c.resolver o a y) ∧
      ∀ y ∈ e.methods, MethodGiven g c.resolver o a y := by
  obtain ⟨ofClass, fields, methods, hmembers, hdirectory⟩ := hx.members
  obtain ⟨a, ha, htells⟩ := exists_annotations h hp hm hn hg (hmembers.nodup_fieldIds hx)
    (hmembers.nodup_methodIds hx) hdirectory ho
  have hofClass : a.ofClass = AnnotationItem.normalSet x.annotations := by
    rw [htells.ofClass]
    exact AnnotationItem.normalSet_of_sortedSet hmembers.set
  exact ⟨a, ha, hofClass, fun y hy => fieldGiven hmembers htells hx hy,
    fun y hy => methodGiven hmembers htells hformed hy⟩

/-- The interfaces of a class are found at their offset, which is 0 where there are none. -/
theorem typeList_of_places {f : DexFile} {o : WriteOptions} {c : Contents} {d : Contents.Data}
    {g : Gathered} (h : f.Holds o c d) (hp : c.pools.Short) (hg : c.items = g.items)
    {types : List TypeId} {id : Option Nat} {what : String} {offset : UInt32}
    (hplace : g.Places (Part.unlessEmpty .typeList types) id)
    (ho : d.typeLists.optionalOffset what id = .ok offset) : f.typeList offset = .ok types := by
  rcases hplace.list_cases ho with ⟨rfl, rfl⟩ | ho
  · rfl
  · have ho : d.typeLists.offset what (g.items.typeLists.id? types) = .ok offset := ho
    rw [← hg] at ho
    exact typeList_eq h hp ho

variable {f : DexFile} {o : WriteOptions} {c : Contents} {d : Contents.Data} {g : Gathered}
  {dex : Dex} (h : f.Holds o c d) (hp : c.pools.Short)
  (hm : ∀ m ∈ c.pools.methodHandles.toList, m.IsConsistent) (hn : c.Shallow)
  (hf : g.Fills o dex c)
include h hp hm hn hf

/-- The definition of a class leads to all that was gathered for the class. -/
theorem ofClassItem_eq (hv : o.validate = .ok ()) (ht : (dex.classes.map ClassDef.type).Nodup)
    {x : ClassDef} {e : ClassEntry} (hx : g.HoldsClass o x e) (hformed : x.WellFormed)
    {index : Nat} (he : c.classes[index]? = some e) {value : FieldDef → Option Value}
    (hvalue : ∀ values, e.staticFields.mapM FieldEntry.initial = .ok values →
      Initial value (some ((Value.trimDefaults values).map Value.sorted)) e.staticFields)
    {item : IdItem.Class} (hitem : Contents.classItem c.resolver d e index = .ok item) :
    f.ofClassItem index item = .ok (e.readAs o c.readSite value) := by
  obtain rfl := hx.definition
  obtain ⟨type, superclass, interfaces, sourceFile, annotations, staticValues, htype, hsuperclass,
    hinterfaces, hsourceFile, hannotations, hstaticValues, rfl⟩ := exists_of_classItem hitem
  have hsmall := Contents.small_of_holds h hp
  have hitems := hf.items
  have hsuperclass := optional_eq (type_of_lookup h hp) hsmall.type hsuperclass
  have hsourceFile := optional_eq (string_of_lookup h) hsmall.string hsourceFile
  have hinterfaces := typeList_of_places h hp hitems hx.interfaces hinterfaces
  obtain ⟨values, hvalues, hplace⟩ := hx.values
  have hstaticValues := staticValues_eq h hp hm hn hitems hplace hstaticValues
  obtain ⟨a, ha, hofClass, hfields, hmethods⟩ :=
    exists_given h hp hm hn hitems hx hformed hannotations
  unfold ofClassItem
  dsimp only
  rw [type_of_lookup h hp htype, ok_bind, hsuperclass, ok_bind, hinterfaces, ok_bind, hsourceFile,
    ok_bind, ha, ok_bind, hstaticValues, ok_bind, hofClass]
  have hshows := h.data.classData index e he
  split at hshows
  next hdata =>
    obtain ⟨p, part, hget, hpart, hstands, hpos, hle⟩ := hshows
    have hfit := h.small
    have hnat : (UInt32.ofNat p.offset).toNat = p.offset := UInt32.toNat_ofNat_of_lt' (by omega)
    have hne := ofNat_ne_zero hpos (by omega : p.offset < UInt32.size)
    have hinside := hstands.length_le
    have hread := decodeMembers_reads h hp hm hn hitems hv (hf.nodup_methods ht) he hfields hmethods
      (hf.inOrder hp hx) (hvalue values hvalues) hpart (by omega)
    rw [hget, Option.map_some, Option.getD_some, if_neg hne, hnat, (hread _).valueAt hstands]
    rfl
  next hdata =>
    simp only [ClassEntry.hasData, ClassEntry.fields, ClassEntry.methods, Bool.not_eq_true',
      Bool.not_eq_false, Bool.and_eq_true, List.isEmpty_iff, List.append_eq_nil_iff] at hdata
    obtain ⟨⟨hstatic, hinstance⟩, hdirect, hvirtual⟩ := hdata
    rw [hshows, ClassEntry.readAs, hstatic, hinstance, hdirect, hvirtual]
    rfl

section
variable (hv : o.validate = .ok ()) (ht : (dex.classes.map ClassDef.type).Nodup)
  (hformed : ∀ x ∈ dex.classes, x.WellFormed) {value : FieldDef → Option Value}
  (hvalue : ∀ e ∈ c.classes, ∀ values, e.staticFields.mapM FieldEntry.initial = .ok values →
    Initial value (some ((Value.trimDefaults values).map Value.sorted)) e.staticFields)
include hv ht hformed hvalue

theorem classDef_eq {index : Nat} {e : ClassEntry} (he : c.classes[index]? = some e) :
    f.classDef index = .ok (e.readAs o c.readSite value) := by
  have hin := List.mem_of_getElem? he
  obtain ⟨x, hmem, hx⟩ := exists_left_of_mem hf.classes hin
  have hlt := (List.getElem?_eq_some_iff.mp he).1
  have hcount := h.classCount
  have hnat : (UInt32.ofNat index).toNat = index := UInt32.toNat_ofNat_of_lt' (by omega)
  have hget : c.classes.zipIdx[(UInt32.ofNat index).toNat]? = some (e, index) := by
    rw [hnat, List.getElem?_zipIdx, he]
    simp
  obtain ⟨item, hitem, hread⟩ := exists_item h.classes
    (fun x _ hstands => (IdItem.Class.decode_reads x).valueAt hstands) hget
  have hclass := ofClassItem_eq h hp hm hn hf hv ht hx (hformed x hmem) he (hvalue e hin) hitem
  obtain ⟨position, hposition, hread⟩ := bind_eq_ok.mp hread
  obtain ⟨-, -, hread⟩ := bind_eq_ok.mp hread
  rw [classDef, hposition, ok_bind, hread, ok_bind, hclass]
  rfl

theorem dex_eq : f.dex = .ok ⟨c.classes.map (ClassEntry.readAs o c.readSite value)⟩ := by
  have hcount : f.classCount = c.classes.length := by
    rw [classCount, h.classes.size, List.length_zipIdx]
  have heach : List.Forall₂ (fun index x => f.classDef index = .ok x) (List.range f.classCount)
      (c.classes.map (ClassEntry.readAs o c.readSite value)) := by
    rw [List.forall₂_iff_get]
    refine ⟨by rw [List.length_range, List.length_map, hcount], fun i hi hj => ?_⟩
    simp only [List.get_eq_getElem, List.getElem_range, List.getElem_map]
    rw [List.length_map] at hj
    exact classDef_eq h hp hm hn hf hv ht hformed hvalue (List.getElem?_eq_getElem hj)
  exact bind_eq_ok.mpr ⟨_, mapM_eq_ok.mpr heach, rfl⟩

end

end DexFile

end Dalvik
