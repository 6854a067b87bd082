import Dalvik.Proofs.File.Annotations
import Dalvik.Proofs.Order

/-!
# Invariants of gathering

A run over classes adds references, sets things aside and stores shared items, and whatever each of
these steps keeps is kept by the run. Sets of annotations are stored in the order of their types,
none of which they repeat, and a directory names each member once in each of its lists.
-/
namespace Dalvik
open Result

/-! ## Items in order -/

/-- The types of the annotations ascend. -/
def AnnotationItem.Ascending (set : List AnnotationItem) : Prop :=
  set.Pairwise fun a b => compare a.type b.type = .lt

theorem AnnotationItem.ascending_of_sortedSet {annotations set : List AnnotationItem}
    (h : sortedSet annotations = .ok set) : Ascending set := by
  unfold sortedSet at h
  dsimp only at h
  split at h
  · cases h
  next hnone =>
    cases h
    exact pairwise_lt_of_firstAdjacent? (pairwise_sortedBy (byKey compare type) annotations) hnone

/-- No list of the directory names a member twice. -/
structure AnnotationDirectory.Distinct (d : AnnotationDirectory) : Prop where
  fields : (d.ofFields.map Prod.fst).Nodup
  methods : (d.ofMethods.map Prod.fst).Nodup
  parameters : (d.ofParameters.map Prod.fst).Nodup

/-- A directory takes its members from those of a class. -/
theorem Gather.distinct_of_directoryOf {c : ClassDef} {ofClass : List AnnotationItem}
    {fields : List (FieldId × List AnnotationItem)}
    {methods : List (MethodEntry × List AnnotationItem × List (List AnnotationItem))}
    (hfields : (fields.map Prod.fst).Nodup) (hmethods : (methods.map fun e => e.1.id).Nodup)
    {d : AnnotationDirectory} (h : directoryOf c ofClass fields methods = some d) : d.Distinct := by
  obtain ⟨owner, rfl⟩ := exists_owner_of_directoryOf h
  exact {
    fields := hfields.sublist (List.filter_sublist.map _)
    methods := hmethods.sublist DexFile.kept_sublist
    parameters := hmethods.sublist DexFile.kept_sublist }

/-- A shared item as it is stored. -/
def Part.InOrder : Part → Prop
  | .annotationSet set => AnnotationItem.Ascending set
  | .directory d => d.Distinct
  | .typeList _ | .encodedArray _ | .annotationItem _ | .annotationSetList _ | .code _
  | .debugInfo _ => True
  | .reference _ | .debugAt _ | .nesting _ => False

/-! ## What classes refer to -/

/-- True of what refers neither to method handles nor to values. -/
def Reference.IsPlain : Reference → Prop
  | .callSite _ | .methodHandle _ => False
  | _ => True

def Deferred.references : Deferred → List Reference
  | .value v => v.references
  | .annotated a => a.value.references
  | .callSite c => [.callSite c]

section
variable (R : Reference → Prop)

/-- The values in annotations refer to nothing else. -/
def AnnotationItem.RefersOnly (annotations : List AnnotationItem) : Prop :=
  ∀ a ∈ annotations, ∀ r ∈ a.value.references, R r

structure FieldDef.RefersOnly (f : FieldDef) : Prop where
  value : ∀ v ∈ f.value, ∀ r ∈ v.references, R r
  annotations : AnnotationItem.RefersOnly R f.annotations

structure MethodDef.RefersOnly (m : MethodDef) : Prop where
  code : ∀ c ∈ m.code, ∀ i ∈ c.instructions, ∀ r ∈ i.references, R r
  parameters : ∀ p ∈ m.parameters, AnnotationItem.RefersOnly R p.annotations
  annotations : AnnotationItem.RefersOnly R m.annotations

/-- The instructions and the values of a class refer to nothing else. -/
structure ClassDef.RefersOnly (x : ClassDef) : Prop where
  fields : ∀ f ∈ x.fields, f.RefersOnly R
  methods : ∀ m ∈ x.methods, m.RefersOnly R
  annotations : AnnotationItem.RefersOnly R x.annotations

end

namespace Gather
open Gathered

/-! ## Steps that keep an invariant -/

variable {α β : Type} {I : Gathered → Prop} {m : Gather α} {Q : α → Prop}

/-- A step behind one that succeeds. -/
theorem bind_of_ok {f : α → Gather β} {g g₁ : Gathered} {a : α} (h : m g = .ok (a, g₁)) :
    (m >>= f) g = f a g₁ := by
  change m g >>= _ = _
  rw [h]
  rfl

/-- The step keeps an invariant, and what it gives satisfies `Q`. -/
def Keeps (I : Gathered → Prop) (m : Gather α) (Q : α → Prop) : Prop :=
  ∀ g a g₁, I g → m g = .ok (a, g₁) → I g₁ ∧ Q a

namespace Keeps

theorem pure {a : α} (h : Q a) : Keeps I (pure a) Q := by
  intro g b g₁ hg hb
  cases hb
  exact ⟨hg, h⟩

theorem bind {f : α → Gather β} {R : β → Prop} (hm : Keeps I m Q)
    (hf : ∀ a, Q a → Keeps I (f a) R) : Keeps I (m >>= f) R := by
  intro g b g₂ hg hb
  obtain ⟨⟨a, g₁⟩, ha, hb⟩ := bind_eq_ok.mp hb
  obtain ⟨hg₁, hQ⟩ := hm g a g₁ hg ha
  exact hf a hQ g₁ b g₂ hg₁ hb

theorem lift {x : Result α} (h : ∀ a, x = .ok a → Q a) : Keeps I (liftM x) Q := by
  intro g a g₁ hg ha
  obtain ⟨b, hb, ha⟩ := bind_eq_ok.mp ha
  cases ha
  exact ⟨hg, h a hb⟩

theorem modify {f : Gathered → Gathered} (h : ∀ g, I g → I (f g)) :
    Keeps I (modify f) fun _ => True := by
  intro g a g₁ hg ha
  cases ha
  exact ⟨h g hg, trivial⟩

theorem within {place : String} (hm : Keeps I m Q) : Keeps I (Gather.within place m) Q :=
  fun g a g₁ hg ha => hm g a g₁ hg (within_eq_ok_iff.mp ha)

theorem ite {c : Prop} [Decidable c] {x y : Gather α} (hx : c → Keeps I x Q)
    (hy : ¬ c → Keeps I y Q) : Keeps I (if c then x else y) Q := by
  split
  next h => exact hx h
  next h => exact hy h

theorem map {f : α → β} {R : β → Prop} (hm : Keeps I m fun a => R (f a)) :
    Keeps I (f <$> m) R := by
  intro g b g₁ hg hb
  obtain ⟨⟨a, g₂⟩, ha, hb⟩ := map_eq_ok.mp hb
  cases hb
  exact hm g a _ hg ha

theorem ite_bind {c : Prop} [Decidable c] {x y : Gather α} {f : α → Gather β} {R : β → Prop}
    (hm : Keeps I (if c then x else y) Q) (hf : ∀ a, Q a → Keeps I (f a) R) :
    Keeps I (if c then x >>= f else y >>= f) R := by
  rw [ite_bind_eq]
  exact bind hm hf

theorem ite_ite_bind {c d : Prop} [Decidable c] [Decidable d] {x y z : Gather α}
    {f : α → Gather β} {R : β → Prop} (hm : Keeps I (if c then x else if d then y else z) Q)
    (hf : ∀ a, Q a → Keeps I (f a) R) :
    Keeps I (if c then x >>= f else if d then y >>= f else z >>= f) R := by
  rw [ite_ite_bind_eq]
  exact bind hm hf

/-- A check that fails with a violation of its own. -/
theorem guard {c : Prop} [Decidable c] {reason : Violation} {k : β → Gather α} {y : Gather α}
    (hy : ¬ c → Keeps I y Q) :
    Keeps I (if c then liftM (Result.violation reason : Result β) >>= k else y) Q :=
  ite (fun _ => bind (Q := fun _ => False) (lift nofun) fun _ => False.elim) hy

theorem mapM {f : α → Gather β} {as : List α} {R : α → β → Prop}
    (h : ∀ a ∈ as, Keeps I (f a) (R a)) : Keeps I (as.mapM f) (List.Forall₂ R as) := by
  induction as with
  | nil =>
    rw [List.mapM_nil]
    exact pure .nil
  | cons a as ih =>
    rw [List.mapM_cons]
    refine bind (h a List.mem_cons_self) fun b hb => ?_
    refine bind (ih fun x hx => h x (List.mem_cons_of_mem a hx)) fun bs hbs => ?_
    exact pure (.cons hb hbs)

theorem forM {f : α → Gather PUnit} {as : List α} (h : ∀ a ∈ as, Keeps I (f a) fun _ => True) :
    Keeps I (as.forM f) fun _ => True := by
  induction as with
  | nil => exact pure trivial
  | cons a as ih =>
    exact bind (h a List.mem_cons_self) fun _ _ => ih fun x hx => h x (List.mem_cons_of_mem a hx)

theorem option_forM {f : α → Gather PUnit} {a : Option α}
    (h : ∀ x ∈ a, Keeps I (f x) fun _ => True) : Keeps I (a.forM f) fun _ => True := by
  cases a with
  | none => exact pure trivial
  | some a => exact h a rfl

theorem forIn {f : α → PUnit → Gather (ForInStep PUnit)} {as : List α}
    (h : ∀ a ∈ as, Keeps I (f a ⟨⟩) (· = .yield ⟨⟩)) :
    Keeps I (ForIn.forIn as PUnit.unit f) fun _ => True := by
  induction as with
  | nil => exact pure trivial
  | cons a as ih =>
    rw [List.forIn_cons]
    refine bind (h a List.mem_cons_self) fun s hs => ?_
    subst hs
    exact ih fun x hx => h x (List.mem_cons_of_mem a hx)

end Keeps

/-! ## Single steps -/

/-- An invariant that is kept by adding references, as long as call sites and method handles are
among those of `R`, and by storing items that are in order. -/
structure Kept (R : Reference → Prop) (I : Gathered → Prop) : Prop where
  add : ∀ {g r}, r.IsPlain ∨ R r → I g → I (g.add r)
  defer : ∀ {g d}, (∀ r ∈ d.references, R r) → I g → I (g.defer d)
  put : ∀ {g p}, p.InOrder → I g → I (g.put p)

section
variable {R : Reference → Prop} (hI : Kept R I)
include hI

theorem refer_keeps {r : Reference} (hr : r.IsPlain ∨ R r) : Keeps I (refer r) fun _ => True :=
  .modify fun _ => hI.add hr

theorem share_keeps {insert : SharedItems → Nat × SharedItems} {p : Part}
    (hput : ∀ g : Gathered, { g with items := (insert g.items).2 } = g.put p) (hp : p.InOrder) :
    Keeps I (share insert) fun _ => True := by
  intro g a g₁ hg h
  cases h
  exact ⟨hput g ▸ hI.put hp hg, trivial⟩

theorem directory_keeps {d : AnnotationDirectory} (hd : d.Distinct) :
    Keeps I (directory d) fun _ => True :=
  share_keeps hI (p := .directory d) (fun _ => rfl) hd

theorem deferAll_keeps {annotations : List AnnotationItem}
    (h : AnnotationItem.RefersOnly R annotations) :
    Keeps I (modify fun g => annotations.foldl (fun g a => g.defer (.annotated a)) g)
      fun _ => True := by
  refine .modify fun g hg => ?_
  induction annotations generalizing g with
  | nil => exact hg
  | cons a as ih =>
    obtain ⟨ha, has⟩ := List.forall_mem_cons.mp h
    exact ih has _ (hI.defer ha hg)

theorem annotationSet_keeps {annotations : List AnnotationItem}
    (h : AnnotationItem.RefersOnly R annotations) :
    Keeps I (annotationSet annotations) fun _ => True := by
  refine .bind (.lift fun _ => AnnotationItem.ascending_of_sortedSet) fun set hset => ?_
  refine .bind (deferAll_keeps hI h) fun _ _ => ?_
  refine .bind (.forIn fun a _ => ?_) fun _ _ => ?_
  · exact .bind (share_keeps hI (p := .annotationItem a) (fun _ => rfl) trivial) fun _ _ => .pure rfl
  · exact .ite (fun _ => .bind (share_keeps hI (p := .annotationSet set) (fun _ => rfl) hset)
      fun _ _ => .pure trivial) fun _ => .pure trivial

theorem parameterSets_keeps {m : MethodDef}
    (h : ∀ p ∈ m.parameters, AnnotationItem.RefersOnly R p.annotations) :
    Keeps I (parameterSets m) fun _ => True := by
  refine .bind (.mapM (R := fun _ _ => True) fun p hp => annotationSet_keeps hI (h p hp))
    fun sets _ => ?_
  exact .ite (fun _ => .bind (share_keeps hI (p := .annotationSetList (AnnotationItem.trimEmpty sets))
    (fun _ => rfl) trivial) fun _ _ => .pure trivial) fun _ => .pure trivial

theorem debugOf_keeps (d : DebugInfo) : Keeps I (debugOf d) fun _ => True := by
  refine .ite (fun _ => .pure trivial) fun _ => ?_
  refine .bind (.forIn fun name _ => ?_) fun _ _ => ?_
  · exact .bind (.option_forM fun s _ => refer_keeps hI (.inl trivial)) fun _ _ => .pure rfl
  refine .bind (.forIn fun i _ => ?_) fun _ _ => ?_
  · refine .bind (.forM fun s _ => refer_keeps hI (.inl trivial)) fun _ _ => ?_
    exact .bind (.forM fun t _ => refer_keeps hI (.inl trivial)) fun _ _ => .pure rfl
  exact .bind (share_keeps hI (p := .debugInfo d) (fun _ => rfl) trivial) fun _ _ => .pure trivial

theorem method_keeps (o : WriteOptions) (id : MethodId) {m : MethodDef} (hm : m.RefersOnly R) :
    Keeps I (method o id m) fun e => e.1.id = id := by
  refine .bind (refer_keeps hI (.inl trivial)) fun _ _ => ?_
  refine .bind (annotationSet_keeps hI hm.annotations) fun set _ => ?_
  refine .bind (parameterSets_keeps hI hm.parameters) fun sets _ => ?_
  have hcode := hm.code
  cases hc : m.code with
  | none => exact .pure rfl
  | some c =>
    refine .guard fun _ => ?_
    refine .bind (.forIn fun i hi => ?_) fun _ _ => ?_
    · refine .bind (.forM fun r hr => refer_keeps hI (.inr ?_)) fun _ _ => .pure rfl
      exact hcode c hc i hi r hr
    refine .bind (.forIn fun t _ => ?_) fun _ _ => ?_
    · refine .bind (.forIn fun h _ => ?_) fun _ _ => .pure rfl
      exact .bind (refer_keeps hI (.inl trivial)) fun _ _ => .pure rfl
    refine .ite_bind (Q := fun _ => True)
      (.ite (fun _ => debugOf_keeps hI _) fun _ => .pure trivial) fun debug _ => ?_
    exact .bind (share_keeps hI (p := .code _) (fun _ => rfl) trivial) fun _ _ => .pure rfl

theorem field_keeps {f : FieldEntry} (hf : f.definition.RefersOnly R) :
    Keeps I (field f) fun e => e.1 = f.id := by
  refine .bind (refer_keeps hI (.inl trivial)) fun _ _ => ?_
  exact .bind (.within (annotationSet_keeps hI hf.annotations)) fun _ _ => .pure rfl

theorem initialValue_keeps {f : FieldEntry} (hf : f.definition.RefersOnly R) :
    Keeps I (initialValue f) fun _ => True := by
  have hvalue := hf.value
  unfold initialValue
  cases hv : f.definition.value with
  | some v => exact .bind (.modify fun _ => hI.defer (hvalue v hv)) fun _ _ => .pure trivial
  | none => exact .within (.lift fun _ _ => trivial)

/-! ## Classes -/

omit hI in
theorem mem_of_mem_sortedMembers {ι : Type} [Ord ι] {id : α → ι} {members : List α} {p : ι × α}
    (h : p ∈ sortedMembers id members) : p.2 ∈ members := by
  obtain ⟨m, hm, rfl⟩ := List.mem_map.mp ((sortedBy_perm _ _).mem_iff.mp h)
  exact hm

omit hI in
theorem mem_of_mem_fieldEntries {c : ClassDef} {fields : List FieldDef} {f : FieldEntry}
    (h : f ∈ fieldEntries c fields) : f.definition ∈ fields := by
  obtain ⟨p, hp, rfl⟩ := List.mem_map.mp h
  exact mem_of_mem_sortedMembers hp

theorem classEntry_keeps (o : WriteOptions) {c : ClassDef} (hc : c.RefersOnly R) :
    Keeps I (classEntry o c) fun _ => True := by
  have hstatic {f} (hf : f ∈ fieldEntries c c.staticFields) : f.definition.RefersOnly R :=
    hc.fields _ (List.mem_append_left _ (mem_of_mem_fieldEntries hf))
  have hinstance {f} (hf : f ∈ fieldEntries c c.instanceFields) : f.definition.RefersOnly R :=
    hc.fields _ (List.mem_append_right _ (mem_of_mem_fieldEntries hf))
  have hmethod {p} (hp : p ∈ sortedMembers c.methodId c.directMethods ++
      sortedMembers c.methodId c.virtualMethods) : p.2.RefersOnly R :=
    hc.methods _ (List.mem_append.mpr ((List.mem_append.mp hp).imp mem_of_mem_sortedMembers
      mem_of_mem_sortedMembers))
  refine .bind (refer_keeps hI (.inl trivial)) fun _ _ => ?_
  refine .bind (.option_forM fun t _ => refer_keeps hI (.inl trivial)) fun _ _ => ?_
  refine .bind (.forM fun t _ => refer_keeps hI (.inl trivial)) fun _ _ => ?_
  refine .ite_bind (Q := fun _ => True) (.ite (fun _ => .pure trivial) fun _ =>
    .map (share_keeps hI (p := .typeList c.interfaces) (fun _ => rfl) trivial)) fun interfaces _ => ?_
  refine .bind (.option_forM fun s _ => refer_keeps hI (.inl trivial)) fun _ _ => ?_
  refine .bind (.lift fun _ => nodup_of_checkDistinct) fun _ hfields => ?_
  refine .bind (.lift fun _ => nodup_of_checkDistinct) fun _ hmethods => ?_
  refine .bind (annotationSet_keeps hI hc.annotations) fun ofClass _ => ?_
  refine .bind (.mapM fun f hf => field_keeps hI ((List.mem_append.mp hf).elim hstatic hinstance))
    fun ofFields heachField => ?_
  refine .bind (.mapM (R := fun _ _ => True) fun f hf => initialValue_keeps hI (hstatic hf))
    fun values _ => ?_
  refine .bind (.forIn fun f _ => .guard fun _ => .pure rfl) fun _ _ => ?_
  refine .ite_bind (Q := fun _ => True) (.ite (fun _ => .pure trivial) fun _ =>
    .map (share_keeps hI (p := .encodedArray (Value.trimDefaults values)) (fun _ => rfl) trivial))
    fun staticValues _ => ?_
  refine .bind (.mapM (R := fun p e => e.1.id = p.1) fun p hp => .within
    (method_keeps hI o p.1 (hmethod hp))) fun ofMethods heachMethod => ?_
  have distinct {d : AnnotationDirectory} (h : directoryOf c ofClass ofFields ofMethods = some d) :
      d.Distinct := by
    refine distinct_of_directoryOf ?_ ?_ h
    · rw [← map_eq_of_forall₂ heachField fun _ _ _ hid => hid.symm]
      exact hfields
    · rw [← map_eq_of_forall₂ heachMethod fun _ _ _ hid => hid.symm]
      exact hmethods
  refine .ite_ite_bind (Q := fun _ => True)
    (.ite (fun hd => .map (directory_keeps hI (distinct (if_pos hd)))) fun hd =>
      .ite (fun _ => .pure trivial) fun he =>
        .map (directory_keeps hI (distinct ((if_neg hd).trans (if_neg he)))))
    fun _ _ => .pure trivial

theorem classEntries_keeps (o : WriteOptions) (seen : ItemSet TypeId) {cs : List ClassDef}
    (h : ∀ c ∈ cs, c.RefersOnly R) : Keeps I (classEntries o seen cs) fun _ => True := by
  induction cs generalizing seen with
  | nil => exact .pure trivial
  | cons c cs ih =>
    obtain ⟨hc, hcs⟩ := List.forall_mem_cons.mp h
    refine .guard fun _ => .bind (.within (classEntry_keeps hI o hc)) fun _ _ => ?_
    exact .bind (ih _ hcs) fun _ _ => .pure trivial

end

end Gather

/-! ## What references leave alone -/

namespace Gathered

/-- A part of what has been gathered that names, types, members and stored lists do not change. -/
structure Blind {γ : Type} (v : Gathered → γ) : Prop where
  strings : ∀ g strings, v { g with strings } = v g
  types : ∀ g types, v { g with types } = v g
  protos : ∀ g protos, v { g with protos } = v g
  fields : ∀ g fields, v { g with fields } = v g
  methods : ∀ g methods, v { g with methods } = v g
  typeLists : ∀ (g : Gathered) typeLists, v { g with items := { g.items with typeLists } } = v g
  encodedArrays : ∀ (g : Gathered) encodedArrays,
    v { g with items := { g.items with encodedArrays } } = v g

namespace Blind

variable {γ : Type} {v : Gathered → γ} (hv : Blind v)
include hv

theorem addString (g : Gathered) (s : String) : v (g.addString s) = v g := hv.strings g _

theorem addType (g : Gathered) (t : TypeId) : v (g.addType t) = v g :=
  (hv.strings _ _).trans (hv.types g _)

theorem addTypes (types : List TypeId) (g : Gathered) :
    v (types.foldl Gathered.addType g) = v g := by
  induction types generalizing g with
  | nil => rfl
  | cons t types ih => exact (ih _).trans (hv.addType g t)

theorem addProto (g : Gathered) (p : ProtoId) : v (g.addProto p) = v g := by
  have htypes : v (p.parameters.foldl Gathered.addType
      (({ g with protos := (g.protos.insert p).2 }.addString p.shorty).addType p.returnType)) =
        v g := by
    rw [hv.addTypes, hv.addType, hv.addString, hv.protos]
  unfold Gathered.addProto
  dsimp only
  split
  · exact htypes
  · exact (hv.typeLists _ _).trans htypes

theorem addField (g : Gathered) (f : FieldId) : v (g.addField f) = v g := by
  rw [Gathered.addField, hv.addType, hv.addString, hv.addType, hv.fields]

theorem addMethod (g : Gathered) (m : MethodId) : v (g.addMethod m) = v g := by
  rw [Gathered.addMethod, hv.addProto, hv.addString, hv.addType, hv.methods]

/-- A method handle itself is all that matters of it. -/
theorem addMethodHandle (g : Gathered) (h : MethodHandle) :
    v (g.addMethodHandle h) = v { g with methodHandles := (g.methodHandles.insert h).2 } := by
  obtain ⟨kind, member⟩ := h
  cases member with
  | field f => exact hv.addField _ f
  | method m => exact hv.addMethod _ m

theorem addCallSite (g : Gathered) (c : CallSite) :
    v (g.addCallSite c) = v ({ g with
      callSites := (g.callSites.insert c).2 }.addMethodHandle c.handle) := by
  rw [Gathered.addCallSite, hv.encodedArrays, hv.addProto, hv.addString]

theorem add_of_isPlain (g : Gathered) {r : Reference} (hr : r.IsPlain) : v (g.add r) = v g := by
  cases r with
  | string s => exact hv.addString g s
  | type t => exact hv.addType g t
  | field f => exact hv.addField g f
  | method m => exact hv.addMethod g m
  | proto p => exact hv.addProto g p
  | raw _ => rfl
  | callSite _ | methodHandle _ => exact hr.elim

end Blind

end Gathered

end Dalvik
