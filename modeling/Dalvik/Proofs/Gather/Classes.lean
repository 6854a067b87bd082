import Dalvik.Proofs.Gather.Steps

/-!
# What is gathered for a class

The entry of a class names the items that were stored for it by their ids. Each description below
says of an entry which items these are, and that whatever else the class refers to is there.
-/
namespace Dalvik
open Gathered Result

/-- The id is that of the part, if there is one. -/
def Gathered.Places (g : Gathered) : Option Part → Option Nat → Prop
  | none, none => True
  | some p, some id => g.id? p = some id
  | _, _ => False

theorem Gathered.Places.exists_part {g : Gathered} {part : Option Part} {id : Option Nat}
    (h : g.Places part id) {i : Nat} (hi : i ∈ id) : ∃ p ∈ part, g.id? p = some i := by
  obtain rfl := Option.mem_def.mp hi
  cases part with
  | none => exact h.elim
  | some p => exact ⟨p, rfl, h⟩

/-- The debug information of a method has an id. -/
theorem Gathered.has_debugAt {g : Gathered} {d : Option DebugInfo} {id : Nat}
    (h : g.Places (d.map .debugInfo) (some id)) : g.Has (.debugAt id) := by
  cases d with
  | none => exact h.elim
  | some d =>
    have : g.items.debugInfos.get? id = some d := ItemSet.id?_eq_some_iff.mp h
    exact ⟨id, by rw [id?, this]; rfl⟩

namespace Gather

variable {o : WriteOptions} {P : Gathered → Prop}

/-! ## Annotations -/

theorem deferAll_spec (annotations : List AnnotationItem) :
    Triple o P (modify fun g => annotations.foldl (fun g a => g.defer (.annotated a)) g)
      fun _ g => ∀ a ∈ annotations, ∀ q ∈ (Part.annotationItem a).needs, g.Will q := by
  refine fun g hg hP => ⟨trivial, fun _ g₁ h => ?_⟩
  clear hP
  cases h
  induction annotations generalizing g with
  | nil => exact ⟨hg, le_rfl, fun _ _ => nofun⟩
  | cons a as ih =>
    obtain ⟨hs, hle, hw⟩ := ih _ (hg.defer (.annotated a))
    refine ⟨hs, (le_defer g _).trans hle, fun g' hle' => List.forall_mem_cons.mpr ⟨?_, hw g' hle'⟩⟩
    exact fun q hq => (will_defer g hq).of_le (hle.trans hle')

theorem mem_sortedSet {annotations set : List AnnotationItem}
    (h : AnnotationItem.sortedSet annotations = .ok set) {a : AnnotationItem} :
    a ∈ set ↔ a ∈ annotations := by
  unfold AnnotationItem.sortedSet at h
  dsimp only at h
  split at h
  · cases h
  · cases h
    exact (sortedBy_perm _ _).mem_iff

theorem resolved_sortedSet (annotations : List AnnotationItem) :
    (AnnotationItem.sortedSet annotations).Resolved := by
  unfold AnnotationItem.sortedSet
  dsimp only
  split
  · exact resolved_violation _
  · trivial

theorem annotationSet_spec (annotations : List AnnotationItem) :
    Triple o P (annotationSet annotations) fun set g =>
      AnnotationItem.sortedSet annotations = .ok set ∧ ∀ p ∈ Part.ofSet set, g.Will p := by
  refine .bind (.lift (Q := fun set _ => AnnotationItem.sortedSet annotations = .ok set)
    (resolved_sortedSet annotations) fun _ h _ _ => h) fun set => ?_
  refine .bind (deferAll_spec annotations) fun _ => ?_
  refine .bind (.forIn (Q := fun a g => g.Will (.annotationItem a)) fun a ha => ?_) fun _ => ?_
  · refine .bind (share_spec (p := .annotationItem a) (fun _ => rfl)
      (fun _ => ItemSet.id?_insert_self _ _) nofun fun g hg => ?_) fun id => ?_
    · exact hg.2 a ((mem_sortedSet hg.1.2).mp ha)
    · exact .pure fun g hg => ⟨rfl, .inl ⟨id, hg.2⟩⟩
  · refine .ite (fun hne => ?_) fun he => ?_
    · refine .bind (share_spec (p := .annotationSet set) (fun _ => rfl)
        (fun _ => ItemSet.id?_insert_self _ _) nofun fun g hg q hq => ?_) fun id => ?_
      · obtain ⟨a, ha, rfl⟩ := List.mem_map.mp hq
        exact hg.2 a ha
      · refine .pure fun g hg => ⟨hg.1.1.1.2, fun p hp => ?_⟩
        rw [Part.ofSet, if_neg (by simpa using hne)] at hp
        exact List.mem_singleton.mp hp ▸ .inl ⟨id, hg.2⟩
    · refine .pure fun g hg => ⟨hg.1.1.2, fun p hp => ?_⟩
      rw [Part.ofSet, if_pos (by simpa using he)] at hp
      exact absurd hp List.not_mem_nil

/-- The set of each parameter of a method. -/
def parameterSetsOf (m : MethodDef) : Result (List (List AnnotationItem)) :=
  m.parameters.mapM fun p => AnnotationItem.sortedSet p.annotations

/-- The end that is cut off a list. -/
theorem exists_trim {α : Type} (test : α → Bool) (as : List α) :
    ∃ tail, as = (as.reverse.dropWhile test).reverse ++ tail ∧ ∀ a ∈ tail, test a := by
  refine ⟨(as.reverse.takeWhile test).reverse, ?_, fun a ha => ?_⟩
  · rw [← List.reverse_append, List.takeWhile_append_dropWhile, List.reverse_reverse]
  · exact List.mem_takeWhile_imp (List.mem_reverse.mp ha)

/-- What is left when the end of a list has been cut off was there before. -/
theorem mem_of_mem_trim {α : Type} {test : α → Bool} {as : List α} {a : α}
    (h : a ∈ (as.reverse.dropWhile test).reverse) : a ∈ as := by
  have := (List.dropWhile_sublist _).mem (List.mem_reverse.mp h)
  exact List.mem_reverse.mp this

theorem parameterSets_spec (m : MethodDef) :
    Triple o P (parameterSets m) fun sets g =>
      (∃ all, parameterSetsOf m = .ok all ∧ sets = AnnotationItem.trimEmpty all) ∧
        (sets ≠ [] → g.Will (.annotationSetList sets)) := by
  refine .bind (.mapM fun p _ => annotationSet_spec p.annotations) fun all => ?_
  have sorted {g : Gathered} (h : List.Forall₂ (fun (p : Parameter) set =>
      AnnotationItem.sortedSet p.annotations = .ok set ∧ ∀ q ∈ Part.ofSet set, g.Will q)
      m.parameters all) : parameterSetsOf m = .ok all :=
    mapM_eq_ok.mpr (h.imp fun _ _ => And.left)
  refine .ite (fun hne => ?_) fun he => ?_
  · refine .bind (share_spec (p := .annotationSetList (AnnotationItem.trimEmpty all))
      (fun _ => rfl) (fun _ => ItemSet.id?_insert_self _ _) nofun fun g hg q hq => ?_) fun id => ?_
    · obtain ⟨set, hset, hq⟩ := List.mem_flatMap.mp hq
      obtain ⟨p, -, h⟩ := exists_left_of_mem hg.2 (mem_of_mem_trim hset)
      exact h.2 q hq
    · exact .pure fun g hg => ⟨⟨all, sorted hg.1.2, rfl⟩, fun _ => .inl ⟨id, hg.2⟩⟩
  · refine .pure fun g hg => ⟨⟨all, sorted hg.2, rfl⟩, fun hne => ?_⟩
    simp at he
    exact absurd he hne

/-! ## Methods -/

theorem debugOf_spec (d : DebugInfo) :
    Triple o P (debugOf d) fun id g =>
      g.Places (if d.isEmpty then none else some (.debugInfo d)) id := by
  refine .ite (fun he => .pure fun _ _ => ?_) fun hne => ?_
  · rw [if_pos he]
    trivial
  refine .bind (.forIn (Q := fun name g => ∀ s ∈ name, g.Will (.reference (.string s)))
    fun name _ => ?_) fun _ => ?_
  · refine .bind (.option_forM fun s _ => refer_spec (.string s)) fun _ => ?_
    exact .pure fun g hg => ⟨rfl, hg.2⟩
  refine .bind (.forIn (Q := fun i g => (∀ s ∈ i.strings, g.Will (.reference (.string s))) ∧
    ∀ t ∈ i.types, g.Will (.reference (.type t))) fun i _ => ?_) fun _ => ?_
  · refine .bind (.forM fun s _ => refer_spec (.string s)) fun _ => ?_
    refine .bind (.forM fun t _ => refer_spec (.type t)) fun _ => ?_
    exact .pure fun g hg => ⟨rfl, hg.1.2, hg.2⟩
  refine .bind (debugInfo_spec fun g hg r hr => ?_) fun id => .pure fun g hg => ?_
  · obtain ⟨⟨-, names⟩, items⟩ := hg
    simp only [DebugInfo.references, List.mem_append, List.mem_flatMap, List.mem_map] at hr
    rcases hr with ⟨name, hname, s, hs, rfl⟩ | ⟨i, hi, ⟨s, hs, rfl⟩ | ⟨t, ht, rfl⟩⟩
    · exact names name hname s (by simpa using hs)
    · exact (items i hi).1 s hs
    · exact (items i hi).2 t ht
  · rw [if_neg hne]
    exact hg.2

end Gather

/-- The debug information that is stored for a method. -/
def MethodDef.storedDebug (o : WriteOptions) (m : MethodDef) : Option DebugInfo :=
  m.code.bind fun c =>
    if o.options.debugInfo then
      if (m.debugInfo c).isEmpty then none else some (m.debugInfo c)
    else none

/-- The code item of a method whose debug information has the given id. -/
def MethodDef.sharedCode (o : WriteOptions) (m : MethodDef) (debug : Option Nat) :
    Option SharedCode :=
  m.code.map fun c => {
    code := c
    incoming := m.incoming.toUInt16
    outgoing := c.outgoing
    debug := if o.version.isCompact then none else debug }

/-- The entry of a method, with the sets of annotations that were stored for it and for its
parameters. -/
structure Gathered.HoldsMethod (o : WriteOptions) (g : Gathered) (p : MethodId × MethodDef)
    (e : MethodEntry × List AnnotationItem × List (List AnnotationItem)) : Prop where
  definition : e.1.definition = p.2
  id : e.1.id = p.1
  reference : g.Will (.reference (.method p.1))
  debug : g.Places ((p.2.storedDebug o).map .debugInfo) e.1.debug
  code : g.Places ((p.2.sharedCode o e.1.debug).map .code) e.1.code
  registers : ∀ c ∈ p.2.code, p.2.incoming ≤ c.registers.toNat
  set : AnnotationItem.sortedSet p.2.annotations = .ok e.2.1
  sets : ∃ all, Gather.parameterSetsOf p.2 = .ok all ∧ e.2.2 = AnnotationItem.trimEmpty all
  set_will : ∀ q ∈ Part.ofSet e.2.1, g.Will q
  sets_will : e.2.2 ≠ [] → g.Will (.annotationSetList e.2.2)

namespace Gather

variable {o : WriteOptions} {P : Gathered → Prop}

theorem method_spec (o : WriteOptions) (id : MethodId) (m : MethodDef) :
    Triple o P (method o id m) fun e g => g.HoldsMethod o (id, m) e := by
  refine .bind (refer_spec (.method id)) fun _ => ?_
  refine .bind (annotationSet_spec m.annotations) fun set => ?_
  refine .bind (parameterSets_spec m) fun sets => ?_
  cases hc : m.code with
  | none =>
    exact .pure fun g ⟨⟨⟨_, reference⟩, own⟩, params⟩ => {
      definition := rfl
      id := rfl
      reference
      debug := by rw [MethodDef.storedDebug, hc]; trivial
      code := by rw [MethodDef.sharedCode, hc]; trivial
      registers := by simp [hc]
      set := own.1
      sets := params.1
      set_will := own.2
      sets_will := params.2 }
  | some c =>
    refine .guard fun hregs => ?_
    refine .bind (.forIn (Q := fun i g => ∀ r ∈ i.references, g.Will (.reference r))
      fun i _ => ?_) fun _ => ?_
    · refine .bind (.forM fun r _ => refer_spec r) fun _ => ?_
      exact .pure fun g hg => ⟨rfl, hg.2⟩
    refine .bind (.forIn (Q := fun t g => ∀ h ∈ t.handler.handlers,
      g.Will (.reference (.type h.type))) fun t _ => ?_) fun _ => ?_
    · refine .bind (.forIn (Q := fun h g => g.Will (.reference (.type h.type))) fun h _ => ?_)
        fun _ => .pure fun g hg => ⟨rfl, hg.2⟩
      exact .bind (refer_spec (.type h.type)) fun _ => .pure fun g hg => ⟨rfl, hg.2⟩
    -- the debug information comes first, since a standard code item points to it
    have stored : (m.storedDebug o).map Part.debugInfo = if o.options.debugInfo then
        if (m.debugInfo c).isEmpty then none else some (.debugInfo (m.debugInfo c)) else none := by
      simp only [MethodDef.storedDebug, hc, Option.bind_some, apply_ite (Option.map Part.debugInfo),
        Option.map_none, Option.map_some]
    refine .ite_bind (Q := fun debug g => g.Places ((m.storedDebug o).map .debugInfo) debug)
      (.ite (fun hd => ?_) fun hd => .pure fun g _ => ?_) fun debug? => ?_
    · rw [stored, if_pos hd]
      exact debugOf_spec _
    · rw [stored, if_neg hd]
      trivial
    refine .bind (sharedCode_spec (fun ho => if_pos ho) fun g hg q hq => ?_) fun code => .pure fun g hg => ?_
    · obtain ⟨⟨⟨-, instructions⟩, handlers⟩, debug⟩ := hg
      rcases List.mem_append.mp hq with hq | hq
      · obtain ⟨r, hr, rfl⟩ := List.mem_map.mp hq
        simp only [Code.references, List.mem_append, List.mem_flatMap, List.mem_map] at hr
        rcases hr with ⟨i, hi, hr⟩ | ⟨t, ht, h, hh, rfl⟩
        · exact instructions i hi r hr
        · exact handlers t ht h hh
      · obtain ⟨i, hi, rfl⟩ := List.mem_map.mp hq
        have : debug? = some i := by
          cases hv : o.version.isCompact <;> simp_all
        exact .inl (has_debugAt (this ▸ debug))
    · obtain ⟨⟨⟨⟨⟨⟨-, reference⟩, own⟩, params⟩, -⟩, -⟩, debug⟩ := hg.1
      exact {
        definition := rfl
        id := rfl
        reference
        debug
        code := by rw [MethodDef.sharedCode, hc]; exact hg.2
        registers := by simpa [hc] using hregs
        set := own.1
        sets := params.1
        set_will := own.2
        sets_will := params.2 }

end Gather

/-! ## Fields -/

/-- The value that a static field starts with. -/
def FieldEntry.initial (f : FieldEntry) : Result Value :=
  match f.definition.value with
  | some v => .ok v
  | none => Value.defaultFor f.definition.type

/-- A field with the set of annotations that was stored for it. -/
structure Gathered.HoldsField (g : Gathered) (f : FieldEntry) (e : FieldId × List AnnotationItem) :
    Prop where
  id : e.1 = f.id
  reference : g.Will (.reference (.field f.id))
  set : AnnotationItem.sortedSet f.definition.annotations = .ok e.2
  set_will : ∀ q ∈ Part.ofSet e.2, g.Will q

theorem Value.resolved_defaultFor (t : TypeId) : (Value.defaultFor t).Resolved := by
  unfold Value.defaultFor
  split <;> first | trivial | exact resolved_violation _

/-- A default value refers to nothing and has no values inside. -/
theorem Value.flat_defaultFor {t : TypeId} {v : Value} (h : Value.defaultFor t = .ok v) :
    v.references = [] ∧ v.depth = 0 := by
  unfold Value.defaultFor at h
  split at h <;> cases h <;> simp only [Value.references, Value.depth, and_self]

namespace Gather

variable {o : WriteOptions} {P : Gathered → Prop}

theorem field_spec (f : FieldEntry) : Triple o P (field f) fun e g => g.HoldsField f e := by
  refine .bind (refer_spec (.field f.id)) fun _ => ?_
  refine .bind (.within (annotationSet_spec f.definition.annotations)) fun set => ?_
  exact .pure fun g ⟨⟨_, reference⟩, own⟩ => ⟨rfl, reference, own.1, own.2⟩

theorem initialValue_spec (f : FieldEntry) :
    Triple o P (initialValue f) fun v g =>
      f.initial = .ok v ∧ ∀ q ∈ (Deferred.value v).promises, g.Will q := by
  unfold initialValue
  cases hv : f.definition.value with
  | some v =>
    refine .bind (defer_spec (.value v)) fun _ => .pure fun g hg => ?_
    exact ⟨by rw [FieldEntry.initial, hv], hg.2⟩
  | none =>
    refine .within (.lift (Value.resolved_defaultFor _) fun v h g _ => ?_)
    refine ⟨by rw [FieldEntry.initial, hv]; exact h, ?_⟩
    obtain ⟨references, depth⟩ := Value.flat_defaultFor h
    rw [Deferred.promises, references, depth]
    intro q hq
    obtain rfl := List.mem_singleton.mp hq
    exact .inl (has_nesting_iff.mpr (Nat.zero_le _))

theorem resolved_checkDistinct {ι : Type} [BEq ι] [Hashable ι] [ToString ι] (what : String)
    (ids : List ι) : (checkDistinct what ids).Resolved := by
  unfold checkDistinct
  split
  · exact resolved_violation _
  · trivial

theorem nodup_of_checkDistinct {ι : Type} [BEq ι] [LawfulBEq ι] [Hashable ι] [ToString ι]
    {what : String} {ids : List ι} (h : checkDistinct what ids = .ok ()) : ids.Nodup := by
  unfold checkDistinct at h
  split at h
  · cases h
  next hnone => exact ItemSet.nodup_of_firstRepeated? hnone

/-! ## Classes -/

/-- The fields of a class in the order of their ids. -/
def fieldEntries (c : ClassDef) (fields : List FieldDef) : List FieldEntry :=
  (sortedMembers c.fieldId fields).map fun (id, definition) => { id, definition }

/-- The directory of a class, unless nothing in the class has annotations. -/
def directoryOf (c : ClassDef) (ofClass : List AnnotationItem)
    (fields : List (FieldId × List AnnotationItem))
    (methods : List (MethodEntry × List AnnotationItem × List (List AnnotationItem))) :
    Option AnnotationDirectory :=
  let d : AnnotationDirectory := {
    owner := none
    ofClass
    ofFields := fields.filter fun (_, set) => !set.isEmpty
    ofMethods := methods.filterMap fun (m, set, _) =>
      if set.isEmpty then none else some (m.id, set)
    ofParameters := methods.filterMap fun (m, _, sets) =>
      if sets.isEmpty then none else some (m.id, sets) }
  if !(d.ofFields.isEmpty && d.ofMethods.isEmpty && d.ofParameters.isEmpty) then
    some { d with owner := some c.type }
  else if ofClass.isEmpty then none else some d

end Gather

/-- The part for a list that is stored unless it is empty. -/
def Part.unlessEmpty {α : Type} (part : List α → Part) (items : List α) : Option Part :=
  if items.isEmpty then none else some (part items)

theorem Gathered.places_none {α : Type} {g : Gathered} {part : List α → Part} {items : List α}
    (h : items.isEmpty) : g.Places (Part.unlessEmpty part items) none := by
  rw [Part.unlessEmpty, if_pos h]
  trivial

theorem Gathered.places_some {α : Type} {g : Gathered} {part : List α → Part} {items : List α}
    {id : Nat} (h : ¬ items.isEmpty) (hid : g.id? (part items) = some id) :
    g.Places (Part.unlessEmpty part items) (some id) := by
  rw [Part.unlessEmpty, if_neg h]
  exact hid

theorem Gathered.Places.id?_eq {α : Type} {g : Gathered} {part : List α → Part} {items : List α}
    {id : Option Nat} (h : g.Places (Part.unlessEmpty part items) id) {i : Nat} (hi : i ∈ id) :
    g.id? (part items) = some i := by
  obtain ⟨p, hp, hid⟩ := h.exists_part hi
  rw [Part.unlessEmpty] at hp
  split at hp
  · cases hp
  · rwa [Option.some.inj hp]

/-- The annotations that were stored for a class and for its members. -/
structure Gathered.HoldsMembers (o : WriteOptions) (g : Gathered) (c : ClassDef) (e : ClassEntry)
    (ofClass : List AnnotationItem) (ofFields : List (FieldId × List AnnotationItem))
    (ofMethods : List (MethodEntry × List AnnotationItem × List (List AnnotationItem))) :
    Prop where
  set : AnnotationItem.sortedSet c.annotations = .ok ofClass
  set_will : ∀ q ∈ Part.ofSet ofClass, g.Will q
  fields : List.Forall₂ g.HoldsField e.fields ofFields
  methods : List.Forall₂ (g.HoldsMethod o)
    (Gather.sortedMembers c.methodId c.directMethods ++
      Gather.sortedMembers c.methodId c.virtualMethods) ofMethods
  directMethods : e.directMethods =
    (ofMethods.take (Gather.sortedMembers c.methodId c.directMethods).length).map Prod.fst
  virtualMethods : e.virtualMethods =
    (ofMethods.drop (Gather.sortedMembers c.methodId c.directMethods).length).map Prod.fst

/-- The entry of a class. -/
structure Gathered.HoldsClass (o : WriteOptions) (g : Gathered) (c : ClassDef) (e : ClassEntry) :
    Prop where
  definition : e.definition = c
  type : g.Will (.reference (.type c.type))
  superclass : ∀ t ∈ c.superclass, g.Will (.reference (.type t))
  sourceFile : ∀ s ∈ c.sourceFile, g.Will (.reference (.string s))
  interfaces : g.Places (Part.unlessEmpty .typeList c.interfaces) e.interfaces
  staticFields : e.staticFields = Gather.fieldEntries c c.staticFields
  instanceFields : e.instanceFields = Gather.fieldEntries c c.instanceFields
  distinctFields : Gather.checkDistinct "field" (e.fields.map FieldEntry.id) = .ok ()
  distinctMethods : Gather.checkDistinct "method"
    ((Gather.sortedMembers c.methodId c.directMethods ++
      Gather.sortedMembers c.methodId c.virtualMethods).map Prod.fst) = .ok ()
  instanceValues : ∀ f ∈ e.instanceFields, f.definition.value = none
  values : ∃ values, e.staticFields.mapM FieldEntry.initial = .ok values ∧
    g.Places (Part.unlessEmpty .encodedArray (Value.trimDefaults values)) e.staticValues
  members : ∃ ofClass fields methods, g.HoldsMembers o c e ofClass fields methods ∧
    g.Places ((Gather.directoryOf c ofClass fields methods).map .directory) e.annotations

theorem Gathered.HoldsClass.will_field {o : WriteOptions} {g : Gathered} {c : ClassDef}
    {e : ClassEntry} (h : g.HoldsClass o c e) {f : FieldEntry} (hf : f ∈ e.fields) :
    g.Will (.reference (.field f.id)) := by
  obtain ⟨_, _, _, members, -⟩ := h.members
  obtain ⟨_, -, holds⟩ := exists_left_of_mem members.fields.flip hf
  exact holds.reference

theorem Gathered.HoldsClass.holdsMethod {o : WriteOptions} {g : Gathered} {c : ClassDef}
    {e : ClassEntry} (h : g.HoldsClass o c e) {m : MethodEntry} (hm : m ∈ e.methods) :
    ∃ p sets, g.HoldsMethod o p (m, sets) := by
  obtain ⟨_, _, ofMethods, members, -⟩ := h.members
  have : m ∈ ofMethods.map Prod.fst := by
    rw [ClassEntry.methods, members.directMethods, members.virtualMethods, ← List.map_append,
      List.take_append_drop] at hm
    exact hm
  obtain ⟨x, hx, rfl⟩ := List.mem_map.mp this
  obtain ⟨p, -, holds⟩ := exists_left_of_mem members.methods hx
  exact ⟨p, x.2, holds⟩

namespace Gather

variable {o : WriteOptions} {P : Gathered → Prop}

/-- A directory holds the annotations that were stored, without the empty sets. -/
theorem exists_owner_of_directoryOf {c : ClassDef} {ofClass : List AnnotationItem}
    {ofFields : List (FieldId × List AnnotationItem)}
    {ofMethods : List (MethodEntry × List AnnotationItem × List (List AnnotationItem))}
    {d : AnnotationDirectory} (h : directoryOf c ofClass ofFields ofMethods = some d) :
    ∃ owner, d = {
      owner
      ofClass
      ofFields := ofFields.filter fun (_, set) => !set.isEmpty
      ofMethods := ofMethods.filterMap fun (m, set, _) =>
        if set.isEmpty then none else some (m.id, set)
      ofParameters := ofMethods.filterMap fun (m, _, sets) =>
        if sets.isEmpty then none else some (m.id, sets) } := by
  unfold directoryOf at h
  dsimp only at h
  split at h
  · exact ⟨some c.type, (Option.some.inj h).symm⟩
  · split at h
    · cases h
    · exact ⟨none, (Option.some.inj h).symm⟩

/-- Without a directory nothing in the class has annotations. -/
theorem eq_nil_of_directoryOf {c : ClassDef} {ofClass : List AnnotationItem}
    {ofFields : List (FieldId × List AnnotationItem)}
    {ofMethods : List (MethodEntry × List AnnotationItem × List (List AnnotationItem))}
    (h : directoryOf c ofClass ofFields ofMethods = none) :
    ofClass = [] ∧ (∀ e ∈ ofFields, e.2 = []) ∧ ∀ e ∈ ofMethods, e.2.1 = [] ∧ e.2.2 = [] := by
  unfold directoryOf at h
  dsimp only at h
  split at h
  · cases h
  next hempty =>
    split at h
    next hclass =>
      simp only [Bool.not_eq_true', Bool.not_eq_false, Bool.and_eq_true, List.isEmpty_iff,
        List.filter_eq_nil_iff, List.filterMap_eq_nil_iff] at hempty
      obtain ⟨⟨fields, methods⟩, parameters⟩ := hempty
      refine ⟨List.isEmpty_iff.mp hclass, fun e he => ?_, fun e he => ⟨?_, ?_⟩⟩
      · simpa using fields e he
      · simpa using methods e he
      · simpa using parameters e he
    · cases h

/-- A directory needs no more than what was stored for the class and for its members. -/
theorem will_ofDirectory {o : WriteOptions} {g : Gathered} {c : ClassDef}
    {ofClass : List AnnotationItem} {fields : List FieldEntry}
    {ofFields : List (FieldId × List AnnotationItem)} {methods : List (MethodId × MethodDef)}
    {ofMethods : List (MethodEntry × List AnnotationItem × List (List AnnotationItem))}
    (hc : ∀ q ∈ Part.ofSet ofClass, g.Will q) (hf : List.Forall₂ g.HoldsField fields ofFields)
    (hm : List.Forall₂ (g.HoldsMethod o) methods ofMethods) {d : AnnotationDirectory}
    (h : directoryOf c ofClass ofFields ofMethods = some d) :
    ∀ q ∈ Part.ofDirectory d, g.Will q := by
  obtain ⟨owner, rfl⟩ := exists_owner_of_directoryOf h
  intro q hq
  simp only [Part.ofDirectory, List.mem_append, List.mem_flatMap, List.mem_filter,
    List.mem_filterMap, List.mem_cons] at hq
  rcases hq with ((hq | ⟨e, ⟨he, -⟩, hq⟩) | ⟨e, ⟨m, hm', he⟩, hq⟩) | ⟨e, ⟨m, hm', he⟩, hq⟩
  · exact hc q hq
  · obtain ⟨f, -, holds⟩ := exists_left_of_mem hf he
    rcases hq with rfl | hq
    · exact holds.id ▸ holds.reference
    · exact holds.set_will q hq
  · obtain ⟨p, -, holds⟩ := exists_left_of_mem hm hm'
    split at he
    · cases he
    · cases he
      rcases hq with rfl | hq
      · exact holds.id ▸ holds.reference
      · exact holds.set_will q hq
  · obtain ⟨p, -, holds⟩ := exists_left_of_mem hm hm'
    split at he
    · cases he
    next hne =>
      cases he
      rcases hq with rfl | rfl | hq
      · exact holds.id ▸ holds.reference
      · exact holds.sets_will (by simpa using hne)
      · exact absurd hq List.not_mem_nil

/-- Values need no more than each of them. -/
theorem mem_referencesAll {r : Reference} {vs : List Value} (h : r ∈ Value.referencesAll vs) :
    ∃ v ∈ vs, r ∈ v.references := by
  induction vs with
  | nil => simp [Value.referencesAll] at h
  | cons v vs ih =>
    rw [Value.referencesAll, List.mem_append] at h
    rcases h with h | h
    · obtain ⟨w, hw, hr⟩ := ih h
      exact ⟨w, List.mem_cons_of_mem v hw, hr⟩
    · exact ⟨v, List.mem_cons_self, h⟩

theorem will_encodedArray {g : Gathered} {fields : List FieldEntry} {values : List Value}
    (h : List.Forall₂ (fun f v => f.initial = .ok v ∧
      ∀ q ∈ (Deferred.value v).promises, g.Will q) fields values) :
    ∀ q ∈ (Part.encodedArray (Value.trimDefaults values)).needs, g.Will q := by
  intro q hq
  rcases List.mem_append.mp hq with hq | hq
  · obtain ⟨r, hr, rfl⟩ := List.mem_map.mp hq
    obtain ⟨v, hv, hr⟩ := mem_referencesAll hr
    obtain ⟨f, -, hf⟩ := exists_left_of_mem h (mem_of_mem_trim hv)
    exact hf.2 _ (List.mem_cons_of_mem _ (List.mem_map.mpr ⟨r, hr, rfl⟩))
  · obtain ⟨v, hv, rfl⟩ := List.mem_map.mp hq
    obtain ⟨f, -, hf⟩ := exists_left_of_mem h (mem_of_mem_trim hv)
    exact hf.2 _ List.mem_cons_self

theorem classEntry_spec (o : WriteOptions) (c : ClassDef) :
    Triple o P (classEntry o c) fun e g => g.HoldsClass o c e := by
  refine .bind (refer_spec (.type c.type)) fun _ => ?_
  refine .bind (.option_forM fun t _ => refer_spec (.type t)) fun _ => ?_
  refine .bind (.forM fun t _ => refer_spec (.type t)) fun _ => ?_
  refine .ite_bind (Q := fun id g => g.Places (Part.unlessEmpty .typeList c.interfaces) id)
    (.ite (fun he => .pure fun _ _ => places_none he) fun he => .map ?_) fun interfaces => ?_
  · exact (typeList_spec fun g hg => hg.2).imp fun _ _ _ hid => places_some he hid
  refine .bind (.option_forM fun s _ => refer_spec (.string s)) fun _ => ?_
  refine .bind (.lift (Q := fun _ _ => checkDistinct "field"
    ((fieldEntries c c.staticFields ++ fieldEntries c c.instanceFields).map FieldEntry.id) = .ok ())
    (resolved_checkDistinct _ _) fun _ h _ _ => h) fun _ => ?_
  refine .bind (.lift (Q := fun _ _ => checkDistinct "method"
    ((sortedMembers c.methodId c.directMethods ++
      sortedMembers c.methodId c.virtualMethods).map Prod.fst) = .ok ())
    (resolved_checkDistinct _ _) fun _ h _ _ => h) fun _ => ?_
  refine .bind (annotationSet_spec c.annotations) fun ofClass => ?_
  refine .bind (.mapM fun f _ => field_spec f) fun ofFields => ?_
  refine .bind (.mapM fun f _ => initialValue_spec f) fun values => ?_
  refine .bind (.forIn (Q := fun f _ => f.definition.value = none) fun f _ => ?_) fun _ => ?_
  · exact .guard fun hv => .pure fun _ _ => ⟨rfl, by simpa using hv⟩
  refine .ite_bind (Q := fun id g =>
      g.Places (Part.unlessEmpty .encodedArray (Value.trimDefaults values)) id)
    (.ite (fun he => .pure fun _ _ => places_none he) fun he => .map ?_) fun staticValues => ?_
  · exact (encodedArray_spec fun g hg => will_encodedArray hg.1.2).imp
      fun _ _ _ hid => places_some he hid
  refine .bind (.mapM fun p _ => .within (method_spec o p.1 p.2)) fun ofMethods => ?_
  refine .ite_ite_bind (Q := fun id g =>
      g.Places ((directoryOf c ofClass ofFields ofMethods).map .directory) id)
    (.ite (fun hd => .map ?_) fun hd => .ite (fun he => .pure fun _ _ => ?_) fun he => .map ?_)
    fun annotations => .pure fun g hg => ?_
  · have some_d : directoryOf c ofClass ofFields ofMethods = some _ := if_pos hd
    refine (directory_spec fun g hg => ?_).imp fun _ _ _ hid => some_d ▸ hid
    obtain ⟨⟨⟨⟨⟨⟨-, own⟩, fields⟩, -⟩, -⟩, -⟩, methods⟩ := hg
    exact will_ofDirectory own.2 fields methods some_d
  · have none_d : directoryOf c ofClass ofFields ofMethods = none := (if_neg hd).trans (if_pos he)
    rw [none_d]
    trivial
  · have some_d : directoryOf c ofClass ofFields ofMethods = some _ := (if_neg hd).trans (if_neg he)
    refine (directory_spec fun g hg => ?_).imp fun _ _ _ hid => some_d ▸ hid
    obtain ⟨⟨⟨⟨⟨⟨-, own⟩, fields⟩, -⟩, -⟩, -⟩, methods⟩ := hg
    exact will_ofDirectory own.2 fields methods some_d
  · obtain ⟨⟨⟨⟨⟨⟨⟨⟨⟨⟨⟨⟨⟨⟨-, type⟩, superclass⟩, -⟩, interfaces⟩, sourceFile⟩, distinctFields⟩,
      distinctMethods⟩, own⟩, fields⟩, values⟩, instanceValues⟩, staticValues⟩, methods⟩,
      directory⟩ := hg
    exact {
      definition := rfl
      type, superclass, sourceFile, interfaces
      staticFields := rfl
      instanceFields := rfl
      distinctFields, distinctMethods, instanceValues
      values := ⟨_, mapM_eq_ok.mpr (values.imp fun _ _ => And.left), staticValues⟩
      members := ⟨ofClass, ofFields, ofMethods,
        ⟨own.1, own.2, fields, methods, rfl, rfl⟩, directory⟩ }

theorem classEntries_spec (o : WriteOptions) (seen : ItemSet TypeId) (cs : List ClassDef) :
    Triple o P (classEntries o seen cs) fun es g => List.Forall₂ (g.HoldsClass o) cs es := by
  induction cs generalizing seen P with
  | nil => exact .pure fun _ _ => .nil
  | cons c cs ih =>
    refine .guard fun _ => .bind (.within (classEntry_spec o c)) fun e => ?_
    exact .bind (ih _) fun es => .pure fun g hg => .cons hg.1.2 hg.2

end Gather

/-! ## Files -/

theorem Gathered.sound_empty (o : WriteOptions) : Gathered.Sound o {} := by
  refine ⟨?_, fun _ c ⟨id, h⟩ => by simp [id?] at h⟩
  rintro ((_ | _ | _ | _ | _ | _ | _ | _) | _ | _ | _ | _ | _ | _ | _ | _ | _ | _) ⟨id, h⟩
  case reference.raw | debugAt | nesting => exact fun _ hq => absurd hq List.not_mem_nil
  all_goals simp [id?] at h

/-- The contents of a file are what has been gathered from its classes, with nothing set aside. -/
structure Gathered.Fills (o : WriteOptions) (d : Dex) (g : Gathered) (c : Contents) : Prop where
  deferred : g.deferred = []
  sound : g.Sound o
  pools : g.toPools = .ok c.pools
  items : c.items = g.items
  classes : List.Forall₂ (g.HoldsClass o) d.classes c.classes

/-- Whatever a part of the file needs is in the file. -/
theorem Gathered.Fills.has {o : WriteOptions} {d : Dex} {g : Gathered} {c : Contents}
    (h : g.Fills o d c) {p q : Part} (hp : g.Has p) (hq : q ∈ p.needs) : g.Has q :=
  (will_iff h.deferred).mp (h.sound.needs p hp q hq)

theorem Gathered.resolved_toPools (g : Gathered) : g.toPools.Resolved := by
  have check (kind : PoolKind) (size : Nat) : (Pools.checkSize kind size).Resolved :=
    resolved_ite (fun _ => trivial) fun _ => resolved_violation _
  exact (check _ _).bind fun _ _ => (check _ _).bind fun _ _ => (check _ _).bind fun _ _ =>
    (check _ _).bind fun _ _ => (check _ _).bind fun _ _ => (check _ _).bind fun _ _ => trivial

theorem Contents.resolved_ofDex (o : WriteOptions) (d : Dex) : (ofDex o d).Resolved := by
  have classes := Gather.classEntries_spec (P := fun _ => True) o ∅ d.classes {} (sound_empty o)
    fun _ _ => trivial
  exact classes.1.bind fun r _ => (resolved_settleAll r.2).bind fun g _ =>
    (resolved_toPools g).bind fun _ _ => trivial

theorem Contents.fills_of_ofDex {o : WriteOptions} {d : Dex} {c : Contents}
    (h : ofDex o d = .ok c) : ∃ g : Gathered, g.Fills o d c := by
  obtain ⟨⟨es, g₁⟩, hes, h⟩ := bind_eq_ok.mp h
  obtain ⟨g, hg, h⟩ := bind_eq_ok.mp h
  obtain ⟨pools, hpools, h⟩ := bind_eq_ok.mp h
  obtain rfl := pure_eq_ok.mp h
  have classes := Gather.classEntries_spec (P := fun _ => True) o ∅ d.classes {} (sound_empty o)
    fun _ _ => trivial
  obtain ⟨hsound, -, hclasses⟩ := classes.2 es g₁ hes
  obtain ⟨sound, le, deferred⟩ := settleAll_sound hsound hg
  exact ⟨g, deferred, sound, hpools, rfl, hclasses g le⟩

theorem Gather.nodup_types {o : WriteOptions} {seen : ItemSet TypeId} {classes : List ClassDef}
    {g : Gathered} {r : List ClassEntry × Gathered}
    (h : classEntries o seen classes g = .ok r) :
    (classes.map ClassDef.type).Nodup ∧ ∀ x ∈ classes, x.type ∉ seen.toList := by
  induction classes generalizing seen g r with
  | nil => simp
  | cons x classes ih =>
    rw [classEntries] at h
    split at h
    · cases h
    next hseen =>
      obtain ⟨⟨e, g₁⟩, -, h⟩ := bind_eq_ok.mp h
      obtain ⟨r₁, hrest, -⟩ := bind_eq_ok.mp h
      obtain ⟨hnodup, hnew⟩ := ih hrest
      rw [ItemSet.contains, ItemSet.isSome_id?_iff] at hseen
      simp only [ItemSet.mem_toList_insert, not_or] at hnew
      rw [List.map_cons, List.nodup_cons, List.forall_mem_cons]
      refine ⟨⟨fun hmem => ?_, hnodup⟩, hseen, fun y hy => (hnew y hy).1⟩
      obtain ⟨y, hy, heq⟩ := List.mem_map.mp hmem
      exact (hnew y hy).2 heq

/-- The types of the classes are distinct. -/
theorem Contents.nodup_types_of_ofDex {o : WriteOptions} {dex : Dex} {c : Contents}
    (h : ofDex o dex = .ok c) : (dex.classes.map ClassDef.type).Nodup := by
  obtain ⟨r, hr, -⟩ := bind_eq_ok.mp h
  exact (Gather.nodup_types hr).1

/-- No value in the items is nested deeper than reading allows. -/
structure Contents.Shallow (c : Contents) : Prop where
  encodedArrays : ∀ values ∈ c.items.encodedArrays.toList, ∀ v ∈ values, v.depth ≤ maxNesting
  annotations : ∀ a ∈ c.items.annotations.toList, a.value.depth ≤ maxNesting + 1

theorem Contents.shallow_of_ofDex {o : WriteOptions} {d : Dex} {c : Contents}
    (h : ofDex o d = .ok c) : c.Shallow := by
  obtain ⟨g, hg⟩ := fills_of_ofDex h
  constructor
  · intro values hvalues v hv
    rw [hg.items] at hvalues
    have hhas : g.Has (.encodedArray values) := ItemSet.mem_toList_iff.mp hvalues
    refine has_nesting_iff.mp (hg.has hhas (List.mem_append_right _ ?_))
    exact List.mem_map.mpr ⟨v, hv, rfl⟩
  · intro a ha
    rw [hg.items] at ha
    have hhas : g.Has (.annotationItem a) := ItemSet.mem_toList_iff.mp ha
    have hdepth := has_nesting_iff.mp (hg.has hhas List.mem_cons_self)
    omega

end Dalvik
