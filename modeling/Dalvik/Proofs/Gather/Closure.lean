import Dalvik.Proofs.Gather.Parts
import Dalvik.Proofs.Resolved
import Dalvik.Proofs.Result

/-!
# Gathering keeps what is gathered sound

Adding a part leaves a debt: what the part needs and nobody has added yet. Every way of adding a
reference pays its debt before it ends. What is set aside is a promise, and settling keeps it.
-/
namespace Dalvik

mutual

/-- No value refers to a call site. -/
theorem Value.callSite_notMem_references (v : Value) (c : CallSite) :
    .callSite c ∉ v.references := by
  match v with
  | .array values =>
    rw [Value.references]
    exact Value.callSite_notMem_referencesAll values c
  | .annotated a =>
    rw [Value.references]
    exact AnnotationValue.callSite_notMem_references a c
  | .methodType _ | .methodHandle _ | .string _ | .type _ | .field _ | .method _ | .enum _
  | .byte _ | .short _ | .char _ | .int _ | .long _ | .float _ | .double _ | .null
  | .boolean _ => simp [Value.references]

theorem Value.callSite_notMem_referencesAll (vs : List Value) (c : CallSite) :
    .callSite c ∉ Value.referencesAll vs := by
  match vs with
  | [] => simp [Value.referencesAll]
  | v :: vs =>
    simp only [Value.referencesAll, List.mem_append, not_or]
    exact ⟨Value.callSite_notMem_referencesAll vs c, Value.callSite_notMem_references v c⟩

theorem AnnotationValue.callSite_notMem_references (a : AnnotationValue) (c : CallSite) :
    .callSite c ∉ a.references := by
  match a with
  | ⟨type, elements⟩ =>
    simp only [AnnotationValue.references, List.mem_cons, reduceCtorEq, false_or]
    exact Element.callSite_notMem_referencesAll elements c

theorem Element.callSite_notMem_referencesAll (es : List Element) (c : CallSite) :
    .callSite c ∉ Element.referencesAll es := by
  match es with
  | [] => simp [Element.referencesAll]
  | ⟨name, v⟩ :: es =>
    simp only [Element.referencesAll, List.mem_append, List.mem_cons, reduceCtorEq, false_or,
      not_or]
    exact ⟨Element.callSite_notMem_referencesAll es c, Value.callSite_notMem_references v c⟩

end

namespace Gathered

variable {g g' g'' : Gathered} {p q : Part} {debt debt' : List Part}

/-! ## Debts -/

/-- From `g` to `g'` parts have been added, and those of their needs that are missing are among the
debts. Code is not among what has been added. -/
structure Adds (debt : List Part) (g g' : Gathered) : Prop where
  keeps : ∀ {p i}, g.id? p = some i → g'.id? p = some i
  deferred : g'.deferred = g.deferred
  needs : ∀ p, g'.Has p → g.Has p ∨ ∀ q ∈ p.needs, g'.Has q ∨ q ∈ debt
  code : ∀ c, g'.Has (.code c) → g.Has (.code c)

/-- Parts have been added, `p` among them. -/
structure Brings (p : Part) (debt : List Part) (g g' : Gathered) : Prop
    extends Adds debt g g' where
  has : g'.Has p

namespace Adds

theorem has (h : Adds debt g g') (hp : g.Has p) : g'.Has p := hp.elim fun i hi => ⟨i, h.keeps hi⟩

theorem refl (g : Gathered) : Adds debt g g := ⟨id, rfl, fun _ => .inl, fun _ => id⟩

theorem trans (h : Adds debt g g') (h' : Adds debt' g' g'') : Adds (debt ++ debt') g g'' where
  keeps hi := h'.keeps (h.keeps hi)
  deferred := h'.deferred.trans h.deferred
  needs p hp := by
    simp only [List.mem_append]
    rcases h'.needs p hp with hp | hp
    · refine (h.needs p hp).imp_right fun hq q hqp => ?_
      exact (hq q hqp).imp h'.has .inl
    · exact .inr fun q hqp => (hp q hqp).imp_right .inr
  code c hc := h.code c (h'.code c hc)

/-- A debt goes down to what is still missing. -/
theorem paid (h : Adds debt g g') (hd : ∀ q ∈ debt, g'.Has q ∨ q ∈ debt') : Adds debt' g g' where
  keeps := h.keeps
  deferred := h.deferred
  needs p hp := (h.needs p hp).imp_right fun hq q hqp => (hq q hqp).elim .inl (hd q)
  code := h.code

theorem put (g : Gathered) (hp : ∀ c, p ≠ .code c) : Adds p.needs g (g.put p) where
  keeps := id?_put_of_id?
  deferred := deferred_put g p
  needs q hq := by
    rcases has_of_has_put hq with hq | rfl | hq
    · exact .inl hq
    · exact .inr fun _ => .inr
    · rw [hq]
      exact .inr fun _ h => absurd h List.not_mem_nil
  code c := has_code_of_has_put (hp c)

end Adds

namespace Brings

theorem put (hp : (g.put p).Has p) (hc : ∀ c, p ≠ .code c) : Brings p p.needs g (g.put p) :=
  ⟨.put g hc, hp⟩

theorem reference (g : Gathered) (r : Reference) :
    Brings (.reference r) (Part.ofReference r) g (g.put (.reference r)) :=
  put (has_put_reference g r) nofun

theorem trans (h : Brings p debt g g') (h' : Adds debt' g' g'') :
    Brings p (debt ++ debt') g g'' :=
  ⟨h.toAdds.trans h', h'.has h.has⟩

theorem paid (h : Brings p debt g g') (hd : ∀ q ∈ debt, g'.Has q ∨ q ∈ debt') :
    Brings p debt' g g' :=
  ⟨h.toAdds.paid hd, h.has⟩

/-- The first debt is paid by bringing what is owed. -/
theorem pay (h : Brings p (q :: debt) g g') (h' : Brings q [] g' g'') : Brings p debt g g'' := by
  refine (h.trans h'.toAdds).paid fun r hr => ?_
  rw [List.append_nil] at hr
  rcases List.mem_cons.mp hr with rfl | hr
  · exact .inl h'.has
  · exact .inr hr

end Brings

/-- A run of additions brings the parts of them all. -/
theorem adds_foldl {α : Type} {add : Gathered → α → Gathered} {part : α → Part} {as : List α}
    (h : ∀ g, ∀ a ∈ as, Brings (part a) [] g (add g a)) (g : Gathered) :
    Adds [] g (as.foldl add g) ∧ ∀ a ∈ as, (as.foldl add g).Has (part a) := by
  induction as generalizing g with
  | nil => exact ⟨.refl g, nofun⟩
  | cons a as ih =>
    have ha := h g a List.mem_cons_self
    obtain ⟨hs, hp⟩ := ih (fun g b hb => h g b (List.mem_cons_of_mem a hb)) (add g a)
    exact ⟨ha.toAdds.trans hs, List.forall_mem_cons.mpr ⟨hs.has ha.has, hp⟩⟩

/-! ## References -/

theorem brings_addString (g : Gathered) (s : String) :
    Brings (.reference (.string s)) [] g (g.addString s) :=
  .reference g (.string s)

theorem brings_addType (g : Gathered) (t : TypeId) :
    Brings (.reference (.type t)) [] g (g.addType t) :=
  (Brings.reference g (.type t)).pay (brings_addString _ _)

theorem adds_addTypes (g : Gathered) (types : List TypeId) :
    Adds [] g (types.foldl addType g) ∧
      ∀ t ∈ types, (types.foldl addType g).Has (.reference (.type t)) :=
  adds_foldl (fun g t _ => brings_addType g t) g

theorem brings_addTypeList {types : List TypeId}
    (h : ∀ t ∈ types, g.Has (.reference (.type t))) :
    Brings (.typeList types) [] g (g.addTypeList types) := by
  have put : Brings (.typeList types) (types.map (.reference <| .type ·)) g (g.addTypeList types) :=
    Brings.put (p := .typeList types) ⟨_, ItemSet.id?_insert_self _ _⟩ nofun
  refine put.paid fun q hq => ?_
  obtain ⟨t, ht, rfl⟩ := List.mem_map.mp hq
  exact .inl (has_put_of_has (p := .typeList types) (h t ht))

theorem brings_addProto (g : Gathered) (p : ProtoId) :
    Brings (.reference (.proto p)) [] g (g.addProto p) := by
  have head := ((Brings.reference g (.proto p)).pay (brings_addString _ _)).pay (brings_addType _ _)
  obtain ⟨types, has⟩ := adds_addTypes
    (((g.put (.reference (.proto p))).addString p.shorty).addType p.returnType) p.parameters
  by_cases hp : p.parameters.isEmpty
  · simp only [addProto, hp, if_true] at head ⊢
    exact head.trans types
  · simp only [addProto, hp, Bool.false_eq_true, if_false] at head ⊢
    exact (head.trans types).pay (brings_addTypeList has)

theorem brings_addField (g : Gathered) (f : FieldId) :
    Brings (.reference (.field f)) [] g (g.addField f) :=
  (((Brings.reference g (.field f)).pay (brings_addType _ _)).pay (brings_addString _ _)).pay
    (brings_addType _ _)

theorem brings_addMethod (g : Gathered) (m : MethodId) :
    Brings (.reference (.method m)) [] g (g.addMethod m) :=
  (((Brings.reference g (.method m)).pay (brings_addType _ _)).pay (brings_addString _ _)).pay
    (brings_addProto _ _)

theorem brings_addMethodHandle (g : Gathered) (h : MethodHandle) :
    Brings (.reference (.methodHandle h)) [] g (g.addMethodHandle h) := by
  obtain ⟨kind, member⟩ := h
  cases member with
  | field f => exact (Brings.reference g (.methodHandle ⟨kind, .field f⟩)).pay (brings_addField _ _)
  | method m =>
    exact (Brings.reference g (.methodHandle ⟨kind, .method m⟩)).pay (brings_addMethod _ _)

/-- Call sites are set aside, everything else is added at once. -/
theorem brings_add {r : Reference} (hr : ∀ c, r ≠ .callSite c) (g : Gathered) :
    Brings (.reference r) [] g (g.add r) := by
  cases r with
  | string s => exact brings_addString g s
  | type t => exact brings_addType g t
  | field f => exact brings_addField g f
  | method m => exact brings_addMethod g m
  | proto p => exact brings_addProto g p
  | callSite c => exact absurd rfl (hr c)
  | methodHandle h => exact brings_addMethodHandle g h
  | raw i => exact .reference g (.raw i)

theorem adds_addAll {references : List Reference} (h : ∀ c, .callSite c ∉ references)
    (g : Gathered) :
    Adds [] g (g.addAll references) ∧
      ∀ r ∈ references, (g.addAll references).Has (.reference r) :=
  adds_foldl (fun g _ hr => brings_add (fun c e => h c (e ▸ hr)) g) g

/-! ## What was set aside -/

/-- A call site leaves what its arguments need as a debt. -/
theorem brings_addCallSite (g : Gathered) (c : CallSite) :
    Brings (.reference (.callSite c)) (Part.encodedArray c.arguments).needs g
      (g.addCallSite c) := by
  have site := Brings.reference g (.callSite c)
  have handle := brings_addMethodHandle (g.put (.reference (.callSite c))) c.handle
  have name := brings_addString
    ((g.put (.reference (.callSite c))).addMethodHandle c.handle) c.methodName
  have proto := brings_addProto
    (((g.put (.reference (.callSite c))).addMethodHandle c.handle).addString c.methodName) c.proto
  have array : Brings (.encodedArray c.toValues) (Part.encodedArray c.toValues).needs _
      (g.addCallSite c) := Brings.put ⟨_, ItemSet.id?_insert_self _ _⟩ nofun
  have all := (((site.trans handle.toAdds).trans name.toAdds).trans proto.toAdds).trans array.toAdds
  refine all.paid fun q hq => ?_
  simp only [Part.ofReference, Part.needs, CallSite.toValues, Value.referencesAll,
    Value.references, Value.depth, List.map_append, List.mem_append, List.append_nil,
    List.mem_cons, List.not_mem_nil, or_false, List.map_cons, List.map_nil] at hq ⊢
  have shallow : (g.addCallSite c).Has (.nesting 0) := has_nesting_iff.mpr (Nat.zero_le _)
  rcases hq with rfl | (((hq | rfl) | rfl) | rfl) | rfl | rfl | rfl | hq
  · exact .inl array.has
  · exact .inr (.inl hq)
  · exact .inl (array.toAdds.has proto.has)
  · exact .inl (array.toAdds.has (proto.toAdds.has name.has))
  · exact .inl (array.toAdds.has (proto.toAdds.has (name.toAdds.has handle.has)))
  · exact .inl shallow
  · exact .inl shallow
  · exact .inl shallow
  · exact .inr (.inr hq)

theorem resolved_checkDepth (depth : Nat) : (checkDepth depth).Resolved :=
  Result.resolved_ite (fun _ => Result.resolved_violation _) fun _ => trivial

theorem has_nesting_of_checkDepth {depth : Nat} {u : Unit} (h : checkDepth depth = .ok u)
    (g : Gathered) : g.Has (.nesting depth) := by
  obtain ⟨hdepth, -⟩ := Result.violation_ite_eq_ok.mp h
  exact has_nesting_iff.mpr (Nat.not_lt.mp hdepth)

theorem resolved_settle (g : Gathered) (d : Deferred) : (g.settle d).Resolved := by
  cases d with
  | value v => exact (resolved_checkDepth _).bind fun _ _ => trivial
  | annotated a => exact (resolved_checkDepth _).bind fun _ _ => trivial
  | callSite c =>
    exact (Result.resolved_forM fun v _ => resolved_checkDepth v.depth).bind fun _ _ => trivial

theorem adds_settle {d : Deferred} (h : g.settle d = .ok g') :
    Adds [] g g' ∧ ∀ p ∈ d.promises, g'.Has p := by
  have all {references : List Reference} {P : Part → Prop} (h : ∀ r ∈ references, P (.reference r)) :
      ∀ p ∈ references.map .reference, P p := by
    simpa using h
  cases d with
  | value v =>
    obtain ⟨_, hdepth, h⟩ := Result.bind_eq_ok.mp h
    obtain rfl := Result.pure_eq_ok.mp h
    obtain ⟨adds, has⟩ := adds_addAll v.callSite_notMem_references g
    exact ⟨adds, List.forall_mem_cons.mpr ⟨has_nesting_of_checkDepth hdepth _, all has⟩⟩
  | annotated a =>
    obtain ⟨_, hdepth, h⟩ := Result.bind_eq_ok.mp h
    obtain rfl := Result.pure_eq_ok.mp h
    obtain ⟨adds, has⟩ := adds_addAll a.value.callSite_notMem_references g
    exact ⟨adds, List.forall_mem_cons.mpr ⟨has_nesting_of_checkDepth hdepth _, all has⟩⟩
  | callSite c =>
    obtain ⟨_, hdepth, h⟩ := Result.bind_eq_ok.mp h
    obtain rfl := Result.pure_eq_ok.mp h
    obtain ⟨adds, has⟩ := adds_addAll (Value.callSite_notMem_referencesAll c.arguments)
      (g.addCallSite c)
    have nestings : ∀ v ∈ c.arguments, ((g.addCallSite c).addAll
        (Value.referencesAll c.arguments)).Has (.nesting v.depth) := fun v hv =>
      (Result.forM_eq_ok hdepth v hv).elim fun _ hv => has_nesting_of_checkDepth hv _
    have site : Brings (.reference (.callSite c)) [] g _ :=
      ((brings_addCallSite g c).trans adds).paid fun q hq => by
        rw [List.append_nil] at hq
        rcases List.mem_append.mp hq with hq | hq
        · exact .inl (all has q hq)
        · obtain ⟨v, hv, rfl⟩ := List.mem_map.mp hq
          exact .inl (nestings v hv)
    exact ⟨site.toAdds, fun p hp => List.mem_singleton.mp hp ▸ site.has⟩

/-! ## Soundness -/

variable {o : WriteOptions}

/-- True if the part is there, or will be when all that was set aside is settled. -/
def Will (g : Gathered) (p : Part) : Prop := g.Has p ∨ ∃ d ∈ g.deferred, p ∈ d.promises

/-- Whatever the parts need will be there, and the code of compact files points to no debug
information. -/
structure Sound (o : WriteOptions) (g : Gathered) : Prop where
  needs : ∀ p, g.Has p → ∀ q ∈ p.needs, g.Will q
  compact : o.version.isCompact → ∀ c, g.Has (.code c) → c.debug = none

/-- More has been gathered: ids stay, and promises are kept. -/
instance : Preorder Gathered where
  le g g' := (∀ {p i}, g.id? p = some i → g'.id? p = some i) ∧ ∀ p, g.Will p → g'.Will p
  le_refl _ := ⟨id, fun _ => id⟩
  le_trans _ _ _ h h' := ⟨fun hi => h'.1 (h.1 hi), fun p hp => h'.2 p (h.2 p hp)⟩

theorem id?_of_le (h : g ≤ g') {i : Nat} (hi : g.id? p = some i) : g'.id? p = some i := h.1 hi

theorem Will.of_le (h : g ≤ g') (hp : g.Will p) : g'.Will p := h.2 p hp

namespace Adds

theorem will (h : Adds debt g g') (hp : g.Will p) : g'.Will p := by
  rw [Will, h.deferred]
  exact hp.imp_left h.has

theorem le (h : Adds debt g g') : g ≤ g' := ⟨h.keeps, fun _ => h.will⟩

theorem sound (h : Adds [] g g') (hg : g.Sound o) : g'.Sound o where
  needs p hp q hq := by
    rcases h.needs p hp with hp | hp
    · exact h.will (hg.needs p hp q hq)
    · exact .inl ((hp q hq).resolve_right List.not_mem_nil)
  compact ho c hc := hg.compact ho c (h.code c hc)

end Adds

theorem le_put (g : Gathered) (p : Part) : g ≤ g.put p :=
  ⟨id?_put_of_id?, fun _ hq => by rw [Will, deferred_put]; exact hq.imp_left has_put_of_has⟩

theorem le_defer (g : Gathered) (d : Deferred) : g ≤ g.defer d :=
  ⟨id, fun _ hp => hp.imp_right fun ⟨e, he, hpe⟩ => ⟨e, List.mem_cons_of_mem d he, hpe⟩⟩

theorem Sound.defer (hg : g.Sound o) (d : Deferred) : (g.defer d).Sound o :=
  ⟨fun p hp q hq => .of_le (g.le_defer d) (hg.needs p hp q hq), hg.compact⟩

theorem will_defer {d : Deferred} (g : Gathered) (hp : p ∈ d.promises) : (g.defer d).Will p :=
  .inr ⟨d, List.mem_cons_self, hp⟩

/-- One step of settling keeps the promises that are left. -/
theorem foldlM_settle_sound {pending : List Deferred} (hd : g.deferred = [])
    (hg : Sound o { g with deferred := pending }) (h : pending.foldlM settle g = .ok g') :
    g'.Sound o ∧ { g with deferred := pending } ≤ g' ∧ g'.deferred = [] := by
  induction pending generalizing g with
  | nil =>
    obtain rfl := Result.pure_eq_ok.mp h
    have same : { g with deferred := [] } = g := by rw [← hd]
    rw [same] at hg ⊢
    exact ⟨hg, le_rfl, hd⟩
  | cons d pending ih =>
    rw [List.foldlM_cons] at h
    obtain ⟨g₁, hs, h⟩ := Result.bind_eq_ok.mp h
    obtain ⟨adds, has⟩ := adds_settle hs
    have kept {p} (hp : Will { g with deferred := d :: pending } p) :
        Will { g₁ with deferred := pending } p := by
      rcases hp with hp | ⟨e, he, hp⟩
      · exact .inl (adds.has hp)
      · rcases List.mem_cons.mp he with rfl | he
        · exact .inl (has p hp)
        · exact .inr ⟨e, he, hp⟩
    have sound : Sound o { g₁ with deferred := pending } := by
      refine ⟨fun p hp q hq => ?_, fun ho c hc => hg.compact ho c (adds.code c hc)⟩
      rcases adds.needs p hp with hp | hp
      · exact kept (hg.needs p hp q hq)
      · exact .inl ((hp q hq).resolve_right List.not_mem_nil)
    obtain ⟨hsound, hle, hnil⟩ := ih (adds.deferred.trans hd) sound h
    have step : { g with deferred := d :: pending } ≤ { g₁ with deferred := pending } :=
      ⟨adds.keeps, fun _ => kept⟩
    exact ⟨hsound, step.trans hle, hnil⟩

theorem settleAll_sound (hg : g.Sound o) (h : g.settleAll = .ok g') :
    g'.Sound o ∧ g ≤ g' ∧ g'.deferred = [] :=
  foldlM_settle_sound (g := { g with deferred := [] }) rfl hg h

theorem resolved_settleAll (g : Gathered) : g.settleAll.Resolved :=
  Result.resolved_foldlM _ fun g d _ => resolved_settle g d

/-- When nothing is set aside, whatever will be there is there. -/
theorem will_iff (hd : g.deferred = []) : g.Will p ↔ g.Has p := by
  simp [Will, hd]

end Gathered

end Dalvik
