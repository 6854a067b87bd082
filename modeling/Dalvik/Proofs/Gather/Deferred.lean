import Dalvik.Proofs.Gather.Classes
import Dalvik.Proofs.Value.Nesting

/-!
# What is set aside

Annotations, initial values of static fields and call sites are set aside while classes are gathered,
and nothing else is. Settling them fails exactly if one of their values is nested too deeply; no other
step of gathering ends in that error.
-/
namespace Dalvik
open Result

/-! ## Settling -/

/-- The values that are looked into, which nothing in a file encloses. -/
def Deferred.values : Deferred → List Value
  | .value v => [v]
  | .annotated a => a.value.elements.map Element.value
  | .callSite c => c.arguments

/-- True of what is set aside if one of its values is nested too deeply. -/
def Deferred.TooDeep (d : Deferred) : Prop := ∃ v ∈ d.values, v.TooDeep

theorem AnnotationValue.exists_tooDeep_iff {a : AnnotationValue} :
    (∃ v ∈ a.elements.map Element.value, v.TooDeep) ↔ maxNesting + 1 < a.depth := by
  have hdepth : (Value.annotated a).depth = a.depth := by rw [Value.depth]
  rw [← hdepth, Value.lt_depth_iff]
  simp only [Value.tooDeep_iff, Nat.lt_iff_add_one_le]
  rfl

namespace Gathered

theorem checkDepth_checksNesting (depth : Nat) :
    (checkDepth depth).ChecksNesting (maxNesting < depth) where
  raises h := by
    rw [checkDepth, if_pos h]
    exact raisesNesting_violation.mpr rfl
  succeeds h := ⟨(), if_neg h⟩

theorem settle_checksNesting (g : Gathered) (d : Deferred) :
    (g.settle d).ChecksNesting d.TooDeep := by
  cases d with
  | value v =>
    refine (checkDepth_checksNesting v.depth).map.of_iff ?_
    simp [Value.tooDeep_iff, Deferred.TooDeep, Deferred.values]
  | annotated a =>
    refine (checkDepth_checksNesting (a.value.depth - 1)).map.of_iff ?_
    have htop : maxNesting < a.value.depth - 1 ↔ maxNesting + 1 < a.value.depth := by omega
    rw [htop, ← AnnotationValue.exists_tooDeep_iff]
    rfl
  | callSite c =>
    refine (ChecksNesting.forM (fun v => checkDepth_checksNesting v.depth) c.arguments).map.of_iff ?_
    simp only [← Value.tooDeep_iff]
    rfl

theorem settleAll_checksNesting (g : Gathered) :
    g.settleAll.ChecksNesting (∃ d ∈ g.deferred, d.TooDeep) :=
  .foldlM settle_checksNesting _ _

end Gathered

/-! ## What is set aside -/

/-- A call site is set aside, everything else is added at once. -/
def Reference.deferred : Reference → List Deferred
  | .callSite c => [.callSite c]
  | _ => []

def AnnotationItem.deferredAll (annotations : List AnnotationItem) : List Deferred :=
  annotations.map .annotated

/-- The annotations of a method and of its parameters, and the call sites in its code. -/
def MethodDef.deferred (m : MethodDef) : List Deferred :=
  AnnotationItem.deferredAll m.annotations ++
    m.parameters.flatMap (fun p => AnnotationItem.deferredAll p.annotations) ++
    m.code.toList.flatMap fun c =>
      c.instructions.flatMap fun i => i.references.flatMap Reference.deferred

/-- The value that a static field is given, if it is given one. -/
def FieldDef.deferred (f : FieldDef) : List Deferred := f.value.toList.map .value

/-- The annotations of a class and of its members, the values that its static fields are given, and
the call sites in its code. -/
def ClassDef.deferred (c : ClassDef) : List Deferred :=
  AnnotationItem.deferredAll c.annotations ++
    c.fields.flatMap (fun f => AnnotationItem.deferredAll f.annotations) ++
    c.staticFields.flatMap FieldDef.deferred ++
    c.methods.flatMap MethodDef.deferred

/-- The values of a file that no other value encloses. -/
def Dex.outermost (d : Dex) : List Value :=
  (d.classes.flatMap ClassDef.deferred).flatMap Deferred.values

theorem Gathered.deferred_add (g : Gathered) (r : Reference) :
    (g.add r).deferred = r.deferred ++ g.deferred := by
  by_cases hr : ∃ c, r = .callSite c
  · obtain ⟨c, rfl⟩ := hr
    rfl
  · rw [(brings_add (fun c e => hr ⟨c, e⟩) g).deferred]
    cases r with
    | callSite c => exact absurd ⟨c, rfl⟩ hr
    | _ => rfl

namespace Gather
open Gathered

variable {α β : Type} {m : Gather α} {D E : List Deferred} {Q : α → Prop} {R : β → Prop}

/-- The step raises no error of nesting, and if it succeeds it has set aside `D` besides what was
set aside before, and what it gives satisfies `Q`. -/
def Defers (m : Gather α) (D : List Deferred) (Q : α → Prop) : Prop :=
  ∀ g, ¬ (m g).RaisesNesting ∧
    ∀ a g₁, m g = .ok (a, g₁) → (∀ d, d ∈ g₁.deferred ↔ d ∈ D ∨ d ∈ g.deferred) ∧ Q a

namespace Defers

theorem of_mem_iff (hm : Defers m D Q) (h : ∀ d, d ∈ D ↔ d ∈ E) : Defers m E Q := by
  refine fun g => ⟨(hm g).1, fun a g₁ ha => ?_⟩
  obtain ⟨hD, hQ⟩ := (hm g).2 a g₁ ha
  exact ⟨fun d => by rw [hD, h], hQ⟩

theorem pure {a : α} (h : Q a) : Defers (pure a) [] Q := by
  refine fun g => ⟨not_raisesNesting_ok _, fun b g₁ hb => ?_⟩
  cases hb
  exact ⟨fun d => (or_iff_right List.not_mem_nil).symm, h⟩

theorem bind {f : α → Gather β} (hm : Defers m D Q) (hf : ∀ a, Q a → Defers (f a) E R) :
    Defers (m >>= f) (D ++ E) R := by
  refine fun g => ⟨fun h => ?_, fun b g₂ hb => ?_⟩
  · rcases raisesNesting_bind.mp h with h | ⟨⟨a, g₁⟩, ha, h⟩
    · exact (hm g).1 h
    · exact (hf a ((hm g).2 a g₁ ha).2 g₁).1 h
  · obtain ⟨⟨a, g₁⟩, ha, hb⟩ := bind_eq_ok.mp hb
    obtain ⟨hD, hQ⟩ := (hm g).2 a g₁ ha
    obtain ⟨hE, hR⟩ := (hf a hQ g₁).2 b g₂ hb
    exact ⟨fun d => by rw [hE, hD, List.mem_append, ← or_assoc, or_comm (a := d ∈ E)], hR⟩

/-- A first step that sets nothing aside. -/
theorem bind_nil {f : α → Gather β} (hm : Defers m [] Q) (hf : ∀ a, Q a → Defers (f a) E R) :
    Defers (m >>= f) E R :=
  hm.bind hf

/-- A last step that sets nothing aside. -/
theorem bind_last {f : α → Gather β} (hm : Defers m D Q) (hf : ∀ a, Q a → Defers (f a) [] R) :
    Defers (m >>= f) D R :=
  D.append_nil ▸ hm.bind hf

theorem lift {x : Result α} (hx : ¬ x.RaisesNesting) : Defers (liftM x) [] fun _ => True := by
  refine fun g => ⟨fun h => ?_, fun a g₁ ha => ⟨fun d => ?_, trivial⟩⟩
  · rcases raisesNesting_bind.mp h with h | ⟨_, -, h⟩
    · exact hx h
    · exact not_raisesNesting_ok _ h
  · obtain ⟨b, -, ha⟩ := bind_eq_ok.mp ha
    cases ha
    exact (or_iff_right List.not_mem_nil).symm

theorem modify {f : Gathered → Gathered}
    (h : ∀ g d, d ∈ (f g).deferred ↔ d ∈ D ∨ d ∈ g.deferred) :
    Defers (modify f) D fun _ => True := by
  refine fun g => ⟨not_raisesNesting_ok _, fun a g₁ ha => ?_⟩
  cases ha
  exact ⟨h g, trivial⟩

theorem within {place : String} (hm : Defers m D Q) : Defers (Gather.within place m) D Q :=
  fun g => ⟨fun h => (hm g).1 (raisesNesting_within.mp h), fun a g₁ ha =>
    (hm g).2 a g₁ (within_eq_ok_iff.mp ha)⟩

theorem ite {c : Prop} [Decidable c] {x y : Gather α} (hx : Defers x D Q) (hy : Defers y D Q) :
    Defers (if c then x else y) D Q := by
  split
  · exact hx
  · exact hy

theorem map {f : α → β} (hm : Defers m D Q) : Defers (f <$> m) D fun _ => True :=
  hm.bind_last (f := fun a => Pure.pure (f a)) fun _ _ => pure trivial

theorem ite_bind {c : Prop} [Decidable c] {x y : Gather α} {f : α → Gather β}
    (hm : Defers (if c then x else y) D Q) (hf : ∀ a, Q a → Defers (f a) E R) :
    Defers (if c then x >>= f else y >>= f) (D ++ E) R := by
  rw [ite_bind_eq]
  exact bind hm hf

theorem ite_ite_bind {c d : Prop} [Decidable c] [Decidable d] {x y z : Gather α}
    {f : α → Gather β} (hm : Defers (if c then x else if d then y else z) D Q)
    (hf : ∀ a, Q a → Defers (f a) E R) :
    Defers (if c then x >>= f else if d then y >>= f else z >>= f) (D ++ E) R := by
  rw [ite_ite_bind_eq]
  exact bind hm hf

/-- A check that fails with a violation of another kind. -/
theorem guard {c : Prop} [Decidable c] {reason : Violation} {k : β → Gather α} {y : Gather α}
    (hreason : ¬ (Cause.violation reason).isNesting) (hy : Defers y D Q) :
    Defers (if c then liftM (Result.violation reason : Result β) >>= k else y) D Q := by
  split
  · exact fun g => ⟨fun h => hreason (raisesNesting_violation.mp h), nofun⟩
  · exact hy

theorem mapM {f : α → Gather β} {as : List α} {D : α → List Deferred}
    (h : ∀ a, Defers (f a) (D a) fun _ => True) :
    Defers (as.mapM f) (as.flatMap D) fun _ => True := by
  induction as with
  | nil =>
    rw [List.mapM_nil]
    exact pure trivial
  | cons a as ih =>
    rw [List.mapM_cons, List.flatMap_cons]
    exact bind (h a) fun b _ => map ih

theorem forM {f : α → Gather PUnit} {as : List α} {D : α → List Deferred}
    (h : ∀ a, Defers (f a) (D a) fun _ => True) :
    Defers (as.forM f) (as.flatMap D) fun _ => True := by
  induction as with
  | nil => exact pure trivial
  | cons a as ih =>
    rw [List.flatMap_cons]
    exact bind (h a) fun _ _ => ih

theorem option_forM {f : α → Gather PUnit} {a : Option α}
    (h : ∀ x, Defers (f x) [] fun _ => True) : Defers (a.forM f) [] fun _ => True := by
  cases a with
  | none => exact pure trivial
  | some a => exact h a

/-- Loops that set nothing aside. -/
theorem forM_nil {f : α → Gather PUnit} {as : List α} (h : ∀ a, Defers (f a) [] fun _ => True) :
    Defers (as.forM f) [] fun _ => True :=
  (forM (D := fun _ => []) h).of_mem_iff fun d => by simp

/-- A loop without a result. -/
theorem forIn {f : α → PUnit → Gather (ForInStep PUnit)} {as : List α} {D : α → List Deferred}
    (h : ∀ a, Defers (f a ⟨⟩) (D a) (· = .yield ⟨⟩)) :
    Defers (ForIn.forIn as PUnit.unit f) (as.flatMap D) fun _ => True := by
  induction as with
  | nil => exact pure trivial
  | cons a as ih =>
    rw [List.forIn_cons, List.flatMap_cons]
    refine bind (h a) fun s hs => ?_
    subst hs
    exact ih

theorem forIn_nil {f : α → PUnit → Gather (ForInStep PUnit)} {as : List α}
    (h : ∀ a, Defers (f a ⟨⟩) [] (· = .yield ⟨⟩)) :
    Defers (ForIn.forIn as PUnit.unit f) [] fun _ => True :=
  (forIn (D := fun _ => []) h).of_mem_iff fun d => by simp

end Defers

/-! ## Steps -/

theorem refer_defers (r : Reference) : Defers (refer r) r.deferred fun _ => True :=
  .modify fun g d => by rw [deferred_add, List.mem_append]

theorem share_defers (insert : SharedItems → Nat × SharedItems) :
    Defers (share insert) [] fun _ => True := by
  refine fun g => ⟨not_raisesNesting_ok _, fun a g₁ h => ?_⟩
  cases h
  exact ⟨fun d => (or_iff_right List.not_mem_nil).symm, trivial⟩

theorem not_raisesNesting_sortedSet (annotations : List AnnotationItem) :
    ¬ (AnnotationItem.sortedSet annotations).RaisesNesting := by
  unfold AnnotationItem.sortedSet
  dsimp only
  split
  · exact mt raisesNesting_violation.mp nofun
  · exact not_raisesNesting_ok _

theorem deferAll_defers (annotations : List AnnotationItem) :
    Defers (modify fun g => annotations.foldl (fun g a => g.defer (.annotated a)) g)
      (AnnotationItem.deferredAll annotations) fun _ => True := by
  refine .modify fun g d => ?_
  induction annotations generalizing g with
  | nil => exact (or_iff_right List.not_mem_nil).symm
  | cons a as ih =>
    rw [List.foldl_cons, ih, defer, AnnotationItem.deferredAll, AnnotationItem.deferredAll,
      List.map_cons, List.mem_cons, List.mem_cons, or_assoc, or_left_comm]

theorem annotationSet_defers (annotations : List AnnotationItem) :
    Defers (annotationSet annotations) (AnnotationItem.deferredAll annotations) fun _ => True := by
  refine .bind_nil (.lift (not_raisesNesting_sortedSet annotations)) fun set _ => ?_
  refine .bind_last (deferAll_defers annotations) fun _ _ => ?_
  refine .bind_nil (.forIn_nil fun a => ?_) fun _ _ => ?_
  · exact .bind_nil (share_defers _) fun _ _ => .pure rfl
  · exact .ite (.bind_nil (share_defers _) fun _ _ => .pure trivial) (.pure trivial)

theorem parameterSets_defers (m : MethodDef) :
    Defers (parameterSets m)
      (m.parameters.flatMap fun p => AnnotationItem.deferredAll p.annotations) fun _ => True := by
  refine .bind_last (.mapM fun p => annotationSet_defers p.annotations) fun sets _ => ?_
  exact .ite (.bind_nil (share_defers _) fun _ _ => .pure trivial) (.pure trivial)

theorem debugOf_defers (d : DebugInfo) : Defers (debugOf d) [] fun _ => True := by
  refine .ite (.pure trivial) ?_
  refine .bind_nil (.forIn_nil fun name => ?_) fun _ _ => ?_
  · exact .bind_nil (.option_forM fun s => refer_defers (.string s)) fun _ _ => .pure rfl
  refine .bind_nil (.forIn_nil fun i => ?_) fun _ _ => ?_
  · refine .bind_nil (.forM_nil fun s => refer_defers (.string s)) fun _ _ => ?_
    exact .bind_nil (.forM_nil fun t => refer_defers (.type t)) fun _ _ => .pure rfl
  exact .bind_nil (share_defers _) fun _ _ => .pure trivial

theorem method_defers (o : WriteOptions) (id : MethodId) (m : MethodDef) :
    Defers (method o id m) m.deferred fun _ => True := by
  rw [MethodDef.deferred, List.append_assoc]
  refine .bind_nil (refer_defers (.method id)) fun _ _ => ?_
  refine .bind (annotationSet_defers m.annotations) fun set _ => ?_
  refine .bind (parameterSets_defers m) fun sets _ => ?_
  cases m.code with
  | none => exact .pure trivial
  | some c =>
    rw [Option.toList_some, List.flatMap_singleton]
    refine .guard nofun (.bind_last (.forIn fun i => ?_) fun _ _ => ?_)
    · exact .bind_last (.forM fun r => refer_defers r) fun _ _ => .pure rfl
    refine .bind_nil (.forIn_nil fun t => ?_) fun _ _ => ?_
    · refine .bind_nil (.forIn_nil fun h => ?_) fun _ _ => .pure rfl
      exact .bind_nil (refer_defers (.type h.type)) fun _ _ => .pure rfl
    refine .ite_bind (D := []) (Q := fun _ => True) (.ite (debugOf_defers _) (.pure trivial))
      fun debug _ => ?_
    exact .bind_nil (share_defers _) fun _ _ => .pure trivial

theorem field_defers (f : FieldEntry) :
    Defers (field f) (AnnotationItem.deferredAll f.definition.annotations) fun _ => True := by
  refine .bind_nil (refer_defers (.field f.id)) fun _ _ => ?_
  exact .bind_last (.within (annotationSet_defers f.definition.annotations)) fun _ _ =>
    .pure trivial

theorem initialValue_defers (f : FieldEntry) :
    Defers (initialValue f) f.definition.deferred fun _ => True := by
  unfold initialValue FieldDef.deferred
  cases f.definition.value with
  | some v =>
    refine .bind_last (.modify fun g d => ?_) fun _ _ => .pure trivial
    rw [defer, List.mem_cons, Option.toList_some, List.map_singleton, List.mem_singleton]
  | none =>
    refine .within (.lift ?_)
    unfold Value.defaultFor
    split
    case h_10 => exact mt raisesNesting_violation.mp nofun
    all_goals exact not_raisesNesting_ok _

theorem not_raisesNesting_checkDistinct {ι : Type} [BEq ι] [Hashable ι] [ToString ι]
    (what : String) (ids : List ι) : ¬ (checkDistinct what ids).RaisesNesting := by
  unfold checkDistinct
  split
  · exact mt raisesNesting_violation.mp nofun
  · exact not_raisesNesting_ok _

/-! ## Classes -/

/-- Sorting members neither adds any nor leaves some out. -/
theorem mem_flatMap_sortedMembers {ι : Type} [Ord ι] {id : α → ι} {members : List α}
    {D : α → List Deferred} {d : Deferred} :
    d ∈ (sortedMembers id members).flatMap (fun p => D p.2) ↔ d ∈ members.flatMap D := by
  rw [sortedMembers, ((sortedBy_perm _ _).flatMap_right _).mem_iff, List.flatMap_map]

theorem mem_flatMap_fieldEntries {c : ClassDef} {fields : List FieldDef}
    {D : FieldDef → List Deferred} {d : Deferred} :
    d ∈ (fieldEntries c fields).flatMap (fun f => D f.definition) ↔ d ∈ fields.flatMap D := by
  rw [fieldEntries, List.flatMap_map]
  exact mem_flatMap_sortedMembers

theorem classEntry_defers (o : WriteOptions) (c : ClassDef) :
    Defers (classEntry o c) c.deferred fun _ => True := by
  have inOrder : Defers (classEntry o c)
      (AnnotationItem.deferredAll c.annotations ++
        ((fieldEntries c c.staticFields ++ fieldEntries c c.instanceFields).flatMap
            (fun f => AnnotationItem.deferredAll f.definition.annotations) ++
          ((fieldEntries c c.staticFields).flatMap (fun f => f.definition.deferred) ++
            (sortedMembers c.methodId c.directMethods ++
              sortedMembers c.methodId c.virtualMethods).flatMap fun p => p.2.deferred)))
      fun _ => True := by
    refine .bind_nil (refer_defers (.type c.type)) fun _ _ => ?_
    refine .bind_nil (.option_forM fun t => refer_defers (.type t)) fun _ _ => ?_
    refine .bind_nil (.forM_nil fun t => refer_defers (.type t)) fun _ _ => ?_
    refine .ite_bind (D := []) (Q := fun _ => True) (.ite (.pure trivial) (.map (share_defers _)))
      fun interfaces _ => ?_
    refine .bind_nil (.option_forM fun s => refer_defers (.string s)) fun _ _ => ?_
    refine .bind_nil (.lift (not_raisesNesting_checkDistinct _ _)) fun _ _ => ?_
    refine .bind_nil (.lift (not_raisesNesting_checkDistinct _ _)) fun _ _ => ?_
    refine .bind (annotationSet_defers c.annotations) fun ofClass _ => ?_
    refine .bind (.mapM field_defers) fun ofFields _ => ?_
    refine .bind (.mapM initialValue_defers) fun values _ => ?_
    refine .bind_nil (.forIn_nil fun f => .guard nofun (.pure rfl)) fun _ _ => ?_
    refine .ite_bind (D := []) (Q := fun _ => True) (.ite (.pure trivial) (.map (share_defers _)))
      fun staticValues _ => ?_
    refine .bind_last (.mapM fun p => .within (method_defers o p.1 p.2)) fun ofMethods _ => ?_
    exact .ite_ite_bind (D := []) (Q := fun _ => True)
      (.ite (.map (share_defers _)) (.ite (.pure trivial) (.map (share_defers _)))) fun _ _ =>
        .pure trivial
  refine inOrder.of_mem_iff fun d => ?_
  rw [ClassDef.deferred, ClassDef.fields, ClassDef.methods]
  simp only [List.flatMap_append, List.mem_append, or_assoc]
  simp only [mem_flatMap_sortedMembers,
    mem_flatMap_fieldEntries (D := fun f => AnnotationItem.deferredAll f.annotations),
    mem_flatMap_fieldEntries (D := FieldDef.deferred)]

theorem classEntries_defers (o : WriteOptions) (seen : ItemSet TypeId) (cs : List ClassDef) :
    Defers (classEntries o seen cs) (cs.flatMap ClassDef.deferred) fun _ => True := by
  induction cs generalizing seen with
  | nil => exact .pure trivial
  | cons c cs ih =>
    rw [List.flatMap_cons]
    refine .guard nofun (.bind (.within (classEntry_defers o c)) fun _ _ => ?_)
    exact .bind_last (ih _) fun _ _ => .pure trivial

end Gather

/-! ## Files -/

theorem Gathered.not_raisesNesting_toPools (g : Gathered) : ¬ g.toPools.RaisesNesting := by
  have check (kind : PoolKind) (size : Nat) : ¬ (Pools.checkSize kind size).RaisesNesting := by
    unfold Pools.checkSize
    split
    · exact not_raisesNesting_ok _
    · exact mt raisesNesting_violation.mp nofun
  refine not_raisesNesting_bind (check _ _) fun _ => not_raisesNesting_bind (check _ _) fun _ => ?_
  refine not_raisesNesting_bind (check _ _) fun _ => not_raisesNesting_bind (check _ _) fun _ => ?_
  refine not_raisesNesting_bind (check _ _) fun _ => not_raisesNesting_bind (check _ _) fun _ => ?_
  exact not_raisesNesting_ok _

/-- If the classes can be gathered, then only a value that is nested too deeply is an error of
nesting; otherwise it does not come to that. -/
theorem Contents.raisesNesting_ofDex_iff {o : WriteOptions} {d : Dex} :
    (ofDex o d).RaisesNesting ↔
      (∃ r, Gather.classEntries o ∅ d.classes {} = .ok r) ∧ ∃ v ∈ d.outermost, v.TooDeep := by
  have hdefers := Gather.classEntries_defers o ∅ d.classes {}
  have houter (g : Gathered) (hg : ∀ x, x ∈ g.deferred ↔ x ∈ d.classes.flatMap ClassDef.deferred) :
      g.settleAll.RaisesNesting ↔ ∃ v ∈ d.outermost, v.TooDeep := by
    rw [g.settleAll_checksNesting.raises_iff, Dex.outermost]
    simp only [hg, Deferred.TooDeep, List.mem_flatMap]
    constructor
    · rintro ⟨x, hx, v, hv, hdeep⟩
      exact ⟨v, ⟨x, hx, hv⟩, hdeep⟩
    · rintro ⟨v, ⟨x, hx, hv⟩, hdeep⟩
      exact ⟨x, hx, v, hv, hdeep⟩
  unfold ofDex
  rw [raisesNesting_bind]
  constructor
  · rintro (h | ⟨⟨entries, g⟩, hrun, h⟩)
    · exact absurd h hdefers.1
    · refine ⟨⟨_, hrun⟩, ?_⟩
      rcases raisesNesting_bind.mp h with h | ⟨g', -, h⟩
      · refine (houter g fun x => ?_).mp h
        rw [(hdefers.2 entries g hrun).1 x]
        exact or_iff_left List.not_mem_nil
      · exact absurd h (not_raisesNesting_bind g'.not_raisesNesting_toPools
          fun _ => not_raisesNesting_ok _)
  · rintro ⟨⟨⟨entries, g⟩, hrun⟩, hdeep⟩
    refine .inr ⟨_, hrun, raisesNesting_bind.mpr (.inl ((houter g fun x => ?_).mpr hdeep))⟩
    rw [(hdefers.2 entries g hrun).1 x]
    exact or_iff_left List.not_mem_nil

end Dalvik
