import Dalvik.Code.Item
import Dalvik.Contents.Data
import Dalvik.Proofs.Code.Handlers
import Dalvik.Proofs.Gather.Parts
import Dalvik.Proofs.Instruction.Causes
import Dalvik.Proofs.Resolved
import Dalvik.Proofs.Result

/-!
# Encoders that find what they refer to

Each encoder is resolved as long as the resolver knows the references of what it encodes. What
these references are is said by the functions that gathering uses too.
-/
namespace Dalvik
open Result Text

/-- True of the references that the resolver has an index for. -/
def Resolver.Knows (r : Resolver) : Reference → Prop
  | .string s => (r.string s).Resolved
  | .type t => (r.type t).Resolved
  | .field f => (r.field f).Resolved
  | .method m => (r.method m).Resolved
  | .proto p => (r.proto p).Resolved
  | .callSite c => (r.callSite c).Resolved
  | .methodHandle h => (r.methodHandle h).Resolved
  | .raw _ => True

variable {r : Resolver}

/-! ## Values -/

mutual

theorem Value.resolved_encode (v : Value) (h : ∀ x ∈ v.references, r.Knows x) :
    (v.encode r).Resolved := by
  match v with
  | .methodType id =>
    rw [Value.encode]
    exact Resolved.bind (h (.proto id) (by simp [Value.references])) fun _ _ => trivial
  | .methodHandle id =>
    rw [Value.encode]
    exact Resolved.bind (h (.methodHandle id) (by simp [Value.references])) fun _ _ => trivial
  | .string text =>
    rw [Value.encode]
    exact Resolved.bind (h (.string text) (by simp [Value.references])) fun _ _ => trivial
  | .type id =>
    rw [Value.encode]
    exact Resolved.bind (h (.type id) (by simp [Value.references])) fun _ _ => trivial
  | .field id =>
    rw [Value.encode]
    exact Resolved.bind (h (.field id) (by simp [Value.references])) fun _ _ => trivial
  | .method id =>
    rw [Value.encode]
    exact Resolved.bind (h (.method id) (by simp [Value.references])) fun _ _ => trivial
  | .enum id =>
    rw [Value.encode]
    exact Resolved.bind (h (.field id) (by simp [Value.references])) fun _ _ => trivial
  | .array values =>
    rw [Value.encode]
    exact (Value.resolved_encodeAll values (by simpa [Value.references] using h)).bind fun _ _ => trivial
  | .annotated a =>
    rw [Value.encode]
    exact (AnnotationValue.resolved_encode a (by simpa [Value.references] using h)).bind
      fun _ _ => trivial
  | .byte _ | .short _ | .char _ | .int _ | .long _ | .float _ | .double _ | .null | .boolean _ =>
    rw [Value.encode]; trivial

theorem Value.resolved_encodeAll (vs : List Value)
    (h : ∀ x ∈ Value.referencesAll vs, r.Knows x) : (Value.encodeAll r vs).Resolved := by
  match vs with
  | [] => rw [Value.encodeAll]; trivial
  | v :: vs =>
    simp only [Value.referencesAll, List.mem_append] at h
    rw [Value.encodeAll]
    refine (Value.resolved_encode v fun x hx => h x (.inr hx)).bind fun _ _ => ?_
    exact (Value.resolved_encodeAll vs fun x hx => h x (.inl hx)).bind fun _ _ => trivial

theorem AnnotationValue.resolved_encode (a : AnnotationValue)
    (h : ∀ x ∈ a.references, r.Knows x) : (a.encode r).Resolved := by
  match a with
  | ⟨type, elements⟩ =>
    simp only [AnnotationValue.references, List.mem_cons, forall_eq_or_imp] at h
    rw [AnnotationValue.encode]
    split
    · exact resolved_violation _
    · refine Resolved.bind h.1 fun _ _ => Resolved.bind (Resolved.bind ?_ fun _ _ => trivial)
        fun _ _ => trivial
      refine resolved_mapM fun x hx => ?_
      obtain ⟨p, hp, rfl⟩ := List.mem_map.mp hx
      exact Element.resolved_encodeAll elements h.2 p ((sortedBy_perm _ _).mem_iff.mp hp)

theorem Element.resolved_encodeAll (es : List Element)
    (h : ∀ x ∈ Element.referencesAll es, r.Knows x) :
    ∀ p ∈ Element.encodeAll r es, p.2.Resolved := by
  match es with
  | [] => simp [Element.encodeAll]
  | ⟨name, v⟩ :: es =>
    simp only [Element.referencesAll, List.mem_append, List.mem_cons] at h
    rw [Element.encodeAll]
    refine List.forall_mem_cons.mpr ⟨?_, Element.resolved_encodeAll es fun x hx => h x (.inl hx)⟩
    refine Resolved.bind (h (.string name) (.inr (.inl rfl))) fun _ _ => ?_
    exact (Value.resolved_encode v fun x hx => h x (.inr (.inr hx))).bind fun _ _ => trivial

end

theorem resolved_encodeArray {vs : List Value} (h : ∀ x ∈ Value.referencesAll vs, r.Knows x) :
    (encodeArray r vs).Resolved := (Value.resolved_encodeAll vs h).bind fun _ _ => trivial

theorem AnnotationItem.resolved_encode {a : AnnotationItem}
    (h : ∀ x ∈ a.value.references, r.Knows x) : (a.encode r).Resolved :=
  (AnnotationValue.resolved_encode a.value h).bind fun _ _ => trivial

/-! ## Instructions -/

theorem Resolver.Knows.failsWith {x : Reference} (h : r.Knows x) :
    r.FailsWith (·.kind ≠ .unresolvedReference) x := by
  cases x <;> exact h

theorem Instruction.resolved_encodeAll {table : OpcodeTable} {start : Nat}
    {instructions : List Instruction} (h : ∀ i ∈ instructions, ∀ x ∈ i.references, r.Knows x) :
    (encodeAll table r start instructions).Resolved :=
  resolved_of_failsWith
    (failsWith_encodeAll ⟨fun _ => nofun, fun _ _ => nofun⟩ fun i hi x hx => (h i hi x hx).failsWith)

/-! ## Code -/

theorem CatchHandler.resolved_encode {h : CatchHandler}
    (hr : ∀ e ∈ h.handlers, r.Knows (.type e.type)) : (h.encode r).Resolved := by
  refine resolved_guard fun _ => ?_
  refine (resolved_of_failsWith (h.failsWith_signedCount nofun)).bind fun count _ => ?_
  refine (resolved_mapM fun e he => ?_).bind fun _ _ => trivial
  exact Resolved.bind (hr e he) fun _ _ => resolved_pure _

theorem CatchHandler.resolved_encodeFrom {hs : List CatchHandler} (offset : Nat)
    (hr : ∀ h ∈ hs, ∀ e ∈ h.handlers, r.Knows (.type e.type)) :
    (encodeFrom r offset hs).Resolved := by
  induction hs generalizing offset with
  | nil => trivial
  | cons h hs ih =>
    refine resolved_guard fun _ => ?_
    refine (resolved_encode (hr h List.mem_cons_self)).bind fun part _ => ?_
    exact (ih _ fun x hx => hr x (List.mem_cons_of_mem h hx)).bind fun _ _ => trivial

/-- Every handler has an entry among the encodings. -/
theorem TryBlock.resolved_encodeAll {tries : List TryBlock}
    (hr : ∀ t ∈ tries, ∀ e ∈ t.handler.handlers, r.Knows (.type e.type)) :
    (encodeAll r tries).Resolved := by
  have mem {h : CatchHandler} :
      h ∈ (ItemSet.ofList (tries.map handler)).toList ↔ ∃ t ∈ tries, t.handler = h := by
    rw [ItemSet.mem_toList_ofList, List.mem_map]
  refine resolved_ite (fun _ => trivial) fun _ => ?_
  refine (CatchHandler.resolved_encodeFrom _ fun h hh => ?_).bind fun handlers hhs => ?_
  · obtain ⟨t, ht, rfl⟩ := mem.mp hh
    exact hr t ht
  · refine (resolved_mapM fun t ht => ?_).bind fun _ _ => trivial
    have : t.handler ∈ handlers.map Prod.fst := by
      rw [CatchHandler.map_fst_encodeFrom hhs]
      exact mem.mpr ⟨t, ht, rfl⟩
    split
    · trivial
    next hnone =>
      obtain ⟨p, hp, he⟩ := List.mem_map.mp this
      simp [List.lookup_eq_none_iff] at hnone
      exact absurd he.symm (hnone _ _ _ hp)

theorem CodeItem.resolved_header (i : CodeItem) (tries : List TryBlock) :
    (i.header tries).Resolved := resolved_guard fun _ => resolved_guard fun _ => trivial

theorem CodeItem.resolved_encodeHeader (compact : Bool) (position : Nat) (i : CodeItem)
    (tries : List TryBlock) : (i.encodeHeader compact position tries).Resolved :=
  (i.resolved_header tries).bind fun _ _ => resolved_ite
    (fun _ => resolved_ite (fun _ => resolved_violation _) fun _ => trivial) fun _ => trivial

theorem TryBlock.resolved_sorted (tries : List TryBlock) : (sorted tries).Resolved := by
  unfold sorted
  dsimp only
  split
  · exact resolved_violation _
  · trivial

theorem TryBlock.mem_sorted {tries out : List TryBlock} (h : sorted tries = .ok out) {t : TryBlock} :
    t ∈ out ↔ t ∈ tries := by
  unfold sorted at h
  dsimp only at h
  split at h
  · cases h
  · cases h
    exact (sortedBy_perm _ _).mem_iff

theorem CodeItem.resolved_encode {compact : Bool} {table : OpcodeTable} {position : Nat}
    {i : CodeItem} (hi : ∀ x ∈ i.instructions, ∀ y ∈ x.references, r.Knows y)
    (ht : ∀ t ∈ i.tries, ∀ e ∈ t.handler.handlers, r.Knows (.type e.type)) :
    (i.encode compact table r position).Resolved := by
  refine (TryBlock.resolved_sorted i.tries).bind fun tries hs => ?_
  refine (i.resolved_encodeHeader _ _ tries).bind fun _ _ => ?_
  refine (Instruction.resolved_encodeAll hi).bind fun _ _ => resolved_guard fun _ => ?_
  refine (TryBlock.resolved_encodeAll fun t h => ?_).bind fun _ _ => trivial
  exact ht t ((TryBlock.mem_sorted hs).mp h)

/-! ## Debug information -/

theorem DebugItem.resolved_encode {p : Progress} {i : DebugItem}
    (hs : ∀ s ∈ i.strings, r.Knows (.string s)) (ht : ∀ t ∈ i.types, r.Knows (.type t)) :
    (i.encode r p).Resolved := by
  cases i with
  | startLocal register name type signature =>
    refine (resolved_option_mapM fun s h => hs s (by simp_all [strings])).bind fun _ _ => ?_
    refine (resolved_option_mapM fun t h => ht t (by simp_all [types])).bind fun _ _ => ?_
    cases signature with
    | none => trivial
    | some signature =>
      exact Resolved.bind (hs signature (by simp [strings])) fun _ _ => trivial
  | setFile name =>
    exact (resolved_option_mapM fun s h => hs s (by simp_all [strings])).bind fun _ _ => trivial
  | line number =>
    refine resolved_ite (fun _ => trivial) fun _ => Resolved.bind ?_ fun _ _ => trivial
    exact resolved_ite (fun _ => trivial) fun _ => nofun
  | _ => trivial

theorem DebugItem.resolved_encodeAll {p : Progress} {items : List DebugItem}
    (h : ∀ i ∈ items, (∀ s ∈ i.strings, r.Knows (.string s)) ∧ ∀ t ∈ i.types, r.Knows (.type t)) :
    (encodeAll r p items).Resolved := by
  induction items generalizing p with
  | nil => trivial
  | cons i items ih =>
    obtain ⟨hs, ht⟩ := h i List.mem_cons_self
    refine (resolved_encode hs ht).bind fun _ _ => ?_
    exact (ih fun x hx => h x (List.mem_cons_of_mem i hx)).bind fun _ _ => trivial

theorem DebugInfo.resolved_encode {d : DebugInfo} (h : ∀ x ∈ d.references, r.Knows x) :
    (d.encode r).Resolved := by
  simp only [references, List.mem_append, List.mem_flatMap, List.mem_map] at h
  refine (DebugItem.resolved_encodeAll fun i hi => ⟨fun s hs => ?_, fun t ht => ?_⟩).bind
    fun _ _ => ?_
  · exact h _ (.inr ⟨i, hi, .inl ⟨s, hs, rfl⟩⟩)
  · exact h _ (.inr ⟨i, hi, .inr ⟨t, ht, rfl⟩⟩)
  · refine (resolved_mapM fun name hname => ?_).bind fun _ _ => trivial
    refine (resolved_option_mapM fun s hs => ?_).bind fun _ _ => resolved_pure _
    exact h _ (.inl ⟨name, hname, s, by simpa using hs, rfl⟩)

/-! ## Lists of types -/

theorem Contents.resolved_encodeTypeList {types : List TypeId}
    (h : ∀ t ∈ types, r.Knows (.type t)) : (encodeTypeList r types).Resolved :=
  (resolved_mapM h).bind fun _ _ => trivial

end Dalvik
