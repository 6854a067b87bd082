import Dalvik.Proofs.Leb128
import Dalvik.Proofs.Order
import Dalvik.Proofs.Result
import Dalvik.Proofs.Yields

/-!
# Values that can be counted

An array begins with the number of its values, an annotation with that of its elements, in 32 bits.
So a value that is read has no more of them anywhere inside, and neither has one whose bytes can be
counted with as many.
-/
namespace Dalvik

mutual

/-- The arrays and annotations inside of the value can be counted with 32 bits. -/
def Value.Counted : Value → Prop
  | .array values => values.length < UInt32.size ∧ Value.CountedAll values
  | .annotated a => a.Counted
  | _ => True

def Value.CountedAll : List Value → Prop
  | [] => True
  | v :: vs => v.Counted ∧ Value.CountedAll vs

def AnnotationValue.Counted : AnnotationValue → Prop
  | ⟨_, elements⟩ => elements.length < UInt32.size ∧ Element.CountedAll elements

def Element.CountedAll : List Element → Prop
  | [] => True
  | ⟨_, v⟩ :: es => v.Counted ∧ Element.CountedAll es

end

theorem Value.countedAll_iff {vs : List Value} : Value.CountedAll vs ↔ ∀ v ∈ vs, v.Counted := by
  induction vs with
  | nil => simp [Value.CountedAll]
  | cons v vs ih => rw [Value.CountedAll, ih, List.forall_mem_cons]

theorem Element.countedAll_iff {es : List Element} :
    Element.CountedAll es ↔ ∀ e ∈ es, e.value.Counted := by
  induction es with
  | nil => simp [Element.CountedAll]
  | cons e es ih =>
    obtain ⟨name, v⟩ := e
    rw [Element.CountedAll, ih, List.forall_mem_cons]

/-! ## Parts of an encoding -/

variable {r : Resolver}

theorem Value.exists_parts_of_encodeAll {vs : List Value} {out : Bytes}
    (h : Value.encodeAll r vs = .ok out) :
    ∃ parts, out = parts.flatten ∧ List.Forall₂ (fun v p => v.encode r = .ok p) vs parts := by
  induction vs generalizing out with
  | nil =>
    cases h
    exact ⟨[], rfl, .nil⟩
  | cons v vs ih =>
    obtain ⟨head, hhead, h⟩ := Result.bind_eq_ok.mp h
    obtain ⟨tail, htail, h⟩ := Result.bind_eq_ok.mp h
    obtain rfl := Result.pure_eq_ok.mp h
    obtain ⟨parts, rfl, hparts⟩ := ih htail
    exact ⟨head :: parts, rfl, .cons hhead hparts⟩

theorem Element.encodeAll_eq_map (es : List Element) : Element.encodeAll r es = es.map fun e =>
    (e.name, do return Bytes.uleb (← r.string e.name) ++ (← e.value.encode r)) := by
  induction es with
  | nil => rfl
  | cons e es ih =>
    obtain ⟨name, v⟩ := e
    rw [Element.encodeAll, ih, List.map_cons]

/-- An annotation that can be written: its elements in the order of their names, which differ,
behind their count and the type. -/
theorem AnnotationValue.encode_eq_ok {type : TypeId} {elements : List Element} {out : Bytes}
    {parts : List (String × Result Bytes)}
    (hp : sortedBy (byKey Text.compareUtf16 Prod.fst) (Element.encodeAll r elements) = parts)
    (h : AnnotationValue.encode r ⟨type, elements⟩ = .ok out) :
    firstAdjacent? (fun a b => a.1 == b.1) parts = none ∧ ∃ index outs,
      List.Forall₂ (fun p out => p.2 = .ok out) parts outs ∧ r.type type = .ok index ∧
        out = Bytes.uleb index ++ (Bytes.ulebNat outs.length ++ outs.flatten) := by
  rw [AnnotationValue.encode] at h
  simp only [hp] at h
  cases hd : firstAdjacent? (fun a b => a.1 == b.1) parts with
  | some p => simp only [hd, Result.violation_ne_ok] at h
  | none =>
    simp only [hd] at h
    obtain ⟨index, hi, h⟩ := Result.bind_eq_ok.mp h
    obtain ⟨body, hb, h⟩ := Result.bind_eq_ok.mp h
    obtain rfl := Result.pure_eq_ok.mp h
    obtain ⟨outs, ho, hb⟩ := Result.bind_eq_ok.mp hb
    obtain rfl := Result.pure_eq_ok.mp hb
    rw [Result.mapM_eq_ok, List.forall₂_map_left_iff] at ho
    refine ⟨rfl, index, outs, ho, hi, ?_⟩
    rw [ho.length_eq, List.append_assoc]

/-- A value takes up at least the byte for its kind. -/
theorem Value.encode_ne_nil {v : Value} {out : Bytes} (h : v.encode r = .ok out) : out ≠ [] := by
  unfold Value.encode at h
  cases v with
  | byte | short | char | int | long | float | double | null | boolean =>
    obtain rfl := Except.ok.inj h
    exact List.cons_ne_nil _ _
  | _ =>
    obtain ⟨_, -, h⟩ := Result.bind_eq_ok.mp h
    obtain rfl := Result.pure_eq_ok.mp h
    exact List.cons_ne_nil _ _

theorem length_lt_of_mem_flatten {parts : List Bytes} {p : Bytes} {n : Nat} (hp : p ∈ parts)
    (hl : parts.flatten.length < n) : p.length < n :=
  (List.sublist_flatten_of_mem hp).length_le.trans_lt hl

/-! ## Bytes that can be counted -/

mutual

theorem Value.counted_of_encode : (v : Value) → {out : Bytes} → v.encode r = .ok out →
    out.length < UInt32.size → v.Counted
  | .array values, out, h, hl => by
    obtain ⟨body, hb, h⟩ := Result.bind_eq_ok.mp h
    obtain rfl := Result.pure_eq_ok.mp h
    rw [List.length_cons, List.length_append] at hl
    obtain ⟨hle, hall⟩ := Value.countedAll_of_encodeAll values hb (by omega)
    exact ⟨by omega, hall⟩
  | .annotated a, out, h, hl => by
    obtain ⟨body, hb, h⟩ := Result.bind_eq_ok.mp h
    obtain rfl := Result.pure_eq_ok.mp h
    rw [List.length_cons] at hl
    exact AnnotationValue.counted_of_encode a hb (by omega)
  | .byte _, _, _, _ | .short _, _, _, _ | .char _, _, _, _ | .int _, _, _, _ | .long _, _, _, _
  | .float _, _, _, _ | .double _, _, _, _ | .methodType _, _, _, _ | .methodHandle _, _, _, _
  | .string _, _, _, _ | .type _, _, _, _ | .field _, _, _, _ | .method _, _, _, _
  | .enum _, _, _, _ | .null, _, _, _ | .boolean _, _, _, _ => by simp only [Value.Counted]

theorem Value.countedAll_of_encodeAll : (vs : List Value) → {out : Bytes} →
    Value.encodeAll r vs = .ok out → out.length < UInt32.size →
      vs.length ≤ out.length ∧ Value.CountedAll vs
  | [], out, _, _ => ⟨Nat.zero_le _, trivial⟩
  | v :: vs, out, h, hl => by
    obtain ⟨head, hhead, h⟩ := Result.bind_eq_ok.mp h
    obtain ⟨tail, htail, h⟩ := Result.bind_eq_ok.mp h
    obtain rfl := Result.pure_eq_ok.mp h
    have hpos := List.length_pos_of_ne_nil (Value.encode_ne_nil hhead)
    rw [List.length_append] at hl ⊢
    obtain ⟨hle, hall⟩ := Value.countedAll_of_encodeAll vs htail (by omega)
    refine ⟨?_, Value.counted_of_encode v hhead (by omega), hall⟩
    rw [List.length_cons]
    omega

theorem AnnotationValue.counted_of_encode : (a : AnnotationValue) → {out : Bytes} →
    a.encode r = .ok out → out.length < UInt32.size → a.Counted
  | ⟨type, elements⟩, out, h, hl => by
    obtain ⟨-, index, outs, houts, -, rfl⟩ := AnnotationValue.encode_eq_ok rfl h
    rw [List.length_append, List.length_append] at hl
    -- the elements are written in another order, but each of them is
    have helements : ∀ p ∈ Element.encodeAll r elements, ∃ part ∈ outs, p.2 = .ok part := by
      intro p hp
      obtain ⟨part, hpart, hrun⟩ :=
        Result.exists_left_of_mem houts.flip ((sortedBy_perm _ _).mem_iff.mpr hp)
      exact ⟨part, hpart, hrun⟩
    have hne : ∀ part ∈ outs, part ≠ [] := by
      intro part hpart
      obtain ⟨p, hp, hrun⟩ := Result.exists_left_of_mem houts hpart
      rw [(sortedBy_perm _ _).mem_iff, Element.encodeAll_eq_map] at hp
      obtain ⟨e, -, rfl⟩ := List.mem_map.mp hp
      obtain ⟨name, -, hrun⟩ := Result.bind_eq_ok.mp hrun
      obtain ⟨body, -, hrun⟩ := Result.bind_eq_ok.mp hrun
      obtain rfl := Result.pure_eq_ok.mp hrun
      exact List.append_ne_nil_of_left_ne_nil (Bytes.uleb_ne_nil name) body
    have hcount : elements.length = outs.length := by
      rw [← houts.length_eq, length_sortedBy, Element.encodeAll_eq_map, List.length_map]
    have hle := length_le_length_flatten hne
    refine ⟨by omega, Element.countedAll_of_encodeAll elements fun p hp => ?_⟩
    obtain ⟨part, hpart, hrun⟩ := helements p hp
    exact ⟨part, hrun, length_lt_of_mem_flatten hpart (by omega)⟩

theorem Element.countedAll_of_encodeAll : (es : List Element) →
    (∀ p ∈ Element.encodeAll r es, ∃ part, p.2 = .ok part ∧ part.length < UInt32.size) →
      Element.CountedAll es
  | [], _ => trivial
  | ⟨name, v⟩ :: es, h => by
    obtain ⟨⟨part, hpart, hl⟩, hes⟩ := List.forall_mem_cons.mp h
    obtain ⟨index, -, hpart⟩ := Result.bind_eq_ok.mp hpart
    obtain ⟨body, hbody, hpart⟩ := Result.bind_eq_ok.mp hpart
    obtain rfl := Result.pure_eq_ok.mp hpart
    rw [List.length_append] at hl
    exact ⟨Value.counted_of_encode v hbody (by omega), Element.countedAll_of_encodeAll es hes⟩

end

theorem counted_of_encodeArray {vs : List Value} {out : Bytes} (h : encodeArray r vs = .ok out)
    (hl : out.length < UInt32.size) : vs.length < UInt32.size ∧ ∀ v ∈ vs, v.Counted := by
  obtain ⟨body, hb, h⟩ := Result.bind_eq_ok.mp h
  obtain rfl := Result.pure_eq_ok.mp h
  rw [List.length_append] at hl
  obtain ⟨hle, hall⟩ := Value.countedAll_of_encodeAll vs hb (by omega)
  exact ⟨by omega, Value.countedAll_iff.mp hall⟩

/-! ## Values that are read -/

open Decoder

variable {s : Source}

end Dalvik
