import Dalvik.Proofs.Value.RoundTrip

/-!
# What is written for a value

A value is written part by part into a buffer that may hold anything. What the parts add up to is
its encoding, and the number that comes back is the length of that.
-/
namespace Dalvik

namespace Writer

/-- The writer adds the bytes and counts them, or fails as they do. -/
def Appends (w : Writer Nat) (x : Result Bytes) : Prop :=
  ∀ buffer, w buffer = x.map fun out => (out.length, buffer ++ out)

namespace Appends

variable {α : Type} {w v : Writer Nat} {x y : Result Bytes}

theorem put (part : Bytes) : Appends (part.put : StateM Bytes Nat) (.ok part) := fun _ => rfl

/-- Bytes that are known before any is written. -/
theorem encoded (x : Result Bytes) : Appends (do Bytes.put (← x)) x := by
  intro buffer
  cases x <;> rfl

theorem nothing : Appends (return 0) (.ok []) := fun buffer => by
  change Except.ok (0, buffer) = Except.ok (([] : Bytes).length, buffer ++ [])
  rw [List.append_nil, List.length_nil]

theorem lift_bind {a : Result α} {f : α → Writer Nat} {g : α → Result Bytes}
    (h : ∀ i, Appends (f i) (g i)) : Appends (liftM a >>= f) (a >>= g) := by
  intro buffer
  cases a with
  | error e => rfl
  | ok i => exact h i buffer

theorem fail {reason : Violation} :
    Appends (liftM (Result.violation reason : Result Nat)) (Result.violation reason) := fun _ => rfl

theorem andThen (hw : Appends w x) (hv : Appends v y) :
    Appends (do return (← w) + (← v)) (do return (← x) ++ (← y)) := by
  intro buffer
  change (w buffer >>= fun p => v p.2 >>= fun q => Except.ok (p.1 + q.1, q.2)) = _
  rw [hw]
  cases x with
  | error e => rfl
  | ok out =>
    change (v (buffer ++ out) >>= fun q => Except.ok (out.length + q.1, q.2)) = _
    rw [hv]
    cases y with
    | error e => rfl
    | ok rest =>
      change Except.ok (out.length + rest.length, buffer ++ out ++ rest) =
        Except.ok ((out ++ rest).length, buffer ++ (out ++ rest))
      rw [List.length_append, List.append_assoc]

/-- Bytes that are always written come first. -/
theorem behind (part : Bytes) (hw : Appends w x) :
    Appends (do return (← part.put) + (← w)) (do return part ++ (← x)) :=
  (put part).andThen hw

/-- The buffer counts the same. -/
theorem measured (hw : Appends w x) : Appends w.measured x := by
  intro buffer
  change (w buffer >>= fun p => Except.ok (p.2.length - buffer.length, p.2)) = _
  rw [hw]
  cases x with
  | error e => rfl
  | ok out =>
    change Except.ok ((buffer ++ out).length - buffer.length, buffer ++ out) = _
    rw [List.length_append, Nat.add_sub_cancel_left]
    rfl

theorem sum {ws : List (Writer Nat)} {xs : List (Result Bytes)} (h : List.Forall₂ Appends ws xs) :
    Appends (Writer.sum ws) (concatAll xs) := by
  induction h with
  | nil => exact nothing
  | @cons w x ws xs hw _ ih =>
    have hcons : concatAll (x :: xs) = do return (← x) ++ (← concatAll xs) := by
      simp only [concatAll, List.mapM_cons, id_eq, bind_assoc, pure_bind, List.flatten_cons]
    rw [hcons]
    exact hw.andThen ih

end Appends
end Writer

/-! ## Values -/

variable {r : Resolver} {s : Source}

open Writer

mutual

theorem Value.write_appends : (v : Value) → Appends (v.write r) (v.encode r)
  | .array values => by
    have h := (Appends.behind [0x1c] (.behind (Bytes.ulebNat values.length)
      (Value.writeAll_appends values))).measured
    simp only [bind_assoc, pure_bind] at h
    rw [Value.write, Value.encode]
    exact h
  | .annotated a => by
    rw [Value.write, Value.encode]
    exact (Appends.behind [0x1d] (AnnotationValue.write_appends a)).measured
  | .byte _ | .short _ | .char _ | .int _ | .long _ | .float _ | .double _ | .methodType _
  | .methodHandle _ | .string _ | .type _ | .field _ | .method _ | .enum _ | .null | .boolean _ => by
    simp only [Value.write]
    exact (Appends.encoded _).measured

theorem Value.writeAll_appends : (vs : List Value) →
    Appends (Value.writeAll r vs) (Value.encodeAll r vs)
  | [] => .nothing
  | v :: vs => (Value.write_appends v).andThen (Value.writeAll_appends vs)

theorem AnnotationValue.write_appends : (a : AnnotationValue) → Appends (a.write r) (a.encode r)
  | ⟨type, elements⟩ => by
    have hs := forall₂_sortedBy Text.compareUtf16 (Element.writers_append elements) fun _ _ h => h.1
    have hdup := map_firstAdjacent? hs fun _ _ h => h.1
    rw [AnnotationValue.write, AnnotationValue.encode]
    generalize sortedBy (byKey Text.compareUtf16 Prod.fst) (Element.writers r elements) = writers
      at hs hdup ⊢
    generalize sortedBy (byKey Text.compareUtf16 Prod.fst) (Element.encodeAll r elements) = parts
      at hs hdup ⊢
    split
    next hw =>
      rw [hw, Option.map_some] at hdup
      obtain ⟨⟨_, _⟩, hx, rfl⟩ := Option.map_eq_some_iff.mp hdup.symm
      rw [hx]
      exact .fail
    next hw =>
      rw [hw, Option.map_none, eq_comm, Option.map_eq_none_iff] at hdup
      rw [hdup, hs.length_eq]
      have hall : List.Forall₂ Appends (writers.map Prod.snd) (parts.map Prod.snd) :=
        List.forall₂_map_left_iff.mpr (List.forall₂_map_right_iff.mpr (hs.imp fun _ _ h => h.2))
      refine .lift_bind fun index => ?_
      have h := Appends.behind (Bytes.uleb index)
        (.behind (Bytes.ulebNat parts.length) (.sum hall))
      simp only [bind_assoc, pure_bind, ← Nat.add_assoc, ← List.append_assoc] at h
      exact h

theorem Element.writers_append : (es : List Element) →
    List.Forall₂ (fun w x => w.1 = x.1 ∧ Appends w.2 x.2) (Element.writers r es)
      (Element.encodeAll r es)
  | [] => .nil
  | ⟨_, v⟩ :: es => .cons ⟨rfl, .lift_bind fun _ => .behind _ (Value.write_appends v)⟩
      (Element.writers_append es)

end

end Dalvik
