import Dalvik.Proofs.Reads
import Dalvik.Proofs.Result

/-!
# Errors that tell of nesting

Gathering and reading both look for values that too many arrays and annotations enclose. Each ends in
an error of its own kind; here the two are taken together. The rules follow the ways in which
results and decoders are put together.
-/
namespace Dalvik

/-- True of the causes that tell of a value which too many others enclose. -/
def Cause.isNesting : Cause → Bool
  | .malformed (.valueNesting ..) | .violation (.valueNesting _) => true
  | _ => false

/-- The result is an error, which tells of nesting. -/
def Result.RaisesNesting {α : Type} (r : Result α) : Prop :=
  ∃ e, r = .error e ∧ e.cause.isNesting

namespace Result
variable {α β : Type} {x : Result α} {f : α → Result β} {P Q : Prop}

@[simp] theorem not_raisesNesting_ok (a : α) : ¬ RaisesNesting (.ok a) := nofun

theorem raisesNesting_violation {reason : Violation} :
    RaisesNesting (Result.violation reason : Result α) ↔ (Cause.violation reason).isNesting :=
  ⟨fun ⟨_, he, hn⟩ => by cases he; exact hn, fun hn => ⟨_, rfl, hn⟩⟩

theorem raisesNesting_bind : (x >>= f).RaisesNesting ↔
    x.RaisesNesting ∨ ∃ a, x = .ok a ∧ (f a).RaisesNesting := by
  cases x with
  | ok a => simp [ok_bind]
  | error e =>
    constructor
    · rintro ⟨_, he, hn⟩
      cases he
      exact .inl ⟨e, rfl, hn⟩
    · rintro (⟨_, he, hn⟩ | ⟨_, ha, -⟩)
      · cases he
        exact ⟨e, rfl, hn⟩
      · cases ha

theorem not_raisesNesting_bind (hx : ¬ x.RaisesNesting) (hf : ∀ a, ¬ (f a).RaisesNesting) :
    ¬ (x >>= f).RaisesNesting := fun h =>
  (raisesNesting_bind.mp h).elim hx fun ⟨a, _, ha⟩ => hf a ha

theorem raisesNesting_within {place : String} :
    (x.within place).RaisesNesting ↔ x.RaisesNesting := by
  cases x with
  | ok a => rfl
  | error e =>
    constructor
    · rintro ⟨_, he, hn⟩
      cases he
      exact ⟨e, rfl, hn⟩
    · rintro ⟨_, he, hn⟩
      cases he
      exact ⟨_, rfl, hn⟩

/-- The result is an error of nesting if something is nested too deeply, and a value otherwise. -/
structure ChecksNesting (x : Result α) (deep : Prop) : Prop where
  raises : deep → x.RaisesNesting
  succeeds : ¬ deep → ∃ a, x = .ok a

namespace ChecksNesting

theorem raises_iff (h : x.ChecksNesting P) : x.RaisesNesting ↔ P := by
  refine ⟨fun hx => ?_, h.raises⟩
  by_contra hP
  obtain ⟨a, rfl⟩ := h.succeeds hP
  exact not_raisesNesting_ok a hx

theorem of_iff (h : x.ChecksNesting P) (hPQ : P ↔ Q) : x.ChecksNesting Q := propext hPQ ▸ h

theorem pure (a : α) : ChecksNesting (.ok a) False := ⟨False.elim, fun _ => ⟨a, rfl⟩⟩

theorem bind (hx : x.ChecksNesting P) (hf : ∀ a, (f a).ChecksNesting Q) :
    (x >>= f).ChecksNesting (P ∨ Q) := by
  constructor
  · intro hPQ
    by_cases hP : P
    · exact raisesNesting_bind.mpr (.inl (hx.raises hP))
    · obtain ⟨a, rfl⟩ := hx.succeeds hP
      exact (hf a).raises (hPQ.resolve_left hP)
  · intro hPQ
    obtain ⟨hP, hQ⟩ := not_or.mp hPQ
    obtain ⟨a, rfl⟩ := hx.succeeds hP
    exact (hf a).succeeds hQ

/-- A step behind a check, which does not fail. -/
theorem map {g : α → β} (hx : x.ChecksNesting P) : (x >>= fun a => .ok (g a)).ChecksNesting P :=
  (hx.bind fun a => .pure (g a)).of_iff (iff_of_eq (or_false P))

/-- A run of steps fails if one of them does. -/
theorem foldlM {step : β → α → Result β} {deep : α → Prop}
    (h : ∀ b a, (step b a).ChecksNesting (deep a)) (as : List α) (b : β) :
    (as.foldlM step b).ChecksNesting (∃ a ∈ as, deep a) := by
  induction as generalizing b with
  | nil => exact (ChecksNesting.pure b).of_iff (by simp)
  | cons a as ih =>
    rw [List.foldlM_cons]
    exact ((h b a).bind ih).of_iff (List.exists_mem_cons_iff _ _ _).symm

theorem forM {step : α → Result PUnit} {deep : α → Prop}
    (h : ∀ a, (step a).ChecksNesting (deep a)) (as : List α) :
    (as.forM step).ChecksNesting (∃ a ∈ as, deep a) := by
  induction as with
  | nil => exact (ChecksNesting.pure _).of_iff (by simp)
  | cons a as ih =>
    exact ((h a).bind fun _ => ih).of_iff (List.exists_mem_cons_iff _ _ _).symm

end ChecksNesting

end Result

/-! ## Readers that refuse -/

namespace Decoder
variable {α β : Type} {d : Decoder α} {f : α → Decoder β} {part rest : Bytes}

/-- Wherever the bytes lie, the decoder stops with an error of nesting. -/
def Refuses (d : Decoder α) (part : Bytes) : Prop :=
  ∀ ⦃bytes : ByteArray⦄ ⦃index : Nat⦄, part.Stands bytes index →
    (d.valueAt bytes index).RaisesNesting

namespace Refuses

theorem bind (hd : d.Refuses part) : (d >>= f).Refuses part := by
  intro bytes index hs
  have h := hd hs
  unfold Decoder.valueAt at h ⊢
  rw [bind_eq]
  cases hrun : d bytes index with
  | ok a after =>
    rw [hrun] at h
    obtain ⟨e, he, -⟩ := h
    cases he
  | error e after =>
    rw [hrun] at h
    obtain ⟨e', he, hn⟩ := h
    cases he
    exact ⟨e, rfl, hn⟩

theorem append (hd : d.Refuses part) (rest : Bytes) : d.Refuses (part ++ rest) :=
  fun _ _ hs => hd hs.left

/-- What stands in front is read. -/
theorem behind {a : α} (hd : d.Reads part a) (hf : (f a).Refuses rest) :
    (d >>= f).Refuses (part ++ rest) := by
  intro bytes index hs
  have h := hf hs.right
  unfold Decoder.valueAt at h ⊢
  rwa [bind_of_ok (hd hs.left)]

theorem lift {r : Result α} {a : α} (h : r = .ok a) (hf : (f a).Refuses part) :
    (liftM r >>= f).Refuses part := by
  intro bytes index hs
  have hrun := hf hs
  unfold Decoder.valueAt at hrun ⊢
  rwa [lift_of_ok h]

end Refuses

/-- Each part is read or refused, and one of them is refused. -/
theorem repeated_go_refuses {parts : List Bytes}
    (h : ∀ p ∈ parts, (∃ a, d.Reads p a) ∨ d.Refuses p) (hex : ∃ p ∈ parts, d.Refuses p)
    (found : List α) : (repeated.go d parts.length found).Refuses parts.flatten := by
  induction parts generalizing found with
  | nil =>
    obtain ⟨p, hp, -⟩ := hex
    exact absurd hp List.not_mem_nil
  | cons p parts ih =>
    obtain ⟨hp, hparts⟩ := List.forall_mem_cons.mp h
    rw [List.flatten_cons]
    by_cases hrefused : d.Refuses p
    · exact hrefused.bind.append parts.flatten
    · obtain ⟨a, ha⟩ := hp.resolve_right hrefused
      have hrest : ∃ q ∈ parts, d.Refuses q :=
        ((List.exists_mem_cons_iff _ _ _).mp hex).resolve_left hrefused
      exact .behind ha (ih hparts hrest (a :: found))

/-- A decoder that reads some bytes and refuses others, run where one of them lies. -/
theorem checksNesting {deep : Prop} (hrefuses : deep → d.Refuses part)
    (hreads : ¬ deep → ∃ a, d.Reads part a) {bytes : ByteArray} {index : Nat}
    (hs : part.Stands bytes index) : (d.valueAt bytes index).ChecksNesting deep where
  raises hdeep := hrefuses hdeep hs
  succeeds hdeep := (hreads hdeep).imp fun _ ha => ha.valueAt hs

end Decoder

end Dalvik
