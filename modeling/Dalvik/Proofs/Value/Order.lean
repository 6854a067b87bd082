import Dalvik.CallSite
import Dalvik.Proofs.Order

/-!
# Values and call sites are in strict total orders

The order of values is built from those of its parts, kinds first. That it is transitive is what
sorting needs, and with call sites it makes all pools sorted in one way only.
-/
namespace Dalvik
open Text

/-- Values of different kinds are ordered by their kinds. -/
theorem Value.cmp_of_kind_ne {a b : Value} (h : a.kind ≠ b.kind) :
    a.cmp b = compare a.kind b.kind := by
  cases a <;> cases b <;> first | rfl | simp [Value.kind] at h

theorem Value.kind_le_of_isLE {a b : Value} (h : (a.cmp b).isLE) : a.kind ≤ b.kind := by
  by_cases hkind : a.kind = b.kind
  · exact UInt8.le_of_eq hkind
  · rw [cmp_of_kind_ne hkind] at h
    exact Std.isLE_compare.mp h

/-! ## Comparing the other way round -/

mutual

theorem Value.cmp_swap (a b : Value) : a.cmp b = (b.cmp a).swap := by
  match a with
  | .array as =>
    cases b with
    | array bs => exact Value.cmpList_swap as bs
    | _ => rfl
  | .annotated x =>
    cases b with
    | annotated y => exact AnnotationValue.cmp_swap x y
    | _ => rfl
  | .byte _ | .short _ | .char _ | .int _ | .long _ | .float _ | .double _
  | .methodType _ | .methodHandle _ | .string _ | .type _ | .field _
  | .method _ | .enum _ | .null | .boolean _ =>
    cases b <;> first
      | rfl
      | (simp only [Value.cmp]; exact Std.OrientedCmp.eq_swap)

theorem Value.cmpList_swap (as bs : List Value) :
    Value.cmpList as bs = (Value.cmpList bs as).swap := by
  match as, bs with
  | [], [] | [], _ :: _ | _ :: _, [] => rfl
  | a :: as, b :: bs =>
    rw [Value.cmpList, Value.cmpList, Ordering.swap_then, ← Value.cmp_swap a b,
      ← Value.cmpList_swap as bs]

theorem AnnotationValue.cmp_swap (x y : AnnotationValue) : x.cmp y = (y.cmp x).swap := by
  match x, y with
  | ⟨s, as⟩, ⟨t, bs⟩ =>
    have types : compare s t = (compare t s).swap := Std.OrientedCmp.eq_swap
    rw [AnnotationValue.cmp, AnnotationValue.cmp, Ordering.swap_then, ← Element.cmpList_swap as bs,
      ← types]

theorem Element.cmpList_swap (as bs : List Element) :
    Element.cmpList as bs = (Element.cmpList bs as).swap := by
  match as, bs with
  | [], [] | [], _ :: _ | _ :: _, [] => rfl
  | a :: as, b :: bs =>
    rw [Element.cmpList, Element.cmpList, Ordering.swap_then, ← Element.cmp_swap a b,
      ← Element.cmpList_swap as bs]

theorem Element.cmp_swap (x y : Element) : Element.cmp x y = (Element.cmp y x).swap := by
  match x, y with
  | ⟨n, a⟩, ⟨m, b⟩ =>
    have names : compareUtf16 n m = (compareUtf16 m n).swap := Std.OrientedCmp.eq_swap
    rw [Element.cmp, Element.cmp, Ordering.swap_then, ← Value.cmp_swap a b, ← names]

end

/-! ## Three values -/

section
variable {α : Type} {cmp : α → α → Ordering}

/-- The law at three values. -/
def TransAt (cmp : α → α → Ordering) (a b c : α) : Prop :=
  (cmp a b).isLE → (cmp b c).isLE → (cmp a c).isLE

/-- The first parts count first. -/
theorem isLE_then_trans {a b c : α} {xy yz xz : Ordering}
    (heq : ∀ {a b}, cmp a b = .eq ↔ a = b) (hswap : ∀ a b, cmp a b = (cmp b a).swap)
    (hfirst : TransAt cmp a b c)
    (hsecond : xy.isLE → yz.isLE → xz.isLE) (h : ((cmp a b).then xy).isLE)
    (h' : ((cmp b c).then yz).isLE) : ((cmp a c).then xz).isLE := by
  rw [Ordering.isLE_then_iff_or] at h h' ⊢
  rcases h with hab | ⟨hab, hxy⟩
  · left
    rcases h' with hbc | ⟨hbc, -⟩
    · have hle := hfirst (Ordering.isLE_of_eq_lt hab) (Ordering.isLE_of_eq_lt hbc)
      refine (Ordering.isLE_iff_eq_lt_or_eq_eq.mp hle).resolve_right fun hac => ?_
      obtain rfl := heq.mp hac
      rw [hswap, hbc] at hab
      cases hab
    · rwa [← heq.mp hbc]
  · obtain rfl := heq.mp hab
    exact h'.imp_right fun ⟨hbc, hyz⟩ => ⟨hbc, hsecond hxy hyz⟩

end

mutual

theorem Value.cmp_trans (a b c : Value) : TransAt Value.cmp a b c := by
  intro hab hbc
  have hle := Value.kind_le_of_isLE hab
  have hle' := Value.kind_le_of_isLE hbc
  by_cases h : a.kind = b.kind ∧ b.kind = c.kind
  · obtain ⟨h, h'⟩ := h
    match a with
    | .array as =>
      cases b with
      | array bs =>
        cases c with
        | array cs => exact Value.cmpList_trans as bs cs hab hbc
        | _ => simp [Value.kind] at h'
      | _ => simp [Value.kind] at h
    | .annotated x =>
      cases b with
      | annotated y =>
        cases c with
        | annotated z => exact AnnotationValue.cmp_trans x y z hab hbc
        | _ => simp [Value.kind] at h'
      | _ => simp [Value.kind] at h
    | .byte _ | .short _ | .char _ | .int _ | .long _ | .float _ | .double _
    | .methodType _ | .methodHandle _ | .string _ | .type _ | .field _
    | .method _ | .enum _ | .null | .boolean _ =>
      cases b <;> first
        | (simp [Value.kind] at h; done)
        | cases c <;> first
          | (simp [Value.kind] at h'; done)
          | rfl
          | (simp only [Value.cmp] at hab hbc ⊢; exact Std.TransCmp.isLE_trans hab hbc)
  · have hlt : a.kind < c.kind := by
      rcases not_and_or.mp h with h | h
      · exact UInt8.lt_of_lt_of_le (UInt8.lt_of_le_of_ne hle h) hle'
      · exact UInt8.lt_of_le_of_lt hle (UInt8.lt_of_le_of_ne hle' h)
    rw [Value.cmp_of_kind_ne (UInt8.ne_of_lt hlt)]
    exact Std.isLE_compare.mpr (UInt8.le_of_lt hlt)

theorem Value.cmpList_trans (as bs cs : List Value) : TransAt Value.cmpList as bs cs := by
  match as, bs, cs with
  | [], _, [] => exact fun _ _ => rfl
  | [], _, _ :: _ => exact fun _ _ => rfl
  | _ :: _, [], _ => nofun
  | _ :: _, _ :: _, [] => exact fun _ h => absurd h (by simp [Value.cmpList])
  | a :: as, b :: bs, c :: cs =>
    exact isLE_then_trans Value.cmp_eq_iff Value.cmp_swap (Value.cmp_trans a b c)
      (Value.cmpList_trans as bs cs)

theorem AnnotationValue.cmp_trans (x y z : AnnotationValue) : TransAt AnnotationValue.cmp x y z := by
  match x, y, z with
  | ⟨s, as⟩, ⟨t, bs⟩, ⟨u, cs⟩ =>
    have types : TransAt compare s t u := Std.TransCmp.isLE_trans
    exact isLE_then_trans Std.compare_eq_iff_eq (fun _ _ => Std.OrientedCmp.eq_swap) types
      (Element.cmpList_trans as bs cs)

theorem Element.cmpList_trans (as bs cs : List Element) : TransAt Element.cmpList as bs cs := by
  match as, bs, cs with
  | [], _, [] => exact fun _ _ => rfl
  | [], _, _ :: _ => exact fun _ _ => rfl
  | _ :: _, [], _ => nofun
  | _ :: _, _ :: _, [] => exact fun _ h => absurd h (by simp [Element.cmpList])
  | a :: as, b :: bs, c :: cs =>
    exact isLE_then_trans Element.cmp_eq_iff Element.cmp_swap (Element.cmp_trans a b c)
      (Element.cmpList_trans as bs cs)

theorem Element.cmp_trans (x y z : Element) : TransAt Element.cmp x y z := by
  match x, y, z with
  | ⟨n, a⟩, ⟨m, b⟩, ⟨k, c⟩ =>
    exact isLE_then_trans compareUtf16_eq_iff (fun _ _ => Std.OrientedCmp.eq_swap)
      Std.TransCmp.isLE_trans (Value.cmp_trans a b c)

end

instance : Std.TransOrd Value where
  eq_swap {a b} := Value.cmp_swap a b
  isLE_trans {a b c} := Value.cmp_trans a b c

instance : Std.TransOrd AnnotationValue where
  eq_swap {x y} := AnnotationValue.cmp_swap x y
  isLE_trans {x y z} := AnnotationValue.cmp_trans x y z

instance : Std.LawfulEqOrd AnnotationValue where
  compare_self {x} := AnnotationValue.cmp_self x
  eq_of_compare {x y} := AnnotationValue.eq_of_cmp x y

instance : Std.TransOrd Element where
  eq_swap {x y} := Element.cmp_swap x y
  isLE_trans {x y z} := Element.cmp_trans x y z

instance : Std.LawfulEqOrd Element where
  compare_self {x} := Element.cmp_self x
  eq_of_compare {x y} := Element.eq_of_cmp x y

instance : Std.TransCmp Value.cmpList where
  eq_swap {as bs} := Value.cmpList_swap as bs
  isLE_trans {as bs cs} := Value.cmpList_trans as bs cs

instance : Std.LawfulEqCmp Value.cmpList where
  compare_self {as} := Value.cmpList_self as
  eq_of_compare {as bs} := Value.eq_of_cmpList as bs

/-! ## Call sites -/

instance : Std.TransOrd CallSite :=
  inferInstanceAs (Std.TransCmp (compareLex _ (compareLex _ (compareLex _ (compareLex _ _)))))

instance : Std.LawfulEqOrd CallSite where
  eq_of_compare {a b} h := by
    cases a
    cases b
    simpa [compareLex_eq_eq_iff, byKey_eq_eq_iff] using compareLex_eq_eq_iff.mp h

/-- Values, elements, annotations and call sites are in strict total orders, however deep their values
are nested, and only what is the same compares as equal. Of floating-point numbers all bits count: a
zero differs from the negative one, and so do numbers that are none with other bits. -/
theorem strictTotal_values :
    StrictTotal Value.cmp ∧ StrictTotal Element.cmp ∧ StrictTotal AnnotationValue.cmp ∧
      StrictTotal CallSite.cmp ∧
      (∀ bits bits', (Value.float bits).cmp (.float bits') = .eq ↔ bits = bits') ∧
      ∀ bits bits', (Value.double bits).cmp (.double bits') = .eq ↔ bits = bits' := by
  have values : StrictTotal (compare : Value → Value → Ordering) := strictTotal_of_lawful _
  have elements : StrictTotal (compare : Element → Element → Ordering) := strictTotal_of_lawful _
  have annotations : StrictTotal (compare : AnnotationValue → AnnotationValue → Ordering) :=
    strictTotal_of_lawful _
  have sites : StrictTotal (compare : CallSite → CallSite → Ordering) := strictTotal_of_lawful _
  refine ⟨values, elements, annotations, sites, fun bits bits' => ?_, fun bits bits' => ?_⟩
  · rw [Value.cmp_eq_iff, Value.float.injEq]
  · rw [Value.cmp_eq_iff, Value.double.injEq]

end Dalvik
