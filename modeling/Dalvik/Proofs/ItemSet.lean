import Dalvik.ItemSet
import Mathlib

/-!
# The items of a set

An insertion keeps the ids that are given out, and adds no item but its own.
-/
namespace Dalvik.ItemSet

variable {α : Type} [BEq α] [Hashable α] {s : ItemSet α} {a b : α} {i : Nat}

theorem get?_insert_of_get? (h : s.get? i = some b) : (s.insert a).2.get? i = some b := by
  unfold insert
  split
  · exact h
  · have hi : i < s.items.size := (Array.getElem?_eq_some_iff.mp h).1
    simpa [get?, Array.getElem?_push_lt, hi] using h

@[simp] theorem id?_empty (a : α) : (∅ : ItemSet α).id? a = none :=
  Std.HashMap.getElem?_empty

theorem length_toList (s : ItemSet α) : s.toList.length = s.size := Array.length_toList

theorem getElem?_toList (s : ItemSet α) (i : Nat) : s.toList[i]? = s.get? i := by
  simp [toList, get?]

/-- A run of insertions adds some of the items in their order. -/
theorem exists_sublist_foldl (items : List α) (s : ItemSet α) :
    ∃ new, new.Sublist items ∧
      (items.foldl (fun s b => (s.insert b).2) s).toList = s.toList ++ new := by
  induction items generalizing s with
  | nil => exact ⟨[], .slnil, (List.append_nil _).symm⟩
  | cons b items ih =>
    obtain ⟨new, hsub, heq⟩ := ih (s.insert b).2
    rw [List.foldl_cons, heq]
    by_cases h : s.contains b
    · exact ⟨new, hsub.cons b, by rw [toList_insert_of_contains h]⟩
    · refine ⟨b :: new, hsub.cons_cons b, ?_⟩
      rw [toList_insert_of_not_contains h, List.append_assoc]
      rfl

theorem sublist_toList_ofList (items : List α) : (ofList items).toList.Sublist items := by
  obtain ⟨new, hsub, heq⟩ := exists_sublist_foldl items ∅
  have hempty : (∅ : ItemSet α).toList = [] := rfl
  rw [ofList, heq, hempty]
  exact hsub

variable [LawfulBEq α]

theorem id?_insert_self (s : ItemSet α) (a : α) : (s.insert a).2.id? a = some (s.insert a).1 :=
  id?_eq_some_iff.mpr (get?_insert s a)

theorem id?_insert_of_id? (h : s.id? b = some i) : (s.insert a).2.id? b = some i :=
  id?_eq_some_iff.mpr (get?_insert_of_get? (id?_eq_some_iff.mp h))

theorem mem_toList_iff : a ∈ s.toList ↔ ∃ i, s.id? a = some i := by
  simp only [id?_eq_some_iff, toList, Array.mem_toList_iff, Array.mem_iff_getElem?, get?]

theorem isSome_id?_iff : (s.id? a).isSome ↔ a ∈ s.toList := by
  rw [mem_toList_iff, Option.isSome_iff_exists]

theorem mem_toList_insert : b ∈ (s.insert a).2.toList ↔ b ∈ s.toList ∨ b = a := by
  by_cases h : s.contains a
  · rw [toList_insert_of_contains h]
    refine ⟨Or.inl, fun hb => hb.elim id fun e => ?_⟩
    rw [e]
    exact isSome_id?_iff.mp h
  · rw [toList_insert_of_not_contains h]
    simp

theorem exists_id?_insert_iff :
    (∃ i, (s.insert a).2.id? b = some i) ↔ (∃ i, s.id? b = some i) ∨ b = a := by
  simp only [← mem_toList_iff, mem_toList_insert]

theorem lt_length_of_id? (h : s.id? a = some i) : i < s.toList.length :=
  (Array.getElem?_eq_some_iff.mp (id?_eq_some_iff.mp h)).1

theorem mem_toList_foldl (items : List α) (s : ItemSet α) :
    a ∈ (items.foldl (fun s b => (s.insert b).2) s).toList ↔ a ∈ s.toList ∨ a ∈ items := by
  induction items generalizing s with
  | nil => simp
  | cons b items ih => rw [List.foldl_cons, ih, mem_toList_insert, List.mem_cons, or_assoc]

theorem id?_eq_iff_getElem? : s.id? a = some i ↔ s.toList[i]? = some a := by
  rw [getElem?_toList, id?_eq_some_iff]

theorem eq_of_id? (ha : s.id? a = some i) (hb : s.id? b = some i) : a = b :=
  Option.some.inj ((id?_eq_some_iff.mp ha).symm.trans (id?_eq_some_iff.mp hb))

theorem nodup_toList (s : ItemSet α) : s.toList.Nodup := by
  apply List.nodup_iff_getElem?_ne_getElem?.mpr
  intro i j hij hj h
  have hi := id?_eq_iff_getElem?.mpr (h.trans (List.getElem?_eq_getElem hj))
  rw [id?_eq_iff_getElem?.mpr (List.getElem?_eq_getElem hj)] at hi
  exact absurd (Option.some.inj hi).symm (Nat.ne_of_lt hij)

theorem mem_toList_ofList {items : List α} : a ∈ (ofList items).toList ↔ a ∈ items := by
  rw [ofList, mem_toList_foldl]
  exact or_iff_right fun h => List.not_mem_nil h

theorem toList_ofList_of_nodup {items : List α} (h : items.Nodup) : (ofList items).toList = items :=
  (sublist_toList_ofList items).eq_of_length_le
    (List.subperm_of_subset h fun _ ha => mem_toList_ofList.mpr ha).length_le

theorem insert_of_mem (h : a ∈ s.toList) : (s.insert a).2 = s := by
  obtain ⟨i, hi⟩ := mem_toList_iff.mp h
  change s.ids[a]? = some i at hi
  unfold insert
  split
  · rfl
  next hnone =>
    rw [hnone] at hi
    cases hi

theorem toList_insert [DecidableEq α] (s : ItemSet α) (a : α) :
    (s.insert a).2.toList = if a ∈ s.toList then s.toList else s.toList ++ [a] := by
  by_cases h : s.contains a
  · rw [toList_insert_of_contains h, if_pos (isSome_id?_iff.mp h)]
  · rw [toList_insert_of_not_contains h, if_neg fun hmem => h (isSome_id?_iff.mpr hmem)]

theorem nodup_of_firstRepeated?_go {items : List α} (h : firstRepeated?.go s items = none) :
    items.Nodup ∧ ∀ a ∈ items, a ∉ s.toList := by
  induction items generalizing s with
  | nil => simp
  | cons b items ih =>
    rw [firstRepeated?.go] at h
    split at h
    · cases h
    next hb =>
      obtain ⟨hnodup, hnew⟩ := ih h
      have hne : ∀ a ∈ items, a ∉ s.toList ∧ a ≠ b := fun a ha =>
        not_or.mp (mt mem_toList_insert.mpr (hnew a ha))
      rw [contains, isSome_id?_iff] at hb
      refine ⟨List.nodup_cons.mpr ⟨fun hmem => (hne b hmem).2 rfl, hnodup⟩, ?_⟩
      exact List.forall_mem_cons.mpr ⟨hb, fun a ha => (hne a ha).1⟩

/-- A list in which no item is repeated has distinct items. -/
theorem nodup_of_firstRepeated? {items : List α} (h : firstRepeated? items = none) : items.Nodup :=
  (nodup_of_firstRepeated?_go h).1

end Dalvik.ItemSet
