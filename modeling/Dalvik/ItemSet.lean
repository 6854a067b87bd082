import Std.Data.HashMap

/-!
# Sets of items with ids

An item set keeps each item once, in the order of arrival. The place of an item is its id.
-/
namespace Dalvik

variable {α : Type} [BEq α] [Hashable α]

structure ItemSet (α : Type) [BEq α] [Hashable α] where
  items : Array α
  ids : Std.HashMap α Nat
  /-- The two directions agree. -/
  ids_iff : ∀ [LawfulBEq α] (a : α) (i : Nat), ids[a]? = some i ↔ items[i]? = some a

namespace ItemSet

def empty : ItemSet α := ⟨#[], ∅, by simp⟩

instance : EmptyCollection (ItemSet α) := ⟨empty⟩

instance : Inhabited (ItemSet α) := ⟨empty⟩

def size (s : ItemSet α) : Nat := s.items.size

def isEmpty (s : ItemSet α) : Bool := s.items.isEmpty

/-- The id of an item. -/
def id? (s : ItemSet α) (a : α) : Option Nat := s.ids[a]?

/-- The item with an id. -/
def get? (s : ItemSet α) (id : Nat) : Option α := s.items[id]?

def contains (s : ItemSet α) (a : α) : Bool := (s.id? a).isSome

def toList (s : ItemSet α) : List α := s.items.toList

/-- Adds an item unless it is present, and gives its id. -/
def insert (s : ItemSet α) (a : α) : Nat × ItemSet α :=
  match h : s.ids[a]? with
  | some id => (id, s)
  | none => (s.items.size, ⟨s.items.push a, s.ids.insert a s.items.size, by
      intro _ b i
      have new : ∀ j : Nat, s.items[j]? ≠ some a := fun j hj => by
        simp [(s.ids_iff a j).mpr hj] at h
      have := s.ids_iff b i
      grind⟩)

/-- The set of the items of a list, in the order of first arrival. -/
def ofList (items : List α) : ItemSet α := items.foldl (fun s a => (s.insert a).2) ∅

/-- The first item of a list that stands at an earlier place too. -/
def firstRepeated? (items : List α) : Option α := go ∅ items
where
  go (seen : ItemSet α) : List α → Option α
  | [] => none
  | a :: rest => if seen.contains a then some a else go (seen.insert a).2 rest

theorem id?_eq_some_iff [LawfulBEq α] {s : ItemSet α} {a : α} {i : Nat} :
    s.id? a = some i ↔ s.get? i = some a := s.ids_iff a i

theorem get?_insert [LawfulBEq α] (s : ItemSet α) (a : α) :
    (s.insert a).2.get? (s.insert a).1 = some a := by
  unfold insert
  split
  next h => exact (s.ids_iff _ _).mp h
  next => simp [get?]

theorem toList_insert_of_contains {s : ItemSet α} {a : α} (h : s.contains a) :
    (s.insert a).2.toList = s.toList := by
  simp only [contains, id?, Option.isSome_iff_exists] at h
  unfold insert
  split
  · rfl
  · simp_all

theorem toList_insert_of_not_contains {s : ItemSet α} {a : α} (h : ¬ s.contains a) :
    (s.insert a).2.toList = s.toList ++ [a] := by
  simp only [contains, id?] at h
  unfold insert
  split
  · simp_all
  · simp [toList]

end ItemSet

end Dalvik
