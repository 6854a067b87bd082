/-!
# Orders by a key and sorted lists

Composite values are ordered by one part after another. `byKey` takes a part and the order it is
compared in, and keeps the laws of that order. Sorting is stable, and what is sorted is searched by
halving it.
-/
namespace Dalvik

/-- Compares by a part of each value. -/
def byKey {α β : Type} (cmp : β → β → Ordering) (key : α → β) : α → α → Ordering :=
  fun a b => cmp (key a) (key b)

variable {α β : Type} {cmp : β → β → Ordering} {key : α → β}

theorem byKey_eq_eq_iff [Std.LawfulEqCmp cmp] {a b : α} :
    byKey cmp key a b = .eq ↔ key a = key b := by
  simp [byKey]

theorem compareLex_eq_eq_iff {first second : α → α → Ordering} {a b : α} :
    compareLex first second a b = .eq ↔ first a b = .eq ∧ second a b = .eq := by
  simp [compareLex]

instance [Std.ReflCmp cmp] : Std.ReflCmp (byKey cmp key) where
  compare_self {a} := (Std.ReflCmp.compare_self : cmp (key a) (key a) = .eq)

instance [Std.OrientedCmp cmp] : Std.OrientedCmp (byKey cmp key) where
  eq_swap {a b} :=
    (Std.OrientedCmp.eq_swap : cmp (key a) (key b) = (cmp (key b) (key a)).swap)

instance [Std.TransCmp cmp] : Std.TransCmp (byKey cmp key) where
  isLE_trans {a b c} :=
    (Std.TransCmp.isLE_trans : (cmp (key a) (key b)).isLE → (cmp (key b) (key c)).isLE →
      (cmp (key a) (key c)).isLE)

/-- The list in ascending order; equal entries keep their places among each other. -/
def sortedBy {α : Type} (cmp : α → α → Ordering) (entries : List α) : List α :=
  entries.mergeSort fun a b => (cmp a b).isLE

/-- The first entry that satisfies the test together with the entry behind it. -/
def firstAdjacent? {α : Type} (test : α → α → Bool) : List α → Option α
  | a :: b :: rest => if test a b then some a else firstAdjacent? test (b :: rest)
  | _ => none

/-- The place of an entry that `probe` finds equal, among those from `low` up to `high`. The entries
before it have to be less and those behind it greater. -/
def bisect {α : Type} (probe : α → Ordering) (entries : Array α) (low high : Nat) : Option Nat :=
  if low < high then
    let middle := low + (high - low) / 2
    match entries[middle]? with
    | none => none
    | some a =>
      match probe a with
      | .eq => some middle
      | .lt => bisect probe entries (middle + 1) high
      | .gt => bisect probe entries low middle
  else none
termination_by high - low

theorem sortedBy_perm {α : Type} (cmp : α → α → Ordering) (entries : List α) :
    (sortedBy cmp entries).Perm entries := List.mergeSort_perm _ _

theorem pairwise_sortedBy {α : Type} (cmp : α → α → Ordering) [Std.TransCmp cmp]
    (entries : List α) : (sortedBy cmp entries).Pairwise fun a b => (cmp a b).isLE := by
  apply List.pairwise_mergeSort
  · exact fun _ _ _ => Std.TransCmp.isLE_trans
  · intro a b
    rw [show cmp a b = (cmp b a).swap from Std.OrientedCmp.eq_swap]
    cases cmp b a <;> rfl

end Dalvik
