import Dalvik.Order
import Mathlib

/-!
# Strict total orders and sorted lists

A comparison that tells all values apart puts them in a strict total order. Sorting by a key commutes
with maps that keep the key, so that the entries of two lists which belong together still do after
both have been sorted. Halving a list that ascends strictly finds whatever is in it.
-/
namespace Dalvik
variable {α β κ : Type} {cmp : κ → κ → Ordering}

/-! ## Strict total orders -/

/-- Comparing decides a strict total order, and tells apart all that is different. -/
structure StrictTotal (cmp : α → α → Ordering) : Prop where
  eq_iff : ∀ a b, cmp a b = .eq ↔ a = b
  swap : ∀ a b, cmp b a = (cmp a b).swap
  trans : ∀ a b c, cmp a b = .lt → cmp b c = .lt → cmp a c = .lt
  total : ∀ a b, cmp a b = .lt ∨ a = b ∨ cmp b a = .lt

theorem strictTotal_of_lawful (cmp : α → α → Ordering) [Std.TransCmp cmp] [Std.LawfulEqCmp cmp] :
    StrictTotal cmp where
  eq_iff _ _ := Std.LawfulEqCmp.compare_eq_iff_eq
  swap _ _ := Std.OrientedCmp.eq_swap
  trans _ _ _ hab hbc := Std.TransCmp.lt_trans hab hbc
  total a b := by
    cases h : cmp a b with
    | lt => exact .inl rfl
    | eq => exact .inr (.inl (Std.LawfulEqCmp.eq_of_compare h))
    | gt => exact .inr (.inr (Std.OrientedCmp.lt_of_gt h))

/-! ## Sorting -/

theorem map_sortedBy {f : α → β} {key : α → κ} {key' : β → κ} (as : List α)
    (h : ∀ a ∈ as, key' (f a) = key a) :
    (sortedBy (byKey cmp key) as).map f = sortedBy (byKey cmp key') (as.map f) := by
  apply List.map_mergeSort
  intro a ha b hb
  simp only [byKey, h a ha, h b hb]

/-- Two lists whose entries belong together by their keys still do when both are sorted. -/
theorem forall₂_sortedBy (cmp : κ → κ → Ordering) {R : α → β → Prop} {f : α → κ} {g : β → κ}
    {as : List α} {bs : List β} (h : List.Forall₂ R as bs) (hk : ∀ a b, R a b → f a = g b) :
    List.Forall₂ R (sortedBy (byKey cmp f) as) (sortedBy (byKey cmp g) bs) := by
  -- sort the pairs instead
  obtain ⟨pairs, rfl, rfl, hp⟩ : ∃ pairs : List (α × β),
      pairs.map Prod.fst = as ∧ pairs.map Prod.snd = bs ∧ ∀ p ∈ pairs, R p.1 p.2 := by
    induction h with
    | nil => exact ⟨[], rfl, rfl, by simp⟩
    | @cons a b as bs hab _ ih =>
      obtain ⟨pairs, ha, hb, hp⟩ := ih
      exact ⟨(a, b) :: pairs, by simp [ha], by simp [hb], List.forall_mem_cons.mpr ⟨hab, hp⟩⟩
  have hf : sortedBy (byKey cmp f) (pairs.map Prod.fst) =
      (sortedBy (byKey cmp fun p => f p.1) pairs).map Prod.fst :=
    (map_sortedBy pairs fun _ _ => rfl).symm
  have hg : sortedBy (byKey cmp g) (pairs.map Prod.snd) =
      (sortedBy (byKey cmp fun p => f p.1) pairs).map Prod.snd :=
    (map_sortedBy pairs fun p h => (hk _ _ (hp p h)).symm).symm
  rw [hf, hg, List.forall₂_map_left_iff, List.forall₂_map_right_iff, List.forall₂_same]
  intro p h
  exact hp p ((sortedBy_perm _ _).mem_iff.mp h)

theorem length_sortedBy (cmp : α → α → Ordering) (as : List α) :
    (sortedBy cmp as).length = as.length := (sortedBy_perm cmp as).length_eq

/-- A list that is in order already stays as it is. -/
theorem sortedBy_of_pairwise {cmp : α → α → Ordering} {as : List α}
    (h : as.Pairwise fun a b => (cmp a b).isLE) : sortedBy cmp as = as :=
  List.mergeSort_of_pairwise h

/-- Sorting forgets how entries were listed that no two of compare as equal. -/
theorem sortedBy_eq_of_perm {cmp : α → α → Ordering} [Std.TransCmp cmp] {as bs : List α}
    (h : as.Perm bs) (heq : ∀ a ∈ as, ∀ b ∈ as, cmp a b = .eq → a = b) :
    sortedBy cmp as = sortedBy cmp bs := by
  have hperm : (sortedBy cmp as).Perm (sortedBy cmp bs) :=
    (sortedBy_perm _ _).trans (h.trans (sortedBy_perm _ _).symm)
  refine hperm.eq_of_pairwise (fun a b ha hb hab hba => ?_) (pairwise_sortedBy _ _)
    (pairwise_sortedBy _ _)
  have ha : a ∈ as := (sortedBy_perm _ _).mem_iff.mp ha
  have hb : b ∈ as := h.mem_iff.mpr ((sortedBy_perm _ _).mem_iff.mp hb)
  exact heq a ha b hb (Std.OrientedCmp.isLE_antisymm hab hba)

/-- A sorted list in which no two neighbours share a key ascends strictly. -/
theorem pairwise_lt_of_firstAdjacent? {cmp : κ → κ → Ordering} [Std.TransCmp cmp]
    [Std.LawfulEqCmp cmp] [BEq κ] [LawfulBEq κ] {key : α → κ} {as : List α}
    (hs : as.Pairwise fun a b => (byKey cmp key a b).isLE)
    (hn : firstAdjacent? (fun a b => key a == key b) as = none) :
    as.Pairwise fun a b => cmp (key a) (key b) = .lt := by
  induction as with
  | nil => exact .nil
  | cons a as ih =>
    cases as with
    | nil => exact List.pairwise_singleton _ a
    | cons b as =>
      rw [firstAdjacent?] at hn
      split at hn
      · cases hn
      next hne =>
        obtain ⟨hle, hs⟩ := List.pairwise_cons.mp hs
        have hrest := ih hs hn
        have hlt : cmp (key a) (key b) = .lt := by
          refine (Ordering.isLE_iff_eq_lt_or_eq_eq.mp (hle b List.mem_cons_self)).resolve_right ?_
          exact fun heq => hne (beq_iff_eq.mpr (Std.LawfulEqCmp.eq_of_compare heq))
        refine List.pairwise_cons.mpr ⟨List.forall_mem_cons.mpr ⟨hlt, fun c hc => ?_⟩, hrest⟩
        exact Std.TransCmp.lt_trans hlt ((List.pairwise_cons.mp hrest).1 c hc)

/-- The key that two neighbours share stands twice among the keys. -/
theorem duplicate_of_firstAdjacent? [BEq κ] [LawfulBEq κ] {key : α → κ} {as : List α} {a : α}
    (h : firstAdjacent? (fun a b => key a == key b) as = some a) :
    (as.map key).Duplicate (key a) := by
  fun_induction firstAdjacent? (fun a b => key a == key b) as with
  | case1 b c rest heq =>
    cases h
    rw [List.map_cons, List.map_cons, beq_iff_eq.mp heq]
    exact .cons_mem List.mem_cons_self
  | case2 b c rest _ ih => exact .cons_duplicate (ih h)
  | case3 => cases h

/-- Lists with the same keys have the same key at two neighbours. -/
theorem map_firstAdjacent? [BEq κ] {R : α → β → Prop} {f : α → κ} {g : β → κ} {as : List α}
    {bs : List β} (h : List.Forall₂ R as bs) (hk : ∀ a b, R a b → f a = g b) :
    (firstAdjacent? (fun a b => f a == f b) as).map f =
      (firstAdjacent? (fun a b => g a == g b) bs).map g := by
  induction h with
  | nil => rfl
  | @cons a b as bs hab hrest ih =>
    cases hrest with
    | nil => rfl
    | @cons a' b' as bs hab' _ =>
      rw [firstAdjacent?, firstAdjacent?, hk a b hab, hk a' b' hab']
      split
      · rw [Option.map_some, Option.map_some, hk a b hab]
      · exact ih

/-- The places in a sorted list are in the order of the values. -/
theorem lt_of_getElem? {cmp : α → α → Ordering} [Std.TransCmp cmp] {as : List α}
    (hs : as.Pairwise fun a b => (cmp a b).isLE) {a b : α} (h : cmp a b = .lt) {k n : Nat}
    (ha : as[k]? = some a) (hb : as[n]? = some b) : k < n := by
  obtain ⟨hklt, rfl⟩ := List.getElem?_eq_some_iff.mp ha
  obtain ⟨hnlt, rfl⟩ := List.getElem?_eq_some_iff.mp hb
  apply Nat.lt_of_not_le
  intro hle
  rcases Nat.lt_or_eq_of_le hle with hlt | rfl
  · have hback := List.pairwise_iff_getElem.mp hs _ _ hnlt hklt hlt
    rw [show cmp as[n] as[k] = _ from Std.OrientedCmp.eq_swap, h] at hback
    cases hback
  · rw [show cmp as[n] as[n] = .eq from Std.ReflCmp.compare_self] at h
    cases h

/-- The place of an entry in a list that ascends strictly is the number of lesser entries. -/
theorem countP_of_getElem? {cmp : α → α → Ordering} [Std.TransCmp cmp] {as : List α}
    (hs : as.Pairwise fun a b => cmp a b = .lt) {a : α} {k : Nat} (ha : as[k]? = some a) :
    as.countP (cmp · a = .lt) = k := by
  induction as generalizing k with
  | nil => simp at ha
  | cons b as ih =>
    obtain ⟨hb, hs⟩ := List.pairwise_cons.mp hs
    cases k with
    | zero =>
      obtain rfl := Option.some.inj ha
      have hself : cmp b b = .eq := Std.ReflCmp.compare_self
      have hrest : as.countP (cmp · b = .lt) = 0 := by
        refine List.countP_eq_zero.mpr fun c hc => ?_
        rw [Std.OrientedCmp.gt_of_lt (hb c hc)]
        decide
      rw [List.countP_cons, hrest, hself]
      decide
    | succ k =>
      rw [List.getElem?_cons_succ] at ha
      rw [List.countP_cons_of_pos (by simpa using hb a (List.mem_of_getElem? ha)), ih hs ha]

/-! ## Searching -/

section
variable {probe : α → Ordering} {entries : Array α} {low high i : Nat} {a : α}

theorem exists_of_bisect (h : bisect probe entries low high = some i) :
    ∃ a, entries[i]? = some a ∧ probe a = .eq := by
  fun_induction bisect probe entries low high with
  | case1 => cases h
  | case2 low high hlt middle a hget heq =>
    obtain rfl := Option.some.inj h
    exact ⟨a, hget, heq⟩
  | case3 _ _ _ _ _ _ _ ih => exact ih h
  | case4 _ _ _ _ _ _ _ ih => exact ih h
  | case5 => cases h

/-- The place that is looked for stays in the range. -/
theorem bisect_eq_some (hprobe : ∀ j b, entries[j]? = some b → probe b = compare j i)
    (hlow : low ≤ i) (hhigh : i < high) (hsize : high ≤ entries.size) :
    bisect probe entries low high = some i := by
  fun_induction bisect probe entries low high with
  | case1 low high hlt middle hget =>
    rw [getElem?_pos entries middle (by omega)] at hget
    cases hget
  | case2 low high hlt middle b hget hcmp =>
    rw [hprobe middle b hget] at hcmp
    rw [Nat.compare_eq_eq.mp hcmp]
  | case3 low high hlt middle b hget hcmp ih =>
    rw [hprobe middle b hget] at hcmp
    exact ih (Nat.compare_eq_lt.mp hcmp) hhigh hsize
  | case4 low high hlt middle b hget hcmp ih =>
    rw [hprobe middle b hget] at hcmp
    exact ih hlow (Nat.compare_eq_gt.mp hcmp) (by omega)
  | case5 low high hlt => exact absurd (Nat.lt_of_le_of_lt hlow hhigh) hlt

/-- What is in a list that ascends strictly is found, and nothing else is. -/
theorem bisect_eq_some_iff {cmp : α → α → Ordering} [Std.TransCmp cmp] [Std.LawfulEqCmp cmp]
    (hs : entries.toList.Pairwise fun a b => cmp a b = .lt) :
    bisect (cmp · a) entries 0 entries.size = some i ↔ entries[i]? = some a := by
  constructor
  · intro h
    obtain ⟨b, hb, heq⟩ := exists_of_bisect h
    rw [hb, Std.LawfulEqCmp.eq_of_compare heq]
  · intro h
    obtain ⟨hi, rfl⟩ := Array.getElem?_eq_some_iff.mp h
    rw [List.pairwise_iff_getElem] at hs
    refine bisect_eq_some (fun j b hb => ?_) (Nat.zero_le _) hi (Nat.le_refl _)
    obtain ⟨hj, rfl⟩ := Array.getElem?_eq_some_iff.mp hb
    rcases Nat.lt_trichotomy j i with hji | rfl | hij
    · rw [Nat.compare_eq_lt.mpr hji]
      exact hs j i hj hi hji
    · exact Std.ReflCmp.compare_self.trans Std.ReflCmp.compare_self.symm
    · rw [Nat.compare_eq_gt.mpr hij]
      exact Std.OrientedCmp.gt_of_lt (hs i j hi hj hij)

end

end Dalvik
