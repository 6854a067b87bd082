import Dalvik.Proofs.Pools

/-!
# Call sites in the order of their names

Reading names a call site after its index, without zeros in front, and a pool puts call sites in the
order of their names. The name of an index so has a place of its own among the names of the first
`n` indices, and up to ten of them are in the order of their indices.
-/
namespace Dalvik
open Text

namespace CallSite

theorem nameOf_injective : Function.Injective nameOf := by
  intro i j h
  simpa [nameOf] using h

/-- The place of the name of an index among the names of the first `n` indices. -/
def rank (n index : Nat) : Nat :=
  (List.range n).countP fun other => compareUtf16 (nameOf other) (nameOf index) = .lt

theorem rank_le (n index : Nat) : rank n index ≤ n := by
  have hle := List.countP_le_length (p := fun other =>
    compareUtf16 (nameOf other) (nameOf index) = .lt) (l := List.range n)
  rwa [List.length_range] at hle

theorem nameOf_lt_iff : ∀ i < 10, ∀ j < 10,
    (compareUtf16 (nameOf i) (nameOf j) = .lt ↔ compare i j = .lt) := by
  decide +kernel

/-- Names with one digit are in the order of their indices. -/
theorem rank_of_le {n index : Nat} (hn : n ≤ 10) (hi : index < n) : rank n index = index := by
  have hrange : (List.range n).Pairwise fun i j => compare i j = .lt :=
    List.pairwise_lt_range.imp Nat.compare_eq_lt.mpr
  have hplace : (List.range n)[index]? = some index := List.getElem?_range hi
  refine Eq.trans (List.countP_congr fun j hj => ?_) (countP_of_getElem? hrange hplace)
  have hj := List.mem_range.mp hj
  simpa using nameOf_lt_iff j (by omega) index (by omega)

/-- The eleventh name stands before the third. -/
theorem lt_rank_two {n : Nat} (hn : 10 < n) : 2 < rank n 2 := by
  have hbefore : [0, 1, 10].Sublist (List.range n) :=
    List.Sublist.trans (by decide) (List.range_sublist.mpr hn)
  refine Nat.lt_of_lt_of_le ?_ hbefore.countP_le
  decide +kernel

/-- All names are in the order of their indices if there are ten at most. -/
theorem rank_eq_iff {n : Nat} : (∀ index < n, rank n index = index) ↔ n ≤ 10 := by
  refine ⟨fun h => ?_, fun hn index hi => rank_of_le hn hi⟩
  by_contra hn
  have hlt := lt_rank_two (Nat.not_le.mp hn)
  rw [h 2 (by omega)] at hlt
  exact absurd hlt (Nat.lt_irrefl 2)

/-! ## Pools of call sites that have been read -/

/-- Call sites with different names are in the order of their names. -/
theorem compare_eq_of_ne {s t : CallSite} (h : s.name ≠ t.name) :
    compare s t = compareUtf16 s.name t.name := by
  have hname : compareUtf16 s.name t.name ≠ .eq := fun heq =>
    h (Std.LawfulEqCmp.eq_of_compare heq)
  change (compareUtf16 s.name t.name).then _ = _
  cases hc : compareUtf16 s.name t.name with
  | eq => exact absurd hc hname
  | lt | gt => rfl

/-- Call sites that are named after the first `n` indices stand, in ascending order, at the places of
their names. -/
theorem getElem?_rank {site : Nat → CallSite} {n : Nat} {sites : List CallSite}
    (hname : ∀ i < n, (site i).name = nameOf i)
    (hs : sites.Pairwise fun s t => compare s t = .lt)
    (hmem : ∀ s, s ∈ sites ↔ ∃ i < n, site i = s) {i : Nat} (hi : i < n) :
    sites[rank n i]? = some (site i) := by
  have hinj : ∀ j < n, ∀ k < n, site j = site k → j = k := fun j hj k hk h =>
    nameOf_injective (by rw [← hname j hj, ← hname k hk, h])
  have hnodup : sites.Nodup := hs.imp fun {s t} hlt heq => by
    rw [heq, show compare t t = .eq from Std.ReflCmp.compare_self] at hlt
    cases hlt
  have hperm : sites.Perm ((List.range n).map site) := by
    refine (List.perm_ext_iff_of_nodup hnodup ?_).mpr fun s => by simp [hmem]
    refine List.Nodup.map_on (fun j hj k hk => ?_) List.nodup_range
    exact hinj j (List.mem_range.mp hj) k (List.mem_range.mp hk)
  obtain ⟨k, hk⟩ := List.mem_iff_getElem?.mp ((hmem _).mpr ⟨i, hi, rfl⟩)
  have hcount : sites.countP (compare · (site i) = .lt) = rank n i := by
    rw [hperm.countP_eq, List.countP_map, rank]
    refine List.countP_congr fun j hj => ?_
    have hj := List.mem_range.mp hj
    simp only [Function.comp_apply, decide_eq_true_eq]
    by_cases hji : j = i
    · rw [hji, show compare (site i) (site i) = .eq from Std.ReflCmp.compare_self,
        show compareUtf16 (nameOf i) (nameOf i) = .eq from Std.ReflCmp.compare_self]
    · have hne : (site j).name ≠ (site i).name := by
        rw [hname j hj, hname i hi]
        exact nameOf_injective.ne hji
      rw [compare_eq_of_ne hne, hname j hj, hname i hi]
  rw [← hcount, countP_of_getElem? hs hk, hk]

end CallSite

end Dalvik
