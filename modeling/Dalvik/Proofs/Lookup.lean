import Mathlib

/-!
# Looking entries up

A list whose keys are distinct holds at most one entry for a key, and looking the key up finds it.
-/
namespace Dalvik

variable {α β : Type} [BEq α] [LawfulBEq α] {entries : List (α × β)} {a : α} {b : β}

theorem lookup_of_mem (hd : (entries.map Prod.fst).Nodup) (h : (a, b) ∈ entries) :
    entries.lookup a = some b := by
  induction entries with
  | nil => simp at h
  | cons e entries ih =>
    rw [List.map_cons, List.nodup_cons] at hd
    rcases List.mem_cons.mp h with rfl | h
    · simp
    · have hne : (a == e.1) = false := by
        have hmem : a ∈ entries.map Prod.fst := List.mem_map.mpr ⟨(a, b), h, rfl⟩
        simp only [beq_eq_false_iff_ne]
        intro he
        exact hd.1 (he ▸ hmem)
      rw [List.lookup_cons, hne]
      exact ih hd.2 h

theorem mem_of_lookup (h : entries.lookup a = some b) : (a, b) ∈ entries := by
  obtain ⟨before, after, rfl, -⟩ := List.lookup_eq_some_iff.mp h
  simp

end Dalvik
