import Dalvik.Opcode
import Dalvik.Options
import Dalvik.Proofs.Result

/-!
# Numbers tell the opcodes of a target apart

Numbers are used again, by later releases and by the other runtime. On a target that options can
name, no two opcodes have the same number, so that its table leads from a number back to the opcode
it was made from.
-/
namespace Dalvik

/-! ## Targets -/

/-- The releases with the older runtime, then those with the newer one. -/
def Options.platforms : List (Int × Bool) :=
  (List.range' 1 20).map (fun n => (Int.ofNat n, false)) ++
    (List.range' 19 17).map fun n => (Int.ofNat n, true)

theorem Options.mem_platforms {o : Options} (h : o.validate = .ok ()) :
    (o.targetApi, o.targetArt) ∈ platforms := by
  simp only [validate, Result.unsupported_ite_eq_ok] at h
  obtain ⟨hrange, hart, hdalvik, -⟩ := h
  simp only [minTargetApi, maxTargetApi, firstArtApi, lastDalvikApi] at hrange hart hdalvik
  obtain ⟨n, hn⟩ := Int.eq_ofNat_of_zero_le (show 0 ≤ o.targetApi by omega)
  rw [platforms, List.mem_append, List.mem_map, List.mem_map]
  cases hr : o.targetArt with
  | true =>
    have : 19 ≤ o.targetApi := by simpa [hr] using hart
    exact Or.inr ⟨n, by rw [List.mem_range'_1]; omega, by rw [hn]; rfl⟩
  | false =>
    have : o.targetApi ≤ 20 := by simpa [hr] using hdalvik
    exact Or.inl ⟨n, by rw [List.mem_range'_1]; omega, by rw [hn]; rfl⟩

theorem WriteOptions.validate_options {o : WriteOptions} (h : o.validate = .ok ()) :
    o.options.validate = .ok () := by
  obtain ⟨_, h, -⟩ := Result.bind_eq_ok.mp h
  exact h

namespace Opcode

/-! ## Numberings -/

/-- Two numberings do not give one number to two opcodes on the same platform. -/
def Numbering.apart (m n : Numbering) : Bool :=
  !Nat.beq m.value.toNat n.value.toNat || Options.platforms.all fun (api, art) =>
    !(m.covers ⟨.compact, api, art, true⟩ && n.covers ⟨.compact, api, art, true⟩)

/-- The opcodes that have a number with the low digit `digit`. -/
def withDigit (digit : Nat) : List Entry :=
  entries.filter fun e => e.numberings.any fun n => n.value.toNat % 16 == digit

theorem withDigit_apart : ∀ digit < 16, (withDigit digit).Pairwise fun d e =>
    (d.numberings.all fun m => e.numberings.all m.apart) = true := by
  decide +kernel

variable {t : Target} {v : UInt16}

theorem Entry.exists_of_value? {e : Entry} (h : e.value? t = some v) :
    ∃ n ∈ e.numberings, n.covers t ∧ n.value = v := by
  rw [value?] at h
  split at h
  · cases h
  · split at h
    · cases h
    · obtain ⟨n, hn, rfl⟩ := Option.map_eq_some_iff.mp h
      have hc := List.find?_some hn
      exact ⟨n, List.mem_of_find?_eq_some hn, hc, rfl⟩

theorem Numbering.value_ne_of_apart {m n : Numbering} (h : m.apart n)
    (ht : (t.api, t.art) ∈ Options.platforms) (hm : m.covers t) (hn : n.covers t) :
    m.value ≠ n.value := by
  intro he
  rw [apart, he, Nat.beq_refl, Bool.not_true, Bool.false_or, List.all_eq_true] at h
  have : !(m.covers t && n.covers t) := h _ ht
  simp [hm, hn] at this

/-- Two entries at different places of the table do not have the same number. -/
theorem pairwise_value?_ne (ht : (t.api, t.art) ∈ Options.platforms) :
    entries.Pairwise fun d e => ¬ (d.value? t = some v ∧ e.value? t = some v) := by
  have h := withDigit_apart (v.toNat % 16) (Nat.mod_lt _ (by decide))
  rw [withDigit, List.pairwise_filter] at h
  refine h.imp fun {d e} h => ?_
  rintro ⟨hd, he⟩
  obtain ⟨m, hm, hmt, hmv⟩ := Entry.exists_of_value? hd
  obtain ⟨n, hn, hnt, hnv⟩ := Entry.exists_of_value? he
  have hall := h (List.any_eq_true.mpr ⟨m, hm, by simp [hmv]⟩)
    (List.any_eq_true.mpr ⟨n, hn, by simp [hnv]⟩)
  have hapart := List.all_eq_true.mp (List.all_eq_true.mp hall m hm) n hn
  exact Numbering.value_ne_of_apart hapart ht hmt hnt (hmv.trans hnv.symm)

theorem getElem_cast {α : Type} (as : List α) {n : Nat} (h : as.toArray.size = n) (i : Fin n)
    (hi : i.val < as.length) : as.toArray[i.cast h.symm] = as[i.val] := by
  subst h
  rfl

theorem entry_eq (o : Opcode) (h : o.index.val < entries.length) :
    o.entry = entries[o.index.val] := getElem_cast entries size_entryTable o.index h

theorem entry_mem (o : Opcode) : o.entry ∈ entries := by
  rw [entry_eq o (length_entries.symm ▸ o.index.isLt)]
  exact List.getElem_mem _

theorem value?_injective (ht : (t.api, t.art) ∈ Options.platforms) {o p : Opcode}
    (ho : o.value? t = some v) (hp : p.value? t = some v) : o = p := by
  have h := List.pairwise_iff_getElem.mp (pairwise_value?_ne (v := v) ht)
  have hlt (q : Opcode) : q.index.val < entries.length := length_entries.symm ▸ q.index.isLt
  rw [value?, entry_eq _ (hlt _)] at ho hp
  obtain hop | hop | hop := Nat.lt_trichotomy o.index.val p.index.val
  · exact absurd ⟨ho, hp⟩ (h _ _ (hlt o) (hlt p) hop)
  · cases o
    cases p
    exact congrArg _ (Fin.ext hop)
  · exact absurd ⟨hp, ho⟩ (h _ _ (hlt p) (hlt o) hop)

end Opcode

namespace OpcodeTable
variable {t : Target}

theorem value_eq_ok {table : OpcodeTable} {o : Opcode} {v : UInt16} :
    table.value o = .ok v ↔ o.value? table.target = some v := by
  rw [value]
  cases o.value? table.target <;> simp

/-- An opcode is found under its number if no other opcode is recorded under it later. -/
theorem getElem?_foldl_record {os : List Opcode} {o : Opcode} {v : UInt16}
    (ho : o.value? t = some v) (hother : ∀ p ∈ os, p.value? t = some v → p = o)
    (byValue : Std.HashMap UInt16 Opcode) (hmem : o ∈ os ∨ byValue[v]? = some o) :
    (os.foldl (record t) byValue)[v]? = some o := by
  induction os generalizing byValue with
  | nil => simpa using hmem
  | cons p os ih =>
    obtain ⟨hp, hos⟩ := List.forall_mem_cons.mp hother
    rw [List.foldl_cons]
    refine ih hos _ ?_
    cases hpv : p.value? t with
    | none =>
      have hne : o ≠ p := by
        rintro rfl
        simp [ho] at hpv
      simpa [record, hpv, hne] using hmem
    | some w =>
      by_cases hw : w = v
      · obtain rfl := hp (hw ▸ hpv)
        simp [record, hpv, hw]
      · have hne : o ≠ p := by
          rintro rfl
          exact hw (Option.some.inj (hpv.symm.trans ho))
        simpa [record, hpv, hne, hw, Std.HashMap.getElem?_insert] using hmem

/-- The table of a target that options can name leads from a number back to its opcode. -/
theorem opcode_of_value (ht : (t.api, t.art) ∈ Options.platforms) {o : Opcode} {v : UInt16}
    (h : (ofTarget t).value o = .ok v) : (ofTarget t).opcode v = .ok o := by
  have ho : o.value? t = some v := value_eq_ok.mp h
  have hget := getElem?_foldl_record ho (fun p _ hp => Opcode.value?_injective ht hp ho) ∅
    (Or.inl (Opcode.mem_all o))
  simp only [opcode, ofTarget, hget]

end OpcodeTable

end Dalvik
