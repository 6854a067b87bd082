import Dalvik.Proofs.Pools

/-!
# Pools hold their entries in order

Entries without repetition become pools that hold the same entries and ascend strictly. Halving such
a pool finds the place of each of its values and nothing else; that rests on an order that tells all
values apart. Only lists that are too long for indices of 16 bits are refused.
-/
namespace Dalvik

/-- One of the lists whose indices have 16 bits is too long for them. -/
def PoolEntries.Oversized (e : PoolEntries) : Prop :=
  Pools.maxSize < e.types.length ∨ Pools.maxSize < e.protos.length ∨
    Pools.maxSize < e.fields.length ∨ Pools.maxSize < e.methods.length ∨
      Pools.maxSize < e.methodHandles.length ∨ Pools.maxSize < e.callSites.length

/-- No list has an entry twice. -/
structure PoolEntries.Distinct (e : PoolEntries) : Prop where
  strings : e.strings.Nodup
  types : e.types.Nodup
  protos : e.protos.Nodup
  fields : e.fields.Nodup
  methods : e.methods.Nodup
  methodHandles : e.methodHandles.Nodup
  callSites : e.callSites.Nodup

namespace Pools

/-! ## One pool -/

section
variable {α : Type} [BEq α] [Hashable α] {cmp : α → α → Ordering} {entries : List α}
  {set : ItemSet α} {index : α → Result UInt32} {kind : PoolKind} {text : String} {a : α}

/-- The set holds the entries in ascending order. An index is the place of its value, cut to 32 bits,
and the values without one are those that are missing. -/
structure Ranked (cmp : α → α → Ordering) (entries : List α) (set : ItemSet α)
    (index : α → Result UInt32) : Prop where
  perm : set.toList.Perm entries
  ascending : set.toList.Pairwise fun a b => cmp a b = .lt
  found : ∀ v i, index v = .ok i ↔ ∃ place, set.toList[place]? = some v ∧ UInt32.ofNat place = i
  unresolved : ∀ v, (∃ e, index v = .error e ∧ e.kind = .unresolvedReference) ↔ v ∉ set.toList

/-- The index of a value is its place. -/
def Exact (set : ItemSet α) (index : α → Result UInt32) : Prop :=
  ∀ v i, index v = .ok i ↔ set.toList[i.toNat]? = some v

theorem Ranked.exact (h : Ranked cmp entries set index) (hsize : entries.length ≤ UInt32.size) :
    Exact set index := by
  intro v i
  rw [h.found]
  constructor
  · rintro ⟨place, hplace, rfl⟩
    have hlt := (List.getElem?_eq_some_iff.mp hplace).1
    rw [h.perm.length_eq] at hlt
    rwa [UInt32.toNat_ofNat_of_lt' (by omega)]
  · exact fun hplace => ⟨i.toNat, hplace, UInt32.ofNat_toNat⟩

theorem lookup_unresolved_iff [Std.TransCmp cmp] [Std.LawfulEqCmp cmp]
    (hs : set.toList.Pairwise fun a b => cmp a b = .lt) :
    (∃ e, lookup cmp set kind text a = .error e ∧ e.kind = .unresolvedReference) ↔
      a ∉ set.toList := by
  constructor
  · rintro ⟨e, he, -⟩ hmem
    obtain ⟨place, hplace⟩ := List.mem_iff_getElem?.mp hmem
    rw [(lookup_eq_ok_iff hs).mpr ⟨place, hplace, rfl⟩] at he
    cases he
  · intro hmem
    cases h : lookup cmp set kind text a with
    | ok i =>
      obtain ⟨place, hplace, -⟩ := (lookup_eq_ok_iff hs).mp h
      exact absurd (List.mem_of_getElem? hplace) hmem
    | error e =>
      refine ⟨e, rfl, ?_⟩
      unfold lookup at h
      split at h
      · cases h
      · cases h
        rfl

theorem ranked_pool [LawfulBEq α] (cmp : α → α → Ordering) [Std.TransCmp cmp]
    [Std.LawfulEqCmp cmp] (h : entries.Nodup) (kind : PoolKind) (text : α → String) :
    Ranked cmp entries (pool cmp entries)
      fun v => lookup cmp (pool cmp entries) kind (text v) v where
  perm := by
    have hsorted := sortedBy_perm cmp entries
    rw [pool, ItemSet.toList_ofList_of_nodup (hsorted.nodup_iff.mpr h)]
    exact hsorted
  ascending := pairwise_lt_pool
  found _ _ := lookup_eq_ok_iff pairwise_lt_pool
  unresolved _ := lookup_unresolved_iff pairwise_lt_pool

end

/-! ## All pools -/

variable {e : PoolEntries} {p : Pools}

/-- Every pool holds its entries in order, and every index of 16 bits is the place of its value. The
indices of strings are their places unless there are more of them than 32 bits can count. -/
structure Ranks (p : Pools) (e : PoolEntries) : Prop where
  strings : Ranked Text.compareUtf16 e.strings p.strings p.resolver.string
  types : Ranked compare e.types p.types p.resolver.type
  protos : Ranked compare e.protos p.protos p.resolver.proto
  fields : Ranked compare e.fields p.fields p.resolver.field
  methods : Ranked compare e.methods p.methods p.resolver.method
  methodHandles : Ranked compare e.methodHandles p.methodHandles p.resolver.methodHandle
  callSites : Ranked compare e.callSites p.callSites p.resolver.callSite
  exactStrings : e.strings.length ≤ UInt32.size → Exact p.strings p.resolver.string
  exact : Exact p.types p.resolver.type ∧ Exact p.protos p.resolver.proto ∧
    Exact p.fields p.resolver.field ∧ Exact p.methods p.resolver.method ∧
      Exact p.methodHandles p.resolver.methodHandle ∧ Exact p.callSites p.resolver.callSite

theorem checkSize_bind {α : Type} {kind : PoolKind} {size : Nat} {r : Result α} :
    (checkSize kind size >>= fun _ => r) =
      if size ≤ maxSize then r else Result.violation (.poolSize kind.name size maxSize) := by
  unfold checkSize
  split <;> rfl

theorem build_cases (e : PoolEntries) :
    (e.Oversized ∧ ∃ reason, build e = Result.violation reason) ∨
      (¬ e.Oversized ∧ ∃ p, build e = .ok p) := by
  unfold build PoolEntries.Oversized
  simp only [checkSize_bind]
  split_ifs
  · exact .inr ⟨by omega, _, rfl⟩
  all_goals exact .inl ⟨by omega, _, rfl⟩

theorem ranks_of_build (hd : e.Distinct) (hsize : ¬ e.Oversized) (h : build e = .ok p) :
    p.Ranks e := by
  rw [eq_of_build h]
  have strings := ranked_pool Text.compareUtf16 hd.strings .string id
  have types := ranked_pool compare hd.types .type toString
  have protos := ranked_pool compare hd.protos .proto toString
  have fields := ranked_pool compare hd.fields .field toString
  have methods := ranked_pool compare hd.methods .method toString
  have methodHandles := ranked_pool compare hd.methodHandles .methodHandle toString
  have callSites := ranked_pool compare hd.callSites .callSite CallSite.name
  have hmax : maxSize ≤ UInt32.size := by decide
  unfold PoolEntries.Oversized at hsize
  exact ⟨strings, types, protos, fields, methods, methodHandles, callSites, strings.exact,
    types.exact (by omega), protos.exact (by omega), fields.exact (by omega),
    methods.exact (by omega), methodHandles.exact (by omega), callSites.exact (by omega)⟩

/-- Lists without repetition are refused exactly if one of them is too long; otherwise they become
sorted pools in which every value is found at its place. -/
theorem build_ranks (hd : e.Distinct) :
    ((∃ err, build e = .error err ∧ err.kind = .structuralViolation) ↔ e.Oversized) ∧
      (¬ e.Oversized → ∃ p, build e = .ok p ∧ p.Ranks e) := by
  rcases build_cases e with ⟨hsize, reason, h⟩ | ⟨hsize, p, h⟩
  · exact ⟨iff_of_true ⟨_, h, rfl⟩ hsize, fun hno => absurd hsize hno⟩
  · refine ⟨iff_of_false ?_ hsize, fun _ => ⟨p, h, ranks_of_build hd hsize h⟩⟩
    rintro ⟨err, herr, -⟩
    rw [h] at herr
    cases herr

def twoStrings : PoolEntries := { strings := ["b", "a"], types := [⟨"LA;"⟩] }

theorem build_ranks_twoStrings : twoStrings.Distinct ∧ ¬ twoStrings.Oversized ∧
    ∃ p, build twoStrings = .ok p ∧ p.strings.toList = ["a", "b"] ∧
      p.resolver.string "b" = .ok 1 ∧
        ∃ err, p.resolver.string "c" = .error err ∧ err.kind = .unresolvedReference := by
  have hd : twoStrings.Distinct := by constructor <;> decide
  have hsize : ¬ twoStrings.Oversized := by simp [PoolEntries.Oversized, twoStrings, maxSize]
  obtain ⟨p, hp, hranks⟩ := (build_ranks hd).2 hsize
  have hsorted : sortedBy Text.compareUtf16 ["b", "a"] = ["a", "b"] := by cbv
  have hlist : p.strings.toList = ["a", "b"] := by
    rw [eq_of_build hp]
    change (ItemSet.ofList (sortedBy Text.compareUtf16 ["b", "a"])).toList = _
    rw [hsorted, ItemSet.toList_ofList_of_nodup (by decide)]
  refine ⟨hd, hsize, p, hp, hlist, ?_, ?_⟩
  · exact (hranks.exactStrings (by decide) "b" 1).mpr (by rw [hlist]; rfl)
  · exact (hranks.strings.unresolved "c").mpr (by rw [hlist]; decide)

end Pools

end Dalvik
