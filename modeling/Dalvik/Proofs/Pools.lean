import Dalvik.Pools
import Dalvik.Proofs.ItemSet
import Dalvik.Proofs.Result
import Dalvik.Proofs.Value.Order

/-!
# The index of a value leads back to it

A pool is searched by halving it. Whatever index that gives leads back to the value, as long as 32
bits are enough to count the pool, and in a pool that ascends strictly every value has an index. The
indices are in the order of the values.
-/
namespace Dalvik

namespace Pools

/-! ## The index of a value -/

section
variable {α : Type} [BEq α] [Hashable α] {cmp : α → α → Ordering} [Std.LawfulEqCmp cmp]
  {set : ItemSet α} {a b : α} {i j : UInt32} {kind kind' : PoolKind} {text other : String}

theorem exists_of_lookup (h : lookup cmp set kind text a = .ok i) :
    ∃ place, set.toList[place]? = some a ∧ UInt32.ofNat place = i := by
  unfold lookup at h
  split at h
  next place hplace =>
    obtain ⟨b, hb, heq⟩ := exists_of_bisect hplace
    rw [Std.LawfulEqCmp.eq_of_compare heq] at hb
    exact ⟨place, (set.getElem?_toList place).trans hb, Except.ok.inj h⟩
  · cases h

/-- The index of a value is its place in the pool. -/
theorem getElem?_of_lookup (hsize : set.size ≤ UInt32.size)
    (h : lookup cmp set kind text a = .ok i) : set.toList[i.toNat]? = some a := by
  obtain ⟨place, hplace, rfl⟩ := exists_of_lookup h
  have hlt := (List.getElem?_eq_some_iff.mp hplace).1
  rw [ItemSet.length_toList] at hlt
  rw [UInt32.toNat_ofNat_of_lt' (by omega), hplace]

theorem fetch_of_lookup (hsize : set.size ≤ UInt32.size)
    (h : lookup cmp set kind text a = .ok i) : fetch set kind' i = .ok a := by
  rw [fetch, ← ItemSet.getElem?_toList, getElem?_of_lookup hsize h]

theorem toNat_lt_of_lookup (hsize : set.size ≤ UInt32.size)
    (h : lookup cmp set kind text a = .ok i) : i.toNat < set.size := by
  have hget := getElem?_of_lookup hsize h
  rw [← ItemSet.length_toList]
  exact (List.getElem?_eq_some_iff.mp hget).1

/-- Distinct values have distinct indices. -/
theorem lookup_injective (hsize : set.size ≤ UInt32.size)
    (ha : lookup cmp set kind text a = .ok i) (hb : lookup cmp set kind other b = .ok i) :
    a = b := by
  have h := getElem?_of_lookup hsize ha
  rw [getElem?_of_lookup hsize hb] at h
  exact (Option.some.inj h).symm

variable [Std.TransCmp cmp]

/-- The indices of a sorted pool are in the order of the values. -/
theorem lt_of_lookup (hs : set.toList.Pairwise fun a b => (cmp a b).isLE)
    (hsize : set.size ≤ UInt32.size) (h : cmp a b = .lt) (ha : lookup cmp set kind text a = .ok i)
    (hb : lookup cmp set kind other b = .ok j) : i < j :=
  UInt32.lt_iff_toNat_lt.mpr
    (lt_of_getElem? hs h (getElem?_of_lookup hsize ha) (getElem?_of_lookup hsize hb))

/-- In a pool that ascends strictly every value is found at its place, as far as 32 bits can tell. -/
theorem lookup_eq_ok_iff (hs : set.toList.Pairwise fun a b => cmp a b = .lt) :
    lookup cmp set kind text a = .ok i ↔
      ∃ place, set.toList[place]? = some a ∧ UInt32.ofNat place = i := by
  refine ⟨exists_of_lookup, fun ⟨place, hplace, hi⟩ => ?_⟩
  rw [ItemSet.getElem?_toList] at hplace
  have hfound : bisect (cmp · a) set.items 0 set.size = some place :=
    (bisect_eq_some_iff hs).mpr hplace
  rw [lookup, hfound, ← hi]

theorem lookup_ofList [LawfulBEq α] {entries : List α}
    (h : entries.Pairwise fun a b => cmp a b = .lt) {k : Nat} (ha : entries[k]? = some a) :
    lookup cmp (.ofList entries) kind text a = .ok (UInt32.ofNat k) := by
  have hnodup : entries.Nodup := h.imp fun {a b} hlt heq => by
    rw [heq, show cmp b b = .eq from Std.ReflCmp.compare_self] at hlt
    cases hlt
  rw [← ItemSet.toList_ofList_of_nodup hnodup] at h ha
  exact (lookup_eq_ok_iff h).mpr ⟨k, ha, rfl⟩

end

end Pools

/-! ## Indices that lead back -/

/-- The entries of every pool can be counted with 32 bits. -/
structure Pools.Indexed (p : Pools) : Prop where
  strings : p.strings.size ≤ UInt32.size
  types : p.types.size ≤ UInt32.size
  protos : p.protos.size ≤ UInt32.size
  fields : p.fields.size ≤ UInt32.size
  methods : p.methods.size ≤ UInt32.size
  methodHandles : p.methodHandles.size ≤ UInt32.size
  callSites : p.callSites.size ≤ UInt32.size

/-- Every index of a string, a type, a prototype or a member leads back to it. -/
structure Resolver.InverseOnIds (resolver : Resolver) (source : Source) : Prop where
  string : ∀ {v i}, resolver.string v = .ok i → source.string i = .ok v
  type : ∀ {v i}, resolver.type v = .ok i → source.type i = .ok v
  proto : ∀ {v i}, resolver.proto v = .ok i → source.proto i = .ok v
  field : ∀ {v i}, resolver.field v = .ok i → source.field i = .ok v
  method : ∀ {v i}, resolver.method v = .ok i → source.method i = .ok v

/-- Every index that a value can hold leads back to what the value refers to; that excludes the
indices of call sites. -/
structure Resolver.InverseOnValues (resolver : Resolver) (source : Source) : Prop where
  string : ∀ {v i}, resolver.string v = .ok i → source.string i = .ok v
  type : ∀ {v i}, resolver.type v = .ok i → source.type i = .ok v
  proto : ∀ {v i}, resolver.proto v = .ok i → source.proto i = .ok v
  field : ∀ {v i}, resolver.field v = .ok i → source.field i = .ok v
  method : ∀ {v i}, resolver.method v = .ok i → source.method i = .ok v
  methodHandle : ∀ {v i}, resolver.methodHandle v = .ok i → source.methodHandle i = .ok v

/-- Every index leads back to what it was given for, a call site as `site` changes it. -/
structure Resolver.InverseUpTo (resolver : Resolver) (source : Source) (site : CallSite → CallSite) :
    Prop extends resolver.InverseOnValues source where
  callSite : ∀ {v i}, resolver.callSite v = .ok i → source.callSite i = .ok (site v)

theorem Resolver.InverseOnValues.onIds {r : Resolver} {s : Source} (h : r.InverseOnValues s) :
    r.InverseOnIds s :=
  ⟨h.string, h.type, h.proto, h.field, h.method⟩

theorem Resolver.Inverse.onValues {r : Resolver} {s : Source} (h : r.Inverse s) :
    r.InverseOnValues s :=
  ⟨h.string, h.type, h.proto, h.field, h.method, h.methodHandle⟩

theorem Resolver.Inverse.upTo {r : Resolver} {s : Source} (h : r.Inverse s) : r.InverseUpTo s id :=
  ⟨h.onValues, h.callSite⟩

theorem Pools.resolver_inverse {p : Pools} (h : p.Indexed) : p.resolver.Inverse p.source where
  string := fetch_of_lookup h.strings
  type := fetch_of_lookup h.types
  proto := fetch_of_lookup h.protos
  field := fetch_of_lookup h.fields
  method := fetch_of_lookup h.methods
  methodHandle := fetch_of_lookup h.methodHandles
  callSite := fetch_of_lookup h.callSites

/-! ## Pools that have been built -/

namespace Pools

open Result

section
variable {α : Type} [BEq α] [Hashable α] {cmp : α → α → Ordering} {entries : List α} {a : α}

theorem mem_pool [LawfulBEq α] : a ∈ (pool cmp entries).toList ↔ a ∈ entries := by
  rw [pool, ItemSet.mem_toList_ofList, (sortedBy_perm cmp entries).mem_iff]

theorem size_pool_le : (pool cmp entries).size ≤ entries.length := by
  have hle := (ItemSet.sublist_toList_ofList (sortedBy cmp entries)).length_le
  rwa [ItemSet.length_toList, (sortedBy_perm cmp entries).length_eq] at hle

variable [Std.TransCmp cmp]

theorem pairwise_pool : (pool cmp entries).toList.Pairwise fun a b => (cmp a b).isLE :=
  (pairwise_sortedBy cmp entries).sublist (ItemSet.sublist_toList_ofList _)

/-- No two entries of a pool are the same. -/
theorem pairwise_lt_pool [LawfulBEq α] [Std.LawfulEqCmp cmp] :
    (pool cmp entries).toList.Pairwise fun a b => cmp a b = .lt := by
  refine (pairwise_pool.and (pool cmp entries).nodup_toList).imp fun ⟨hle, hne⟩ => ?_
  refine (Ordering.isLE_iff_eq_lt_or_eq_eq.mp hle).resolve_right fun heq => hne ?_
  exact Std.LawfulEqCmp.eq_of_compare heq

end

theorem eq_of_build {e : PoolEntries} {p : Pools} (h : build e = .ok p) : p = {
    strings := pool Text.compareUtf16 e.strings
    types := pool compare e.types
    protos := pool compare e.protos
    fields := pool compare e.fields
    methods := pool compare e.methods
    methodHandles := pool compare e.methodHandles
    callSites := pool compare e.callSites } := by
  obtain ⟨-, -, h⟩ := bind_eq_ok.mp h
  obtain ⟨-, -, h⟩ := bind_eq_ok.mp h
  obtain ⟨-, -, h⟩ := bind_eq_ok.mp h
  obtain ⟨-, -, h⟩ := bind_eq_ok.mp h
  obtain ⟨-, -, h⟩ := bind_eq_ok.mp h
  obtain ⟨-, -, h⟩ := bind_eq_ok.mp h
  exact (pure_eq_ok.mp h).symm

/-- The sizes of the pools that indices of 16 bits have to be enough for. -/
structure Short (p : Pools) : Prop where
  types : p.types.size ≤ maxSize
  protos : p.protos.size ≤ maxSize
  fields : p.fields.size ≤ maxSize
  methods : p.methods.size ≤ maxSize
  methodHandles : p.methodHandles.size ≤ maxSize
  callSites : p.callSites.size ≤ maxSize

theorem short_of_build {e : PoolEntries} {p : Pools} (h : build e = .ok p) : p.Short := by
  have bound {kind : PoolKind} {size : Nat} {u : Unit} (h : checkSize kind size = .ok u) :
      size ≤ maxSize := (ite_violation_eq_ok.mp h).1
  have eq := eq_of_build h
  obtain ⟨_, types, h⟩ := bind_eq_ok.mp h
  obtain ⟨_, protos, h⟩ := bind_eq_ok.mp h
  obtain ⟨_, fields, h⟩ := bind_eq_ok.mp h
  obtain ⟨_, methods, h⟩ := bind_eq_ok.mp h
  obtain ⟨_, methodHandles, h⟩ := bind_eq_ok.mp h
  obtain ⟨_, callSites, h⟩ := bind_eq_ok.mp h
  rw [eq]
  exact {
    types := Nat.le_trans size_pool_le (bound types)
    protos := Nat.le_trans size_pool_le (bound protos)
    fields := Nat.le_trans size_pool_le (bound fields)
    methods := Nat.le_trans size_pool_le (bound methods)
    methodHandles := Nat.le_trans size_pool_le (bound methodHandles)
    callSites := Nat.le_trans size_pool_le (bound callSites) }

theorem Short.indexed {p : Pools} (h : p.Short) (hstrings : p.strings.size ≤ UInt32.size) :
    p.Indexed := by
  have hle : maxSize ≤ UInt32.size := by decide
  exact {
    strings := hstrings
    types := Nat.le_trans h.types hle
    protos := Nat.le_trans h.protos hle
    fields := Nat.le_trans h.fields hle
    methods := Nat.le_trans h.methods hle
    methodHandles := Nat.le_trans h.methodHandles hle
    callSites := Nat.le_trans h.callSites hle }

/-- Distinct fields have distinct indices, and so have distinct methods. -/
theorem Short.field_injective {p : Pools} (h : p.Short) (a b : FieldId) (i : UInt32)
    (ha : p.resolver.field a = .ok i) (hb : p.resolver.field b = .ok i) : a = b :=
  lookup_injective (Nat.le_trans h.fields (by decide)) ha hb

theorem Short.method_injective {p : Pools} (h : p.Short) (a b : MethodId) (i : UInt32)
    (ha : p.resolver.method a = .ok i) (hb : p.resolver.method b = .ok i) : a = b :=
  lookup_injective (Nat.le_trans h.methods (by decide)) ha hb

end Pools

/-! ## A small file -/

/-- The indices of a file that has two strings and one type. -/
def twoNames : Resolver where
  string v :=
    if v = "a" then .ok 0 else if v = "b" then .ok 1 else Result.unresolved (.value "string" v)
  type v := if v = ⟨"LA;"⟩ then .ok 0 else Result.unresolved (.value "type" v.descriptor)
  proto v := Result.unresolved (.value "proto" (toString v))
  field v := Result.unresolved (.value "field" (toString v))
  method v := Result.unresolved (.value "method" (toString v))
  methodHandle v := Result.unresolved (.value "method handle" (toString v))
  callSite v := Result.unresolved (.value "call site" v.name)

def twoNamesSource : Source where
  string i := if i = 0 then .ok "a" else .ok "b"
  type _ := .ok ⟨"LA;"⟩
  proto i := .error (.ofCause (.bounds "proto" i.toNat 0))
  field i := .error (.ofCause (.bounds "field" i.toNat 0))
  method i := .error (.ofCause (.bounds "method" i.toNat 0))
  methodHandle i := .error (.ofCause (.bounds "method handle" i.toNat 0))
  callSite i := .error (.ofCause (.bounds "call site" i.toNat 0))

theorem inverse_twoNames : twoNames.Inverse twoNamesSource where
  string {v i} h := by
    simp only [twoNames] at h
    split_ifs at h with ha hb
    · cases h
      rw [ha]
      rfl
    · cases h
      rw [hb]
      rfl
    · cases h
  type {v i} h := by
    simp only [twoNames] at h
    split_ifs at h with hv
    · rw [hv]
      rfl
    · cases h
  proto := nofun
  field := nofun
  method := nofun
  methodHandle := nofun
  callSite := nofun

end Dalvik
