import Dalvik.Proofs.Resolved.File
import Dalvik.Proofs.Text.Utf16
import Dalvik.Proofs.Value.Order

/-!
# The order of values is the order of indices

Each pool is sorted by values, and a file refers to the parts of an entry by their places in the
pools of the parts. All orders come down to the one of strings, part by part, so the entries ascend
by those places too.
-/
namespace Dalvik
open Text

namespace Pools

/-! ## Keys made of places -/

/-- The place of the descriptor of a type. -/
def typeKey (p : Pools) (t : TypeId) : Option (List Nat) :=
  return [← p.strings.id? t.descriptor]

/-- The place of the return type of a prototype, then those of its parameters. -/
def protoKey (p : Pools) (x : ProtoId) : Option (List Nat) :=
  return (← p.types.id? x.returnType) :: (← x.parameters.mapM p.types.id?)

/-- The places of the class and the name of a member before that of what it is declared with. -/
def memberKey (p : Pools) (declaringClass : TypeId) (name : String) (signature : Option Nat) :
    Option (List Nat) :=
  return [← p.types.id? declaringClass, ← p.strings.id? name, ← signature]

/-- A field is declared with a type. -/
def fieldKey (p : Pools) (f : FieldId) : Option (List Nat) :=
  p.memberKey f.declaringClass f.name (p.types.id? f.type)

/-- A method is declared with a prototype. -/
def methodKey (p : Pools) (m : MethodId) : Option (List Nat) :=
  p.memberKey m.declaringClass m.name (p.protos.id? m.proto)

/-- The entries ascend by their values, every one has a key, and they ascend by their keys. -/
structure Ascends {α : Type} (cmp : α → α → Ordering) (key : α → Option (List Nat))
    (entries : List α) : Prop where
  values : entries.Pairwise fun a b => cmp a b = .lt
  indexed : ∀ a ∈ entries, ∃ indices, key a = some indices
  indices : entries.Pairwise fun a b => ∀ x ∈ key a, ∀ y ∈ key b, x < y

/-- All pools ascend, and values come in the same order as the places that stand for them. -/
structure Canonical (p : Pools) : Prop where
  strings : p.strings.toList.Pairwise fun s t => utf16Units s < utf16Units t
  types : Ascends compare p.typeKey p.types.toList
  protos : Ascends compare p.protoKey p.protos.toList
  fields : Ascends compare p.fieldKey p.fields.toList
  methods : Ascends compare p.methodKey p.methods.toList
  methodHandles : p.methodHandles.toList.Pairwise fun a b => compare a b = .lt
  callSites : p.callSites.toList.Pairwise fun a b => compare a b = .lt

section
variable {α β : Type} [BEq β] [LawfulBEq β] [Hashable β] {cmp : α → α → Ordering}
  {cmp' : β → β → Ordering} [Std.TransCmp cmp'] [Std.LawfulEqCmp cmp'] {set : ItemSet β}
  {entries : List α} {key : α → Option (List Nat)} {a b : β} {i j : Nat} {xs ys : List Nat}

omit [BEq β] [LawfulBEq β] [Hashable β] in
theorem Ascends.of_lt (hvalues : entries.Pairwise fun a b => cmp a b = .lt)
    (hindexed : ∀ a ∈ entries, ∃ indices, key a = some indices)
    (hlt : ∀ {a b}, cmp a b = .lt → ∀ {x y}, key a = some x → key b = some y → x < y) :
    Ascends cmp key entries :=
  ⟨hvalues, hindexed, hvalues.imp fun h _ hx _ hy => hlt h hx hy⟩

/-- The first part of a key counts first. -/
theorem cons_lt_cons (hs : set.toList.Pairwise fun a b => cmp' a b = .lt)
    (ha : set.id? a = some i) (hb : set.id? b = some j) {rest : Ordering}
    (h : (cmp' a b).then rest = .lt) (hrest : rest = .lt → xs < ys) : i :: xs < j :: ys := by
  refine List.cons_lt_cons_iff.mpr ?_
  rcases Ordering.then_eq_lt.mp h with h | ⟨h, h'⟩
  · left
    exact lt_of_getElem? (hs.imp Ordering.isLE_of_eq_lt) h (ItemSet.id?_eq_iff_getElem?.mp ha)
      (ItemSet.id?_eq_iff_getElem?.mp hb)
  · obtain rfl : a = b := Std.LawfulEqCmp.eq_of_compare h
    rw [ha] at hb
    exact .inr ⟨Option.some.inj hb, hrest h'⟩

/-- The last part decides. -/
theorem singleton_lt_singleton (hs : set.toList.Pairwise fun a b => cmp' a b = .lt)
    (ha : set.id? a = some i) (hb : set.id? b = some j) (h : cmp' a b = .lt) : [i] < [j] := by
  have hthen : (cmp' a b).then .eq = .lt := by rwa [Ordering.then_eq]
  exact cons_lt_cons hs ha hb hthen nofun

omit [LawfulBEq β] in
theorem mapM_id?_cons_eq_some {bs : List β} :
    (b :: bs).mapM set.id? = some xs ↔
      ∃ i is, set.id? b = some i ∧ bs.mapM set.id? = some is ∧ i :: is = xs := by
  simp [List.mapM_cons, Option.bind_eq_some_iff]

/-- Lists of parts are compared one by one. -/
theorem mapM_lt_mapM (hs : set.toList.Pairwise fun a b => cmp' a b = .lt) {as bs : List β}
    (h : List.compareLex cmp' as bs = .lt) (ha : as.mapM set.id? = some xs)
    (hb : bs.mapM set.id? = some ys) : xs < ys := by
  induction as generalizing bs xs ys with
  | nil =>
    obtain rfl : [] = xs := by simpa using ha
    cases bs with
    | nil => cases h
    | cons b bs =>
      obtain ⟨j, js, -, -, rfl⟩ := mapM_id?_cons_eq_some.mp hb
      exact List.nil_lt_cons _ _
  | cons a as ih =>
    obtain ⟨i, is, hi, his, rfl⟩ := mapM_id?_cons_eq_some.mp ha
    cases bs with
    | nil => cases h
    | cons b bs =>
      obtain ⟨j, js, hj, hjs, rfl⟩ := mapM_id?_cons_eq_some.mp hb
      rw [List.compareLex_cons_cons] at h
      exact cons_lt_cons hs hi hj h fun h => ih h his hjs

/-- Everything in a list has a place if all of it is in the pool. -/
theorem exists_mapM_id? {bs : List β} (h : ∀ b ∈ bs, b ∈ set.toList) :
    ∃ is, bs.mapM set.id? = some is := by
  induction bs with
  | nil => exact ⟨[], rfl⟩
  | cons b bs ih =>
    rw [List.forall_mem_cons] at h
    obtain ⟨i, hi⟩ := ItemSet.mem_toList_iff.mp h.1
    obtain ⟨is, his⟩ := ih h.2
    exact ⟨_, mapM_id?_cons_eq_some.mpr ⟨i, is, hi, his, rfl⟩⟩

/-! ## The keys of the entries -/

variable {p : Pools}

theorem typeKey_eq_some {t : TypeId} :
    p.typeKey t = some xs ↔ ∃ i, p.strings.id? t.descriptor = some i ∧ [i] = xs := by
  simp [typeKey, Option.bind_eq_some_iff]

theorem protoKey_eq_some {q : ProtoId} :
    p.protoKey q = some xs ↔ ∃ i is, p.types.id? q.returnType = some i ∧
      q.parameters.mapM p.types.id? = some is ∧ i :: is = xs := by
  simp [protoKey, Option.bind_eq_some_iff]

theorem memberKey_eq_some {t : TypeId} {s : String} {signature : Option Nat} :
    p.memberKey t s signature = some xs ↔ ∃ i j k, p.types.id? t = some i ∧
      p.strings.id? s = some j ∧ signature = some k ∧ [i, j, k] = xs := by
  simp [memberKey, Option.bind_eq_some_iff]

theorem exists_memberKey {t : TypeId} {s : String} (ht : t ∈ p.types.toList)
    (hname : s ∈ p.strings.toList) (hb : b ∈ set.toList) :
    ∃ x, p.memberKey t s (set.id? b) = some x := by
  obtain ⟨i, hi⟩ := ItemSet.mem_toList_iff.mp ht
  obtain ⟨j, hj⟩ := ItemSet.mem_toList_iff.mp hname
  obtain ⟨k, hk⟩ := ItemSet.mem_toList_iff.mp hb
  exact ⟨_, memberKey_eq_some.mpr ⟨i, j, k, hi, hj, hk, rfl⟩⟩

/-- Members that are compared by class, name and signature. -/
theorem memberKey_lt (types : p.types.toList.Pairwise fun s t => compare s t = .lt)
    (strings : p.strings.toList.Pairwise fun s t => compareUtf16 s t = .lt)
    (hs : set.toList.Pairwise fun a b => cmp' a b = .lt) {t u : TypeId} {s r : String}
    (h : (compare t u).then ((compareUtf16 s r).then (cmp' a b)) = .lt)
    (hx : p.memberKey t s (set.id? a) = some xs) (hy : p.memberKey u r (set.id? b) = some ys) :
    xs < ys := by
  obtain ⟨i, j, k, hi, hj, hk, rfl⟩ := memberKey_eq_some.mp hx
  obtain ⟨i', j', k', hi', hj', hk', rfl⟩ := memberKey_eq_some.mp hy
  refine cons_lt_cons types hi hi' h fun h => ?_
  exact cons_lt_cons strings hj hj' h fun h => singleton_lt_singleton hs hk hk' h

end

end Pools

open Pools in
/-- Whatever has been collected ascends in the pools. -/
theorem Contents.canonical_of_ofDex {o : WriteOptions} {d : Dex} {c : Contents}
    (h : ofDex o d = .ok c) : c.pools.Canonical := by
  obtain ⟨g, hg⟩ := fills_of_ofDex h
  have heq := eq_of_build hg.pools
  have strings : c.pools.strings.toList.Pairwise fun s t => compareUtf16 s t = .lt :=
    heq ▸ pairwise_lt_pool
  have types : c.pools.types.toList.Pairwise fun s t => compare s t = .lt := heq ▸ pairwise_lt_pool
  have protos : c.pools.protos.toList.Pairwise fun s t => compare s t = .lt :=
    heq ▸ pairwise_lt_pool
  -- the pools have what their entries refer to
  have holds {r s : Reference} (hr : c.pools.Holds r) (hs : .reference s ∈ Part.ofReference r) :
      c.pools.Holds s := hg.holds_iff.mpr (hg.has_of_holds hr hs)
  have parameters {q : ProtoId} (hq : q ∈ c.pools.protos.toList) :
      ∀ t ∈ q.parameters, t ∈ c.pools.types.toList := by
    intro t ht
    have hlist : g.Has (.typeList q.parameters) := by
      refine hg.has_of_holds (r := .proto q) hq ?_
      rw [Part.ofReference, if_neg (by simpa using List.ne_nil_of_mem ht)]
      exact .tail _ (.tail _ (.head _))
    exact hg.holds_iff (r := .type t).mpr (hg.has hlist (List.mem_map.mpr ⟨t, ht, rfl⟩))
  exact {
    strings := strings.imp compareUtf16_eq_lt_iff.mp
    types := by
      refine .of_lt types (fun t ht => ?_) fun {a b} hlt {x y} hx hy => ?_
      · obtain ⟨i, hi⟩ := ItemSet.mem_toList_iff.mp (holds (r := .type t) ht (.head _))
        exact ⟨_, typeKey_eq_some.mpr ⟨i, hi, rfl⟩⟩
      · obtain ⟨i, hi, rfl⟩ := typeKey_eq_some.mp hx
        obtain ⟨j, hj, rfl⟩ := typeKey_eq_some.mp hy
        exact singleton_lt_singleton strings hi hj hlt
    protos := by
      refine .of_lt protos (fun q hq => ?_) fun {a b} hlt {x y} hx hy => ?_
      · obtain ⟨i, hi⟩ := ItemSet.mem_toList_iff.mp (holds (r := .proto q) hq (.tail _ (.head _)))
        obtain ⟨is, his⟩ := exists_mapM_id? (parameters hq)
        exact ⟨_, protoKey_eq_some.mpr ⟨i, is, hi, his, rfl⟩⟩
      · obtain ⟨i, is, hi, his, rfl⟩ := protoKey_eq_some.mp hx
        obtain ⟨j, js, hj, hjs, rfl⟩ := protoKey_eq_some.mp hy
        exact cons_lt_cons types hi hj hlt fun h => mapM_lt_mapM types h his hjs
    fields := by
      refine .of_lt (heq ▸ pairwise_lt_pool) (fun f hf => ?_) fun hlt _ _ =>
        memberKey_lt types strings types hlt
      have parts {s : Reference} := holds (r := .field f) (s := s) hf
      exact exists_memberKey (parts (.head _)) (parts (.tail _ (.head _)))
        (parts (.tail _ (.tail _ (.head _))))
    methods := by
      refine .of_lt (heq ▸ pairwise_lt_pool) (fun m hm => ?_) fun hlt _ _ =>
        memberKey_lt types strings protos hlt
      have parts {s : Reference} := holds (r := .method m) (s := s) hm
      exact exists_memberKey (parts (.head _)) (parts (.tail _ (.head _)))
        (parts (.tail _ (.tail _ (.head _))))
    methodHandles := heq ▸ pairwise_lt_pool
    callSites := heq ▸ pairwise_lt_pool }

end Dalvik
