import Dalvik.Proofs.File.Given
import Dalvik.Proofs.File.RoundTrip
import Dalvik.Proofs.Gather.Referred
import Dalvik.Proofs.Pools.SiteOrder

/-!
# Writing again moves call sites

A call site that is read has the name of its index, and writing its classes again puts it where that
name stands among the others. So each call site keeps its index as long as there are ten of them at
most, and with more of them the eleventh comes before the third.
-/
namespace Dalvik
open Result

namespace DexFile

/-- The classes use every call site of the file. -/
def UsesAll (f : DexFile) (d : Dex) : Prop :=
  ∀ i, i.toNat < f.callSites.size → ∃ s ∈ d.callSites, f.callSite i = .ok s

end DexFile

/-! ## Classes that are read -/

/-- Classes that are read use the call sites that they used when they were written. -/
theorem Gathered.Fills.mem_callSites_readAs {o : WriteOptions} {g : Gathered} {d : Dex}
    {c : Contents} (h : g.Fills o d c) (site : CallSite → CallSite)
    (value : FieldDef → Option Value) {s : CallSite} (hs : s ∈ d.callSites) :
    site s ∈ Dex.callSites ⟨c.classes.map (ClassEntry.readAs o site value)⟩ := by
  obtain ⟨x, hx, m, hm, code, hcode, i, hi, hr⟩ := Dex.mem_callSites.mp hs
  obtain ⟨e, he, hold⟩ := exists_left_of_mem h.classes.flip hx
  obtain ⟨_, _, _, hmembers, -⟩ := hold.members
  obtain ⟨y, sets, hy, hmethod⟩ := hmembers.exists_entry hm
  have hdefinition : y.definition = m := hmethod.definition
  have hy : y ∈ e.methods := by
    rw [hmembers.methods_eq]
    exact List.mem_map_of_mem (f := Prod.fst) hy
  have hread : y.definition.readAs o site ∈ (e.readAs o site value).methods := by
    refine List.mem_append.mpr ((List.mem_append.mp hy).imp (fun hy => ?_) fun hy => ?_) <;>
      exact List.mem_map_of_mem (f := fun y : MethodEntry => y.definition.readAs o site) hy
  have hnormal : .callSite (site s) ∈ (i.normal site).references := by
    rw [Instruction.references_normal]
    exact List.mem_map_of_mem (f := Reference.renamed site) hr
  refine Dex.mem_callSites.mpr ⟨_, List.mem_map_of_mem he, _, hread, code.normal o site, ?_,
    i.normal site, List.mem_map_of_mem hi, hnormal⟩
  rw [hdefinition]
  exact Option.mem_map_of_mem _ hcode

namespace DexFile

variable {f : DexFile} {o : WriteOptions} {d : Dex} {c : Contents} {data : Contents.Data}
  {i : UInt32} {s : CallSite}

section
variable (h : f.Holds o c data)
include h

theorem callSites_size : f.callSites.size = c.pools.callSites.toList.length := h.callSites.size

variable (hc : Contents.ofDex o d = .ok c)
include hc

theorem callSites_size_le : f.callSites.size ≤ Pools.maxSize := by
  rw [callSites_size h, ItemSet.length_toList]
  exact (Contents.short_of_ofDex hc).callSites

variable (hm : ∀ m ∈ c.pools.methodHandles.toList, m.IsConsistent)
include hm

/-- Every call site of a file that was written is read for one of the pool. -/
theorem exists_readAt (hi : i.toNat < f.callSites.size) : ∃ s ∈ c.pools.callSites.toList,
    c.readSite s = s.readAt i.toNat ∧ f.callSite i = .ok (s.readAt i.toNat) := by
  rw [callSites_size h] at hi
  have hget := List.getElem?_eq_getElem hi
  refine ⟨_, List.getElem_mem hi, ?_, callSite_eq h (Contents.short_of_ofDex hc) hm
    (Contents.shallow_of_ofDex hc) hget⟩
  rw [Contents.readSite, ItemSet.id?_eq_iff_getElem?.mpr hget]

/-- The classes of a file that was written use all of its call sites. -/
theorem usesAll_readAs (value : FieldDef → Option Value) :
    f.UsesAll ⟨c.classes.map (ClassEntry.readAs o c.readSite value)⟩ := by
  intro i hi
  obtain ⟨g, hg⟩ := Contents.fills_of_ofDex hc
  obtain ⟨s, hs, hsite, hread⟩ := exists_readAt h hc hm hi
  refine ⟨_, ?_, hread⟩
  rw [← hsite]
  exact hg.mem_callSites_readAs _ value ((Contents.mem_callSites_iff hc).mp hs)

end

/-! ## Classes that are written again -/

section
variable (hd : f.dex = .ok d) (hc : Contents.ofDex o d = .ok c)
include hd hc

/-- The pools of the classes of a file hold call sites and method handles of that file. -/
theorem gives_of_ofDex : (∀ s ∈ c.pools.callSites.toList, ∃ i, f.callSite i = .ok s) ∧
    ∀ m ∈ c.pools.methodHandles.toList, m.IsConsistent := by
  obtain ⟨hsites, hhandles⟩ := Contents.only_of_ofDex hc (refersOnly_of_dex hd)
    fun s ⟨i, hs⟩ => (callSite_given hs).2
  exact ⟨hsites, fun m hm => isConsistent_of_methodHandle (hhandles m hm).choose_spec⟩

variable (hused : f.UsesAll d)
include hused

theorem mem_pool_iff : s ∈ c.pools.callSites.toList ↔ ∃ i, f.callSite i = .ok s := by
  refine ⟨(gives_of_ofDex hd hc).1 s, fun ⟨i, hs⟩ => (Contents.mem_callSites_iff hc).mpr ?_⟩
  obtain ⟨t, ht, hread⟩ := hused i (lt_of_callSite hs)
  rwa [← Except.ok.inj (hread.symm.trans hs)]

variable (hsize : f.callSites.size ≤ Pools.maxSize)
include hsize

/-- Each call site is written at the place that its name has among the others. -/
theorem resolver_rank (hs : f.callSite i = .ok s) : ∃ place : UInt32,
    place.toNat = CallSite.rank f.callSites.size i.toNat ∧ c.resolver.callSite s = .ok place := by
  have hmax : Pools.maxSize < UInt32.size := by decide
  have hnat {k : Nat} (hk : k ≤ f.callSites.size) : (UInt32.ofNat k).toNat = k :=
    UInt32.toNat_ofNat_of_lt' (by omega)
  have : Nonempty CallSite := ⟨s⟩
  have hentries : ∀ k < f.callSites.size, ∃ s, f.callSite (UInt32.ofNat k) = .ok s := fun k hk => by
    obtain ⟨s, -, hs⟩ := hused (UInt32.ofNat k) (by rwa [hnat (by omega)])
    exact ⟨s, hs⟩
  choose! site hread using hentries
  have hascend : c.pools.callSites.toList.Pairwise fun s t => compare s t = .lt := by
    obtain ⟨g, hg⟩ := Contents.fills_of_ofDex hc
    rw [Pools.eq_of_build hg.pools]
    exact Pools.pairwise_lt_pool
  have hsites : ∀ t, t ∈ c.pools.callSites.toList ↔ ∃ k < f.callSites.size, site k = t := by
    intro t
    rw [mem_pool_iff hd hc hused]
    constructor
    · rintro ⟨j, hj⟩
      have hlt := lt_of_callSite hj
      have hself := hread j.toNat hlt
      rw [UInt32.ofNat_toNat, hj] at hself
      exact ⟨j.toNat, hlt, (Except.ok.inj hself).symm⟩
    · rintro ⟨k, hk, rfl⟩
      exact ⟨_, hread k hk⟩
  have hname : ∀ k < f.callSites.size, (site k).name = CallSite.nameOf k := fun k hk => by
    rw [(callSite_given (hread k hk)).1, hnat (by omega)]
  have hlt := lt_of_callSite hs
  have hself := hread i.toNat hlt
  rw [UInt32.ofNat_toNat, hs] at hself
  obtain rfl := Except.ok.inj hself
  exact ⟨_, hnat (CallSite.rank_le _ _), (Pools.lookup_eq_ok_iff hascend).mpr
    ⟨_, CallSite.getElem?_rank hname hascend hsites hlt, rfl⟩⟩

/-- All call sites keep their indices if and only if there are ten of them at most. -/
theorem keeps_indices_iff :
    (∀ i s, f.callSite i = .ok s → c.resolver.callSite s = .ok i) ↔ f.callSites.size ≤ 10 := by
  rw [← CallSite.rank_eq_iff]
  constructor
  · intro hkept index hlt
    have hmax : Pools.maxSize < UInt32.size := by decide
    have hnat : (UInt32.ofNat index).toNat = index := UInt32.toNat_ofNat_of_lt' (by omega)
    obtain ⟨s, -, hs⟩ := hused (UInt32.ofNat index) (by rwa [hnat])
    obtain ⟨place, hrank, hresolved⟩ := resolver_rank hd hc hused hsize hs
    rw [← Except.ok.inj ((hkept _ s hs).symm.trans hresolved), hnat] at hrank
    exact hrank.symm
  · intro hranks i s hs
    obtain ⟨place, hrank, hresolved⟩ := resolver_rank hd hc hused hsize hs
    rw [hranks i.toNat (lt_of_callSite hs)] at hrank
    rwa [← UInt32.toNat_inj.mp hrank]

end

end DexFile

namespace Dex
open DexFile

variable {o : WriteOptions} {d₀ d : Dex} {c₀ : Contents} {bytes₀ bytes : Bytes} {f : DexFile}

/-- Writing the classes of a file again moves its call sites to the places of their names, and each
one is read with the name of its new place. All of them keep their indices, and with these their
names, if and only if there are ten of them at most. -/
theorem callSites_rewritten (h₀ : d₀.encode o = .ok bytes₀) (hc₀ : Contents.ofDex o d₀ = .ok c₀)
    (hm : ∀ m ∈ c₀.pools.methodHandles.toList, m.IsConsistent)
    (hformed : ∀ x ∈ d₀.classes, x.WellFormed) (htyped : ∀ x ∈ d₀.classes, x.Typed)
    (hf : DexFile.ofBytes o.options bytes₀.toByteArray 0 = .ok f) (hd : f.dex = .ok d)
    (h : d.encode o = .ok bytes) :
    ∃ c f', Contents.ofDex o d = .ok c ∧ DexFile.ofBytes o.options bytes.toByteArray 0 = .ok f' ∧
      (∀ s, s ∈ d.callSites ↔ ∃ i, f.callSite i = .ok s) ∧
      (∀ i s, f.callSite i = .ok s → ∃ place,
        place.toNat = CallSite.rank f.callSites.size i.toNat ∧ c.resolver.callSite s = .ok place ∧
          f'.callSite place = .ok { s with name := CallSite.nameOf place.toNat }) ∧
      ((∀ i s, f.callSite i = .ok s → c.resolver.callSite s = .ok i ∧ f'.callSite i = .ok s) ↔
        f.callSites.size ≤ 10) := by
  obtain ⟨c₁, data₀, f₁, hc₁, hf₁, hholds₀⟩ := exists_file_of_encode h₀
  obtain rfl := Except.ok.inj (hc₀.symm.trans hc₁)
  obtain rfl := Except.ok.inj (hf.symm.trans hf₁)
  obtain ⟨g₀, hg₀⟩ := Contents.fills_of_ofDex hc₀
  have hread₀ := dex_eq hholds₀ (Contents.short_of_ofDex hc₀) hm (Contents.shallow_of_ofDex hc₀) hg₀
    (validate_of_encode h₀) (Contents.nodup_types_of_ofDex hc₀) hformed
    (initial_of_typed hg₀ htyped)
  obtain rfl := Except.ok.inj (hread₀.symm.trans hd)
  obtain ⟨c, data, f', hc, hf', hholds⟩ := exists_file_of_encode h
  have hused := usesAll_readAs hholds₀ hc₀ hm FieldDef.initial
  have hsize := callSites_size_le hholds₀ hc₀
  -- what is read at an index of the second file differs from what was written there in its name
  have hnamed : ∀ i s, f.callSite i = .ok s → ∀ place, c.resolver.callSite s = .ok place →
      f'.callSite place = .ok { s with name := CallSite.nameOf place.toNat } := by
    intro i s hs place hresolved
    have hp := Contents.short_of_ofDex hc
    have hget := Pools.getElem?_of_lookup (Nat.le_trans hp.callSites (by decide)) hresolved
    rw [callSite_eq hholds hp (gives_of_ofDex hd hc).2 (Contents.shallow_of_ofDex hc) hget]
    obtain ⟨t, -, -, hread⟩ := exists_readAt hholds₀ hc₀ hm (lt_of_callSite hs)
    obtain rfl := Except.ok.inj (hread.symm.trans hs)
    exact congrArg Except.ok (CallSite.readAt_readAt t _ _)
  refine ⟨c, f', hc, hf', fun s => ?_, fun i s hs => ?_, ?_⟩
  · rw [← Contents.mem_callSites_iff hc]
    exact mem_pool_iff hd hc hused
  · obtain ⟨place, hrank, hresolved⟩ := resolver_rank hd hc hused hsize hs
    exact ⟨place, hrank, hresolved, hnamed i s hs place hresolved⟩
  · rw [← keeps_indices_iff hd hc hused hsize]
    refine ⟨fun hkept i s hs => (hkept i s hs).1, fun hkept i s hs => ⟨hkept i s hs, ?_⟩⟩
    have hread := hnamed i s hs i (hkept i s hs)
    rwa [← (callSite_given hs).1] at hread

end Dex

/-! ## A class with eleven call sites -/

def callerId : MethodId := ⟨⟨"LA;"⟩, "m", ⟨⟨"V"⟩, []⟩⟩

def callerHandle : MethodHandle := ⟨.invokeStatic, .method callerId⟩

/-- The call site with the name of an index; all of them lead to the same method. -/
def numberedSite (index : Nat) : CallSite :=
  ⟨CallSite.nameOf index, callerHandle, "m", ⟨⟨"V"⟩, []⟩, []⟩

/-- An `invoke-custom` without arguments. -/
def siteCall (s : CallSite) : Instruction := ⟨⟨220, by decide⟩, .f35c [] (.callSite s)⟩

/-- Code that runs through call sites and returns. -/
def callerCode (indices : List Nat) : Code where
  registers := 0
  instructions := indices.map (siteCall ∘ numberedSite) ++ [⟨⟨14, by decide⟩, .f10x⟩]

def callerMethod (indices : List Nat) : MethodDef :=
  { name := "m", returnType := ⟨"V"⟩, access := 9, code := some (callerCode indices) }

def callerClass (indices : List Nat) : ClassDef :=
  { type := ⟨"LA;"⟩, directMethods := [callerMethod indices] }

/-- Eleven indices in the order of their names. -/
def byName : List Nat := [0, 1, 10, 2, 3, 4, 5, 6, 7, 8, 9]

theorem numberedSite_injective : Function.Injective numberedSite := fun _ _ h =>
  CallSite.nameOf_injective (congrArg CallSite.name h)

theorem pairwise_byName : (byName.map numberedSite).Pairwise fun s t => compare s t = .lt := by
  have hnames : byName.Pairwise fun i j =>
      Text.compareUtf16 (CallSite.nameOf i) (CallSite.nameOf j) = .lt := by decide +kernel
  refine List.pairwise_map.mpr (hnames.imp fun {i j} hlt => ?_)
  have hne : CallSite.nameOf i ≠ CallSite.nameOf j := fun heq => by
    rw [heq, show Text.compareUtf16 (CallSite.nameOf j) (CallSite.nameOf j) = .eq from
      Std.ReflCmp.compare_self] at hlt
    cases hlt
  rwa [CallSite.compare_eq_of_ne hne]

namespace Contents
open Gather

/-! ### What is found in the class -/

section
variable (indices : List Nat)

def callerEntry : ClassEntry :=
  ⟨callerClass indices, none, none, none, [], [],
    [⟨callerMethod indices, callerId, some 0, none⟩], []⟩

/-- What is found in the class before its code. -/
def callerFound : Gathered := (Gathered.addType {} ⟨"LA;"⟩).addMethod callerId

def callerShared : SharedCode := ⟨callerCode indices, 0, (callerCode indices).outgoing, none⟩

/-- What is found in the class, with call sites set aside. -/
def callerDeferred : Gathered :=
  { callerFound with
    items := { callerFound.items with code := (ItemSet.insert ∅ (callerShared indices)).2 }
    deferred := (indices.map (Deferred.callSite ∘ numberedSite)).reverse }

theorem annotationSet_nil (g : Gathered) : annotationSet [] g = .ok ([], g) := by
  have hset : AnnotationItem.sortedSet [] = .ok [] := by cbv
  exact bind_eq_ok.mpr ⟨_, bind_eq_ok.mpr ⟨_, hset, rfl⟩, rfl⟩

/-- The code of the class sets its call sites aside. -/
theorem refer_callerCode (g : Gathered) :
    (forIn (callerCode indices).instructions PUnit.unit fun i _ => do
        i.references.forM refer
        pure (.yield ⟨⟩) : Gather PUnit) g =
      .ok (⟨⟩, { g with
        deferred := (indices.map (Deferred.callSite ∘ numberedSite)).reverse ++ g.deferred }) := by
  rw [callerCode]
  dsimp only
  induction indices generalizing g with
  | nil => rfl
  | cons i indices ih =>
    rw [List.map_cons, List.cons_append, List.forIn_cons, List.map_cons, List.reverse_cons,
      List.append_assoc]
    exact ih _

theorem method_caller :
    method {} callerId (callerMethod indices) (Gathered.addType {} ⟨"LA;"⟩) =
      .ok ((⟨callerMethod indices, callerId, some 0, none⟩, [], []), callerDeferred indices) := by
  have hid : (ItemSet.insert ∅ (callerShared indices)).1 = 0 := by
    have hlt := ItemSet.lt_length_of_id? (ItemSet.id?_insert_self ∅ (callerShared indices))
    rw [ItemSet.toList_insert] at hlt
    exact Nat.lt_one_iff.mp hlt
  have hrefer : refer (.method callerId) (Gathered.addType {} ⟨"LA;"⟩) = .ok (⟨⟩, callerFound) :=
    rfl
  have hsets (g : Gathered) : parameterSets (callerMethod indices) g = .ok ([], g) := rfl
  have hcode : (callerMethod indices).code = some (callerCode indices) := rfl
  have hincoming : (callerMethod indices).incoming = 0 := by cbv
  have hcalls := refer_callerCode indices callerFound
  rw [show callerFound.deferred = [] from rfl, List.append_nil] at hcalls
  rw [← hid]
  refine (bind_of_ok hrefer).trans ((bind_of_ok (annotationSet_nil _)).trans
    ((bind_of_ok (hsets _)).trans ?_))
  simp only [hcode, hincoming]
  rw [if_neg (Nat.not_lt_zero _)]
  exact (bind_of_ok hcalls).trans rfl

theorem classEntry_caller :
    classEntry {} (callerClass indices) {} = .ok (callerEntry indices, callerDeferred indices) := by
  have hempty {α ι : Type} [Ord ι] (id : α → ι) : sortedMembers id [] = [] := by cbv
  have hsorted : sortedMembers (callerClass indices).methodId (callerClass indices).directMethods =
      [(callerId, callerMethod indices)] := by
    rw [sortedMembers]
    cbv
  have hdistinct : checkDistinct "method" [callerId] = .ok () := by
    simp [checkDistinct, ItemSet.firstRepeated?, ItemSet.firstRepeated?.go, ItemSet.contains]
  have hmethods : [(callerId, callerMethod indices)].mapM
      (fun p : MethodId × MethodDef => within s!"method {p.1}" (method {} p.1 p.2))
        (Gathered.addType {} ⟨"LA;"⟩) =
        .ok ([(⟨callerMethod indices, callerId, some 0, none⟩, [], [])],
          callerDeferred indices) := by
    rw [List.mapM_cons]
    exact (bind_of_ok (within_eq_ok_iff.mpr (method_caller indices))).trans rfl
  have hvirtual : (callerClass indices).virtualMethods = [] := rfl
  have hstatic : (callerClass indices).staticFields = [] := rfl
  have hinstance : (callerClass indices).instanceFields = [] := rfl
  unfold classEntry
  simp only [hsorted, hstatic, hinstance, hvirtual, hempty]
  refine bind_eq_ok.mpr ⟨_, bind_eq_ok.mpr ⟨_, hdistinct, rfl⟩, ?_⟩
  refine (bind_of_ok (annotationSet_nil _)).trans ?_
  -- the class has no fields, so nothing else is found before its methods
  simp only [List.map_nil, List.append_nil, List.mapM_nil, List.forIn_nil, pure_bind]
  rw [if_pos (by cbv)]
  exact (bind_of_ok hmethods).trans rfl

end

/-! ### What its call sites bring -/

def callerValues : List Value :=
  [.methodHandle callerHandle, .string "m", .methodType ⟨⟨"V"⟩, []⟩]

/-- What is found in the class, with what its call sites bring. -/
def callerWith (indices : List Nat) (handles : ItemSet MethodHandle) (sites : ItemSet CallSite)
    (arrays : ItemSet (List Value)) : Gathered :=
  { callerFound with
    methodHandles := handles
    callSites := sites
    items := {
      encodedArrays := arrays
      code := (ItemSet.insert ∅ (callerShared indices)).2 } }

/-- What the call sites of the indices that were found bring. -/
structure Brought (found : List Nat) (handles : ItemSet MethodHandle) (sites : ItemSet CallSite)
    (arrays : ItemSet (List Value)) : Prop where
  handles : handles.toList = (found.take 1).map fun _ => callerHandle
  sites : sites.toList = found.map numberedSite
  arrays : arrays.toList = (found.take 1).map fun _ => callerValues

theorem toLists_callerFound : callerFound.strings.toList = ["LA;", "m", "V"] ∧
    callerFound.types.toList = [⟨"LA;"⟩, ⟨"V"⟩] ∧ callerFound.protos.toList = [⟨⟨"V"⟩, []⟩] ∧
      callerFound.methods.toList = [callerId] := by
  simp only [callerFound, Gathered.addType, Gathered.addMethod, Gathered.addString,
    Gathered.addProto, callerId, ItemSet.toList_insert, List.foldl_nil, List.isEmpty_nil, if_true]
  exact ⟨rfl, rfl, rfl, rfl⟩

section
variable {indices : List Nat} {handles : ItemSet MethodHandle} {sites : ItemSet CallSite}
  {arrays : ItemSet (List Value)}

/-- A call site brings nothing but itself, its method handle and its values. -/
theorem addCallSite_callerWith (i : Nat) :
    (callerWith indices handles sites arrays).addCallSite (numberedSite i) =
      callerWith indices (handles.insert callerHandle).2 (sites.insert (numberedSite i)).2
        (arrays.insert callerValues).2 := by
  obtain ⟨hstrings, htypes, hprotos, hmethods⟩ := toLists_callerFound
  have string {s : String} (h : s ∈ ["LA;", "m", "V"]) :
      (callerFound.strings.insert s).2 = callerFound.strings := ItemSet.insert_of_mem (hstrings ▸ h)
  have type {t : TypeId} (h : t ∈ [TypeId.mk "LA;", ⟨"V"⟩]) :
      (callerFound.types.insert t).2 = callerFound.types := ItemSet.insert_of_mem (htypes ▸ h)
  have hproto : (callerFound.protos.insert ⟨⟨"V"⟩, []⟩).2 = callerFound.protos :=
    ItemSet.insert_of_mem (hprotos ▸ List.mem_singleton_self _)
  have hmethod : (callerFound.methods.insert ⟨⟨"LA;"⟩, "m", ⟨⟨"V"⟩, []⟩⟩).2 =
      callerFound.methods := ItemSet.insert_of_mem (hmethods ▸ List.mem_singleton_self _)
  have hshorty : ProtoId.shorty ⟨⟨"V"⟩, []⟩ = "V" := by cbv
  simp [callerValues, CallSite.toValues, callerWith, Gathered.addCallSite,
    Gathered.addMethodHandle, Gathered.addMethod, Gathered.addProto, Gathered.addType,
    Gathered.addString, numberedSite, callerHandle, callerId, string, type, hproto, hmethod,
    hshorty]

theorem settleAll_caller (indices : List Nat) : (callerDeferred indices).settleAll =
    .ok (indices.reverse.foldl (fun g i => g.addCallSite (numberedSite i))
      (callerWith indices ∅ ∅ ∅)) := by
  have hone (g : Gathered) (i : Nat) :
      g.settle (.callSite (numberedSite i)) = .ok (g.addCallSite (numberedSite i)) := rfl
  have hsettle (is : List Nat) (g : Gathered) :
      (is.map (Deferred.callSite ∘ numberedSite)).foldlM Gathered.settle g =
        .ok (is.foldl (fun g i => g.addCallSite (numberedSite i)) g) := by
    induction is generalizing g with
    | nil => rfl
    | cons i is ih =>
      rw [List.map_cons, List.foldlM_cons, Function.comp_apply, hone, ok_bind, ih, List.foldl_cons]
  rw [Gathered.settleAll, callerDeferred, ← List.map_reverse]
  exact hsettle _ _

theorem Brought.next {found : List Nat} (h : Brought found handles sites arrays) {i : Nat}
    (hi : i ∉ found) : Brought (found ++ [i]) (handles.insert callerHandle).2
      (sites.insert (numberedSite i)).2 (arrays.insert callerValues).2 where
  handles := by
    rw [ItemSet.toList_insert, h.handles]
    cases found <;> simp
  sites := by
    have hnew : numberedSite i ∉ found.map numberedSite := by
      rwa [List.mem_map_of_injective numberedSite_injective]
    rw [ItemSet.toList_insert, h.sites, if_neg hnew, List.map_append]
    rfl
  arrays := by
    rw [ItemSet.toList_insert, h.arrays]
    cases found <;> simp

theorem exists_brought (is : List Nat) {found : List Nat} (hnodup : (found ++ is).Nodup)
    (h : Brought found handles sites arrays) : ∃ handles' sites' arrays',
      is.foldl (fun g i => g.addCallSite (numberedSite i))
        (callerWith indices handles sites arrays) = callerWith indices handles' sites' arrays' ∧
      Brought (found ++ is) handles' sites' arrays' := by
  induction is generalizing handles sites arrays found with
  | nil => exact ⟨_, _, _, rfl, by rwa [List.append_nil]⟩
  | cons i is ih =>
    have hi : i ∉ found := (List.nodup_middle.mp hnodup).notMem ∘ List.mem_append_left _
    rw [List.append_cons] at hnodup ⊢
    obtain ⟨handles', sites', arrays', hrun, hall⟩ := ih hnodup (h.next hi)
    exact ⟨handles', sites', arrays', by rw [List.foldl_cons, addCallSite_callerWith, hrun], hall⟩

end

/-! ### What is written -/

/-- The pools hold the call sites in the order of their names. -/
def callers (indices : List Nat) (arrays : ItemSet (List Value)) : Contents where
  pools := {
    strings := .ofList ["LA;", "V", "m"]
    types := .ofList [⟨"LA;"⟩, ⟨"V"⟩]
    protos := .ofList [⟨⟨"V"⟩, []⟩]
    methods := .ofList [callerId]
    methodHandles := .ofList [callerHandle]
    callSites := .ofList (byName.map numberedSite) }
  items := { encodedArrays := arrays, code := (ItemSet.insert ∅ (callerShared indices)).2 }
  classes := [callerEntry indices]

/-- In whatever order the code runs through the call sites, the pools are the same. -/
theorem exists_ofDex_caller {indices : List Nat} (hperm : indices.Perm byName) : ∃ arrays,
    arrays.toList = [callerValues] ∧
      ofDex {} ⟨[callerClass indices]⟩ = .ok (callers indices arrays) := by
  have hfound : Brought [] ∅ ∅ ∅ := ⟨rfl, rfl, rfl⟩
  have hnodup : ([] ++ indices.reverse).Nodup :=
    List.nodup_reverse.mpr (hperm.nodup_iff.mpr (by decide))
  obtain ⟨handles, sites, arrays, hrun, hall⟩ := exists_brought indices.reverse hnodup hfound
  have hsettle : (callerDeferred indices).settleAll =
      .ok (callerWith indices handles sites arrays) :=
    (settleAll_caller indices).trans (congrArg Except.ok hrun)
  have hentries : classEntries {} ∅ [callerClass indices] {} =
      .ok ([callerEntry indices], callerDeferred indices) := by
    rw [classEntries, ItemSet.contains, ItemSet.id?_empty, if_neg (by simp)]
    exact (bind_of_ok (within_eq_ok_iff.mpr (classEntry_caller indices))).trans rfl
  obtain ⟨i, is, hcons⟩ : ∃ i is, [] ++ indices.reverse = i :: is := by
    refine List.exists_cons_of_length_pos ?_
    simp [hperm.length_eq, byName]
  have hhandles := hall.handles
  have harrays := hall.arrays
  rw [hcons] at hhandles harrays
  have hsites : sortedBy compare (indices.reverse.map numberedSite) = byName.map numberedSite := by
    rw [sortedBy_eq_of_perm ((indices.reverse_perm.trans hperm).map _)
      fun _ _ _ _ heq => Std.LawfulEqCmp.eq_of_compare heq]
    refine sortedBy_of_pairwise (pairwise_byName.imp fun hlt => ?_)
    rw [hlt]
    rfl
  have hlength : (indices.reverse.map numberedSite).length = 11 := by
    simp [hperm.length_eq, byName]
  have hstring : sortedBy Text.compareUtf16 ["LA;", "m", "V"] = ["LA;", "V", "m"] := by cbv
  have htype : sortedBy compare [TypeId.mk "LA;", ⟨"V"⟩] = [⟨"LA;"⟩, ⟨"V"⟩] := by cbv
  have hsingle {α : Type} [Ord α] (a : α) : sortedBy compare [a] = [a] := by cbv
  have hfield : sortedBy compare ([] : List FieldId) = [] := by cbv
  have hpools : (callerWith indices handles sites arrays).toPools =
      .ok (callers indices arrays).pools := by
    obtain ⟨strings, types, protos, methods⟩ := toLists_callerFound
    rw [Gathered.toPools, callerWith]
    simp only [strings, types, protos, methods, hhandles, hall.sites, List.nil_append,
      List.take_succ_cons, List.take_zero, List.map_cons, List.map_nil]
    simp only [Pools.build, Pools.pool, hsites, hlength, hstring, htype, hsingle]
    rw [show callerFound.fields.toList = [] from rfl, hfield]
    rfl
  exact ⟨arrays, harrays, bind_eq_ok.mpr ⟨_, hentries, bind_eq_ok.mpr ⟨_, hsettle,
    bind_eq_ok.mpr ⟨_, hpools, rfl⟩⟩⟩⟩

section
variable (indices : List Nat) (arrays : ItemSet (List Value))

theorem toLists_callers : (callers indices arrays).pools.strings.toList = ["LA;", "V", "m"] ∧
    (callers indices arrays).pools.types.toList = [⟨"LA;"⟩, ⟨"V"⟩] ∧
    (callers indices arrays).pools.protos.toList = [⟨⟨"V"⟩, []⟩] ∧
    (callers indices arrays).pools.methods.toList = [callerId] ∧
    (callers indices arrays).pools.methodHandles.toList = [callerHandle] ∧
    (callers indices arrays).pools.callSites.toList = byName.map numberedSite :=
  ⟨ItemSet.toList_ofList_of_nodup (by decide), ItemSet.toList_ofList_of_nodup (by decide),
    ItemSet.toList_ofList_of_nodup (List.nodup_singleton _),
    ItemSet.toList_ofList_of_nodup (List.nodup_singleton _),
    ItemSet.toList_ofList_of_nodup (List.nodup_singleton _),
    ItemSet.toList_ofList_of_nodup (List.Nodup.map numberedSite_injective (by decide))⟩

end

section
variable {indices : List Nat} {arrays : ItemSet (List Value)}

theorem string_callers {s : String} {k : Nat} (h : ["LA;", "V", "m"][k]? = some s) :
    (callers indices arrays).resolver.string s = .ok (UInt32.ofNat k) :=
  Pools.lookup_ofList (by decide) h

theorem type_callers {t : TypeId} {k : Nat} (h : [TypeId.mk "LA;", ⟨"V"⟩][k]? = some t) :
    (callers indices arrays).resolver.type t = .ok (UInt32.ofNat k) :=
  Pools.lookup_ofList (by decide) h

theorem proto_callers : (callers indices arrays).resolver.proto ⟨⟨"V"⟩, []⟩ = .ok 0 :=
  Pools.lookup_ofList (List.pairwise_singleton _ _) (k := 0) rfl

theorem method_callers : (callers indices arrays).resolver.method callerId = .ok 0 :=
  Pools.lookup_ofList (List.pairwise_singleton _ _) (k := 0) rfl

theorem methodHandle_callers :
    (callers indices arrays).resolver.methodHandle callerHandle = .ok 0 :=
  Pools.lookup_ofList (List.pairwise_singleton _ _) (k := 0) rfl

theorem callSite_callers {i k : Nat} (h : byName[k]? = some i) :
    (callers indices arrays).resolver.callSite (numberedSite i) = .ok (UInt32.ofNat k) :=
  Pools.lookup_ofList pairwise_byName (by rw [List.getElem?_map, h]; rfl)

theorem unitsOf_callerCode (indices : List Nat) :
    Instruction.unitsOf (callerCode indices).instructions = 3 * indices.length + 1 := by
  induction indices with
  | nil => rfl
  | cons i is ih =>
    change 3 + Instruction.unitsOf (callerCode is).instructions = _
    rw [ih, List.length_cons]
    omega

/-- The instructions are written when all call sites of the class are in the pool. -/
theorem exists_encode_callerCode (hsub : ∀ i ∈ indices, i ∈ byName) {i : Instruction}
    (hi : i ∈ (callerCode indices).instructions) (position : Nat) : ∃ part,
    i.encode (.ofTarget (WriteOptions.target {})) (callers indices arrays).resolver position =
      .ok part := by
  have hvalue {o : Opcode} {value : UInt16} (h : o.value? (WriteOptions.target {}) = some value) :
      (OpcodeTable.ofTarget (WriteOptions.target {})).value o = .ok value := by
    change o.value? (OpcodeTable.ofTarget (WriteOptions.target {})).target = some value at h
    rw [OpcodeTable.value, h]
  have hcall : Opcode.value? ⟨220, by decide⟩ (WriteOptions.target {}) = some 0xfc := by
    decide +kernel
  have hreturn : Opcode.value? ⟨14, by decide⟩ (WriteOptions.target {}) = some 0x0e := by
    decide +kernel
  have hkind : Opcode.reference ⟨220, by decide⟩ = .callSite := by decide +kernel
  rcases List.mem_append.mp hi with hi | hi
  · obtain ⟨j, hj, rfl⟩ := List.mem_map.mp hi
    obtain ⟨k, hk⟩ := List.mem_iff_getElem?.mp (hsub j hj)
    have hlt : k < 11 := (List.getElem?_eq_some_iff.mp hk).1
    have hindex : Instruction.shortIndex (callers indices arrays).resolver .callSite
        (.callSite (numberedSite j)) = .ok (Instruction.unitBytes k) := by
      have hnat : (UInt32.ofNat k).toNat = k :=
        UInt32.toNat_ofNat_of_lt' (Nat.lt_trans hlt (by decide))
      refine bind_eq_ok.mpr ⟨_, callSite_callers hk, ?_⟩
      rw [hnat, Instruction.fitUnsigned, if_pos (by omega)]
      rfl
    exact ⟨_, bind_eq_ok.mpr ⟨_, hvalue hcall, bind_eq_ok.mpr ⟨_, hkind ▸ hindex, rfl⟩⟩⟩
  · obtain rfl := List.mem_singleton.mp hi
    exact ⟨_, bind_eq_ok.mpr ⟨_, hvalue hreturn, rfl⟩⟩

/-- The data of the class, with the bytes of its code. -/
def callerData (code : Bytes) : Data :=
  ⟨.empty .debugInfo 236, ⟨.codeItems, 236, [⟨code, 236⟩]⟩,
    ⟨.encodedArrays, 320, [⟨[3, 0x16, 0, 0x17, 2, 0x15, 0], 320⟩]⟩, .empty .annotationItems 327,
    .empty .annotationSets 327, .empty .annotationSetLists 327, .empty .annotationDirectories 327,
    .empty .typeLists 327, ⟨.classData, 327, [⟨[0, 0, 1, 0, 0, 9, 0xec, 1], 327⟩]⟩,
    ⟨.stringData, 335, [⟨[3, 76, 65, 59, 0], 335⟩, ⟨[1, 86, 0], 340⟩, ⟨[1, 109, 0], 343⟩]⟩,
    .empty .hiddenApi 346⟩

theorem exists_codeSection_callers (arrays : ItemSet (List Value)) (hperm : indices.Perm byName) :
    ∃ code, code.length = 84 ∧
      (callers indices arrays).codeSection {} (.empty .debugInfo 236) 236 =
        .ok (callerData code).code := by
  have hunits : Instruction.unitsOf (callerCode indices).instructions = 34 := by
    rw [unitsOf_callerCode, hperm.length_eq]
    rfl
  obtain ⟨out, hout⟩ : ∃ out, Instruction.encodeAll (.ofTarget (WriteOptions.target {}))
      (callers indices arrays).resolver 252 (callerCode indices).instructions = .ok out :=
    Instruction.exists_encodeAll fun i hi => exists_encode_callerCode (fun _ => hperm.mem_iff.mp) hi
  have hlength := Instruction.length_encodeAll hout
  rw [hunits] at hlength
  let item : CodeItem :=
    ⟨0, 0, (callerCode indices).outgoing, 0, (callerCode indices).instructions, []⟩
  let header : CodeHeader := ⟨0, 0, (callerCode indices).outgoing, 0, 34, 0⟩
  have hheader : item.encodeHeader false 236 [] = .ok ([], header.encode) := by
    have hstored : item.header [] = .ok header := by
      unfold CodeItem.header
      rw [show Instruction.unitsOf item.instructions = 34 from hunits]
      rfl
    exact bind_eq_ok.mpr ⟨_, hstored, rfl⟩
  have hitem : item.encode false (.ofTarget (WriteOptions.target {}))
      (callers indices arrays).resolver 236 = .ok ⟨header.encode ++ out, 236⟩ := by
    have htries : TryBlock.sorted [] = .ok [] := by cbv
    have hpad : padding 236 4 = [] := by cbv
    unfold CodeItem.encode
    rw [show CodeItem.alignment false = 4 from rfl, hpad]
    refine bind_eq_ok.mpr ⟨_, htries, bind_eq_ok.mpr ⟨_, hheader, bind_eq_ok.mpr ⟨out, hout, ?_⟩⟩⟩
    rw [show Instruction.unitsOf item.instructions = 34 from hunits, if_neg (by omega)]
    refine bind_eq_ok.mpr ⟨[], rfl, ?_⟩
    simp only [List.isEmpty_nil, if_true, List.append_nil, List.nil_append, List.length_nil]
    rfl
  have hitems : (callers indices arrays).items.code.toList.zipIdx =
      [(callerShared indices, 0)] := by
    change (ItemSet.insert ∅ (callerShared indices)).2.toList.zipIdx = _
    rw [ItemSet.toList_insert]
    rfl
  have hplace : (callers indices arrays).placeCode {} (.ofTarget (WriteOptions.target {}))
      (.empty .debugInfo 236) 236 (callerShared indices, 0) = .ok ⟨header.encode ++ out, 236⟩ := by
    have howner : (callers indices arrays).codeOwner? 0 = some callerId := rfl
    refine bind_eq_ok.mpr ⟨0, rfl, ?_⟩
    simp only [howner]
    exact within_eq_ok_iff.mpr hitem
  refine ⟨header.encode ++ out, ?_, ?_⟩
  · rw [List.length_append, hlength]
    rfl
  · rw [codeSection, hitems]
    exact bind_eq_ok.mpr ⟨_, bind_eq_ok.mpr ⟨_, hplace, rfl⟩, rfl⟩

theorem encodedArraySection_callers (harrays : arrays.toList = [callerValues]) (code : Bytes) :
    (callers indices arrays).encodedArraySection 320 = .ok (callerData code).encodedArrays := by
  have hstring : (callers indices arrays).resolver.string "m" = .ok 2 := string_callers (k := 2) rfl
  have hall : Value.encodeAll (callers indices arrays).resolver callerValues =
      .ok [0x16, 0, 0x17, 2, 0x15, 0] := by
    simp only [callerValues, Value.encodeAll, Value.encode, methodHandle_callers, hstring,
      proto_callers, ok_bind]
    cbv
  have hvalues : encodeArray (callers indices arrays).resolver callerValues =
      .ok [3, 0x16, 0, 0x17, 2, 0x15, 0] := bind_eq_ok.mpr ⟨_, hall, by cbv⟩
  have hlist : (callers indices arrays).items.encodedArrays.toList = [callerValues] := harrays
  rw [encodedArraySection, hlist]
  exact bind_eq_ok.mpr ⟨_, bind_eq_ok.mpr ⟨_, bind_eq_ok.mpr ⟨_, hvalues, rfl⟩, rfl⟩, rfl⟩

theorem classDataSection_callers (code : Bytes) :
    (callers indices arrays).classDataSection {} (callerData code).code 327 =
      .ok (callerData code).classData := by
  have hmethods : encodeMethods (callers indices arrays).resolver {} (callerData code).code 0
      [⟨callerMethod indices, callerId, some 0, none⟩] = .ok [0, 9, 0xec, 1] := by
    have haccess : storedAccess {} 9 0 = .ok 9 := rfl
    have hoffset : (callerData code).code.optionalOffset "code item" (some 0) = .ok 236 := rfl
    refine bind_eq_ok.mpr ⟨0, method_callers, bind_eq_ok.mpr ⟨9, within_eq_ok_iff.mpr haccess,
      bind_eq_ok.mpr ⟨236, hoffset, ?_⟩⟩⟩
    rw [show Bytes.uleb (0 - 0) = [0] by cbv, show Bytes.uleb 9 = [9] by cbv,
      show Bytes.uleb 236 = [0xec, 1] by cbv]
    rfl
  have hdata : encodeClassData (callers indices arrays).resolver {} (callerData code).code
      (callerEntry indices) = .ok [0, 0, 1, 0, 0, 9, 0xec, 1] := by
    have hcounts : Bytes.ulebNat 0 ++ Bytes.ulebNat 0 ++ Bytes.ulebNat 1 ++ Bytes.ulebNat 0 =
        [0, 0, 1, 0] := by cbv
    refine bind_eq_ok.mpr ⟨_, rfl, bind_eq_ok.mpr ⟨_, rfl, bind_eq_ok.mpr ⟨_, hmethods,
      bind_eq_ok.mpr ⟨_, rfl, ?_⟩⟩⟩⟩
    exact congrArg (fun counts => Except.ok (counts ++ [] ++ [] ++ [0, 9, 0xec, 1] ++ [])) hcounts
  have hplaced : (do
      let bytes ← (encodeClassData (callers indices arrays).resolver {} (callerData code).code
        (callerEntry indices)).within (toString (callerEntry indices).definition)
      return ⟨bytes, 327⟩ : Result Placed) = .ok ⟨[0, 0, 1, 0, 0, 9, 0xec, 1], 327⟩ := by
    rw [hdata]
    rfl
  exact bind_eq_ok.mpr ⟨_, bind_eq_ok.mpr ⟨_, hplaced, rfl⟩, rfl⟩

theorem data_callers (harrays : arrays.toList = [callerValues]) {code : Bytes}
    (hlength : code.length = 84) (hcode : (callers indices arrays).codeSection {}
      (.empty .debugInfo 236) 236 = .ok (callerData code).code) :
    (callers indices arrays).data {} 236 = .ok (callerData code) := by
  have hstop : (if (WriteOptions.version {}).isCompact then (callerData code).debugInfos.stop
      else (callerData code).code.stop) = 320 := by
    change 236 + (code ++ []).length = 320
    rw [List.append_nil, hlength]
  have hstrings : (callers indices arrays).stringSection 335 = .ok (callerData code).strings := by
    rw [stringSection, (toLists_callers indices arrays).1]
    cbv
  exact data_of_built {
    codeSections := bind_eq_ok.mpr ⟨_, rfl, bind_eq_ok.mpr ⟨_, hcode, rfl⟩⟩
    encodedArrays := hstop ▸ encodedArraySection_callers harrays code
    annotations := rfl
    annotationSets := rfl
    annotationSetLists := rfl
    directories := rfl
    typeLists := rfl
    classData := classDataSection_callers code
    strings := hstrings
    hiddenApi := rfl }

theorem exists_ids_callers (harrays : arrays.toList = [callerValues]) (code : Bytes) :
    ∃ ids, (callers indices arrays).encodeIds (callerData code) = .ok ids := by
  obtain ⟨-, htypeList, hprotoList, hmethodList, hhandleList, hsiteList⟩ :=
    toLists_callers indices arrays
  refine Encodable.exists_ids {
    types := ?_
    protos := ?_
    fields := List.forall_mem_nil _
    methods := ?_
    classes := List.forall_mem_singleton.mpr
      ⟨_, bind_eq_ok.mpr ⟨_, type_callers (k := 0) rfl, rfl⟩⟩
    callSites := ?_
    methodHandles := ?_ }
  · rw [htypeList]
    exact List.forall_mem_cons.mpr ⟨⟨_, bind_eq_ok.mpr ⟨_, string_callers (k := 0) rfl, rfl⟩⟩,
      List.forall_mem_singleton.mpr ⟨_, bind_eq_ok.mpr ⟨_, string_callers (k := 1) rfl, rfl⟩⟩⟩
  · have hshorty : ProtoId.shorty ⟨⟨"V"⟩, []⟩ = "V" := by cbv
    have hstring : (callers indices arrays).resolver.string (ProtoId.shorty ⟨⟨"V"⟩, []⟩) = .ok 1 :=
      hshorty ▸ string_callers (k := 1) rfl
    rw [hprotoList]
    exact List.forall_mem_singleton.mpr ⟨_, bind_eq_ok.mpr ⟨1, hstring, bind_eq_ok.mpr
      ⟨_, type_callers (k := 1) rfl, rfl⟩⟩⟩
  · rw [hmethodList]
    exact List.forall_mem_singleton.mpr ⟨_, bind_eq_ok.mpr ⟨_, type_callers (k := 0) rfl,
      bind_eq_ok.mpr ⟨_, proto_callers, bind_eq_ok.mpr ⟨_, string_callers (k := 2) rfl, rfl⟩⟩⟩⟩
  · have hid : (callers indices arrays).items.encodedArrays.id? callerValues = some 0 :=
      ItemSet.id?_eq_iff_getElem?.mpr (congrArg (·[0]?) harrays)
    rw [hsiteList]
    intro s hs
    obtain ⟨i, -, rfl⟩ := List.mem_map.mp hs
    refine ⟨Bytes.u4 320, bind_eq_ok.mpr ⟨320, ?_, rfl⟩⟩
    rw [show (numberedSite i).toValues = callerValues from rfl, hid]
    rfl
  · rw [hhandleList]
    exact List.forall_mem_singleton.mpr ⟨_, bind_eq_ok.mpr ⟨_, method_callers, rfl⟩⟩

theorem exists_encodeStandard_callers (hperm : indices.Perm byName)
    (harrays : arrays.toList = [callerValues]) :
    ∃ file, (callers indices arrays).encodeStandard {} 0 = .ok file := by
  obtain ⟨code, hlength, hcode⟩ := exists_codeSection_callers arrays hperm
  obtain ⟨ids, hids⟩ := exists_ids_callers harrays code
  have hstop : ((callers indices arrays).layout
      (0 + Header.sizeOf (WriteOptions.version {}))).stop = 236 := by
    obtain ⟨hstrings, htypes, hprotos, hmethods, hhandles, hsites⟩ := toLists_callers indices arrays
    have hfields : (callers indices arrays).pools.fields.toList = [] := rfl
    simp only [layout, ← ItemSet.length_toList, hstrings, htypes, hprotos, hfields, hmethods,
      hhandles, hsites]
    rfl
  have hstart : alignUp ((callers indices arrays).layout
      (0 + Header.sizeOf (WriteOptions.version {}))).stop mapAlignment = 236 := by
    rw [hstop]
    rfl
  have hbytes : ((callerData code).bytes false).length = 110 := by
    simp [Data.bytes, Data.sections, callerData, DataSection.bytes, DataSection.empty, hlength]
  exact exists_encodeStandard hstart (data_callers harrays hlength hcode) hids
    (by rw [hbytes]; decide)

end

/-! ### What is read -/

section
variable {arrays : ItemSet (List Value)}

theorem readSite_callers {indices : List Nat} {i k : Nat} (h : byName[k]? = some i) :
    (callers indices arrays).readSite (numberedSite i) = numberedSite k := by
  obtain ⟨-, -, -, -, -, hsites⟩ := toLists_callers indices arrays
  have hid : (callers indices arrays).pools.callSites.id? (numberedSite i) = some k :=
    ItemSet.id?_eq_iff_getElem?.mpr (by rw [hsites, List.getElem?_map, h]; rfl)
  rw [readSite, hid]
  rfl

/-- Code that runs through the call sites in the order of the pool is read with ascending ones. -/
theorem normal_callerCode : (callerCode byName).normal {} (callers byName arrays).readSite =
    callerCode (List.range 11) := by
  have hcalls : byName.map (Instruction.normal (callers byName arrays).readSite ∘ siteCall ∘
      numberedSite) = (List.range 11).map (siteCall ∘ numberedSite) := by
    refine List.ext_getElem? fun k => ?_
    rw [List.getElem?_map, List.getElem?_map]
    by_cases hk : k < 11
    · have hget : byName[k]? = some byName[k] := List.getElem?_eq_getElem hk
      rw [List.getElem?_range hk, hget]
      exact congrArg (some ∘ siteCall) (readSite_callers hget)
    · rw [List.getElem?_eq_none (show byName.length ≤ k from Nat.not_lt.mp hk),
        List.getElem?_eq_none (by simpa using hk)]
      rfl
  have hinstructions : (callerCode byName).instructions.map
      (Instruction.normal (callers byName arrays).readSite) =
        (callerCode (List.range 11)).instructions := by
    rw [callerCode, List.map_append, List.map_map, hcalls]
    rfl
  have htries : sortedBy (compareOn TryBlock.start) [] = [] := by cbv
  rw [Code.normal, hinstructions, show (callerCode byName).tries = [] from rfl, htries]
  rfl

theorem readAs_callerEntry (value : FieldDef → Option Value) :
    (callerEntry byName).readAs {} (callers byName arrays).readSite value =
      callerClass (List.range 11) := by
  have hset : AnnotationItem.normalSet [] = [] := by cbv
  have hflags : WriteOptions.flags {} 9 0 = (9, 0) := by cbv
  have hmethod : (callerMethod byName).readAs {} (callers byName arrays).readSite =
      ⟨"m", ⟨"V"⟩, [], (WriteOptions.flags {} 9 0).1, (WriteOptions.flags {} 9 0).2,
        some ((callerCode byName).normal {} (callers byName arrays).readSite),
          AnnotationItem.normalSet []⟩ := rfl
  have hclass : (callerEntry byName).readAs {} (callers byName arrays).readSite value =
      { callerClass byName with
        directMethods := [(callerMethod byName).readAs {} (callers byName arrays).readSite]
        annotations := AnnotationItem.normalSet [] } := rfl
  rw [hclass, hmethod, normal_callerCode, hflags, hset]
  rfl

end

end Contents

namespace Dex
open Contents

theorem wellFormed_callerClass (indices : List Nat) : (callerClass indices).WellFormed := by
  intro m hm c hc
  obtain rfl := List.mem_singleton.mp hm
  obtain rfl := Option.some.inj hc
  refine ⟨fun i hi => ?_, List.not_mem_nil⟩
  rcases List.mem_append.mp hi with hi | hi
  · obtain ⟨j, -, rfl⟩ := List.mem_map.mp hi
    exact ⟨show Format.f35c = Opcode.format ⟨220, by decide⟩ by decide +kernel, trivial⟩
  · obtain rfl := List.mem_singleton.mp hi
    exact ⟨by decide +kernel, trivial⟩

theorem typed_callerClass (indices : List Nat) : (callerClass indices).Typed := by
  intro rest hrest _ z hz
  exact absurd ((sortedBy_perm _ _).mem_iff.mp (hrest.mem hz)) List.not_mem_nil

theorem exists_encode_caller {indices : List Nat} (hperm : indices.Perm byName) :
    ∃ arrays bytes, ofDex {} ⟨[callerClass indices]⟩ = .ok (callers indices arrays) ∧
      encode {} ⟨[callerClass indices]⟩ = .ok bytes := by
  obtain ⟨arrays, harrays, hof⟩ := exists_ofDex_caller hperm
  obtain ⟨file, hfile⟩ := exists_encodeStandard_callers hperm harrays
  exact ⟨arrays, _, hof, map_eq_ok.mpr ⟨file, bind_eq_ok.mpr ⟨(), rfl, bind_eq_ok.mpr
    ⟨_, hof, hfile⟩⟩, rfl⟩⟩

/-- With eleven call sites, the one at index 2 goes to index 3. -/
theorem callSites_rewritten_eleven : ∃ bytes₀ bytes c f f',
    encode {} ⟨[callerClass byName]⟩ = .ok bytes₀ ∧
      DexFile.ofBytes {} bytes₀.toByteArray 0 = .ok f ∧
      f.dex = .ok ⟨[callerClass (List.range 11)]⟩ ∧ f.callSite 2 = .ok (numberedSite 2) ∧
      encode {} ⟨[callerClass (List.range 11)]⟩ = .ok bytes ∧
      ofDex {} ⟨[callerClass (List.range 11)]⟩ = .ok c ∧
      DexFile.ofBytes {} bytes.toByteArray 0 = .ok f' ∧
      c.resolver.callSite (numberedSite 2) = .ok 3 ∧ f'.callSite 3 = .ok (numberedSite 3) := by
  obtain ⟨arrays₀, bytes₀, hof₀, hbytes₀⟩ := exists_encode_caller (.refl byName)
  obtain ⟨arrays, bytes, hof, hbytes⟩ : ∃ arrays bytes,
      ofDex {} ⟨[callerClass (List.range 11)]⟩ = .ok (callers (List.range 11) arrays) ∧
        encode {} ⟨[callerClass (List.range 11)]⟩ = .ok bytes :=
    exists_encode_caller (by decide)
  have hformed : ∀ x ∈ [callerClass byName], x.WellFormed :=
    List.forall_mem_singleton.mpr (wellFormed_callerClass byName)
  have htyped : ∀ x ∈ [callerClass byName], x.Typed :=
    List.forall_mem_singleton.mpr (typed_callerClass byName)
  obtain ⟨-, -, -, -, hhandles, hpool⟩ := toLists_callers byName arrays₀
  have hm : ∀ m ∈ (callers byName arrays₀).pools.methodHandles.toList, m.IsConsistent := by
    rw [hhandles]
    exact List.forall_mem_singleton.mpr rfl
  obtain ⟨g₀, hg₀⟩ := fills_of_ofDex hof₀
  obtain ⟨f, hf, hdex⟩ :=
    exists_readAs_of_encode hbytes₀ hof₀ hm hformed (initial_of_typed hg₀ htyped)
  rw [show (callers byName arrays₀).classes = [callerEntry byName] from rfl, List.map_singleton,
    readAs_callerEntry] at hdex
  obtain ⟨c, f', hc, hf', hsites, hmoved, -⟩ :=
    callSites_rewritten hbytes₀ hof₀ hm hformed htyped hf hdex hbytes
  obtain rfl := Except.ok.inj (hof.symm.trans hc)
  have hread : f.callSite 2 = .ok (numberedSite 2) := by
    have hused : numberedSite 2 ∈ callSites ⟨[callerClass (List.range 11)]⟩ := by
      refine mem_callSites.mpr ⟨_, List.mem_singleton_self _, _, List.mem_singleton_self _, _, rfl,
        siteCall (numberedSite 2), List.mem_append_left _ ?_, List.mem_singleton_self _⟩
      exact List.mem_map_of_mem (by decide : 2 ∈ List.range 11)
    obtain ⟨i, hi⟩ := (hsites _).mp hused
    have hname := CallSite.nameOf_injective (DexFile.callSite_given hi).1
    rwa [show (2 : UInt32) = i from UInt32.toNat_inj.mp hname]
  have hsize : f.callSites.size = 11 := by
    obtain ⟨c₀, _, f₀, hc₀, hf₀, hholds⟩ := exists_file_of_encode hbytes₀
    obtain rfl := Except.ok.inj (hf.symm.trans hf₀)
    obtain rfl := Except.ok.inj (hof₀.symm.trans hc₀)
    rw [DexFile.callSites_size hholds, hpool]
    rfl
  obtain ⟨place, hrank, hresolved, hread'⟩ := hmoved 2 _ hread
  obtain rfl : place = 3 := by
    refine UInt32.toNat_inj.mp (hrank.trans ?_)
    rw [hsize]
    decide +kernel
  exact ⟨bytes₀, bytes, _, f, f', hbytes₀, hf, hdex, hread, hbytes, hof, hf', hresolved, hread'⟩

end Dex

end Dalvik
