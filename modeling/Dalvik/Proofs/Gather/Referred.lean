import Dalvik.Proofs.File.Uses
import Dalvik.Proofs.Gather.Keeps

/-!
# Call sites and method handles in the pools

They come into the pools because something refers to them: the code or a value of a class, or a call
site that is in the pools itself. So the pool of call sites holds those of the code and no others.
-/
namespace Dalvik
open Result

/-! ## The call sites of classes -/

def Reference.callSite? : Reference → Option CallSite
  | .callSite s => some s
  | _ => none

/-- The call sites that the instructions refer to. -/
def Code.callSites (c : Code) : List CallSite :=
  c.instructions.flatMap fun i => i.references.filterMap Reference.callSite?

/-- The call sites that the code of the classes refers to, one for each reference. -/
def Dex.callSites (d : Dex) : List CallSite :=
  d.classes.flatMap fun x => x.methods.flatMap fun m => m.code.toList.flatMap Code.callSites

theorem Reference.callSite?_eq_some_iff {r : Reference} {s : CallSite} :
    r.callSite? = some s ↔ r = .callSite s := by
  cases r <;> simp [callSite?]

theorem Dex.mem_callSites {d : Dex} {s : CallSite} : s ∈ d.callSites ↔
    ∃ x ∈ d.classes, ∃ m ∈ x.methods, ∃ c ∈ m.code, ∃ i ∈ c.instructions,
      .callSite s ∈ i.references := by
  simp [callSites, Code.callSites, Reference.callSite?_eq_some_iff]

namespace Gathered

variable {R : Reference → Prop} {g g' : Gathered}

/-- Whatever has been found or set aside is among the references. -/
structure Only (R : Reference → Prop) (g : Gathered) : Prop where
  callSites : ∀ s ∈ g.callSites.toList, R (.callSite s)
  methodHandles : ∀ h ∈ g.methodHandles.toList, R (.methodHandle h)
  deferred : ∀ d ∈ g.deferred, ∀ r ∈ d.references, R r

/-- What more has been found than names, types and members. -/
def found (g : Gathered) : ItemSet CallSite × ItemSet MethodHandle × List Deferred :=
  (g.callSites, g.methodHandles, g.deferred)

theorem blind_found : Blind found where
  strings _ _ := rfl
  types _ _ := rfl
  protos _ _ := rfl
  fields _ _ := rfl
  methods _ _ := rfl
  typeLists _ _ := rfl
  encodedArrays _ _ := rfl

namespace Only

theorem of_eq (hg : g.Only R) (h : g'.found = g.found) : g'.Only R := by
  obtain ⟨hsites, h⟩ := Prod.mk.inj h
  obtain ⟨hhandles, hdeferred⟩ := Prod.mk.inj h
  exact ⟨hsites ▸ hg.callSites, hhandles ▸ hg.methodHandles, hdeferred ▸ hg.deferred⟩

theorem defer (hg : g.Only R) {d : Deferred} (hd : ∀ r ∈ d.references, R r) :
    (g.defer d).Only R where
  callSites := hg.callSites
  methodHandles := hg.methodHandles
  deferred := List.forall_mem_cons.mpr ⟨hd, hg.deferred⟩

theorem addMethodHandle (hg : g.Only R) {h : MethodHandle} (hh : R (.methodHandle h)) :
    (g.addMethodHandle h).Only R := by
  refine of_eq (g := { g with methodHandles := (g.methodHandles.insert h).2 }) ?_
    (blind_found.addMethodHandle g h)
  refine ⟨hg.callSites, fun x hx => ?_, hg.deferred⟩
  rcases ItemSet.mem_toList_insert.mp hx with hx | rfl
  · exact hg.methodHandles x hx
  · exact hh

theorem add (hg : g.Only R) {r : Reference} (hr : r.IsPlain ∨ R r) : (g.add r).Only R := by
  by_cases hplain : r.IsPlain
  · exact hg.of_eq (blind_found.add_of_isPlain g hplain)
  · have hr := hr.resolve_left hplain
    cases r with
    | callSite s => exact hg.defer fun r h => List.mem_singleton.mp h ▸ hr
    | methodHandle h => exact hg.addMethodHandle hr
    | string _ | type _ | field _ | method _ | proto _ | raw _ => exact absurd trivial hplain

theorem addAll {references : List Reference} (h : ∀ r ∈ references, R r) (hg : g.Only R) :
    (g.addAll references).Only R := by
  induction references generalizing g with
  | nil => exact hg
  | cons r references ih =>
    obtain ⟨hr, hrest⟩ := List.forall_mem_cons.mp h
    exact ih hrest (hg.add (.inr hr))

section
variable (hclosed : ∀ s : CallSite, R (.callSite s) → ∀ r ∈ Value.referencesAll s.toValues, R r)
include hclosed

/-- A call site brings its method handle and what its arguments refer to. -/
theorem settle (hg : g.Only R) {d : Deferred} (hd : ∀ r ∈ d.references, R r)
    (h : g.settle d = .ok g') : g'.Only R := by
  cases d with
  | value v =>
    obtain ⟨_, -, h⟩ := bind_eq_ok.mp h
    obtain rfl := pure_eq_ok.mp h
    exact hg.addAll hd
  | annotated a =>
    obtain ⟨_, -, h⟩ := bind_eq_ok.mp h
    obtain rfl := pure_eq_ok.mp h
    exact hg.addAll hd
  | callSite s =>
    obtain ⟨_, -, h⟩ := bind_eq_ok.mp h
    obtain rfl := pure_eq_ok.mp h
    have hs : R (.callSite s) := hd _ (List.mem_singleton_self _)
    have hvalues := hclosed s hs
    simp only [CallSite.toValues, Value.referencesAll, Value.references, List.mem_append] at hvalues
    have hsite : Only R { g with callSites := (g.callSites.insert s).2 } := by
      refine ⟨fun x hx => ?_, hg.methodHandles, hg.deferred⟩
      rcases ItemSet.mem_toList_insert.mp hx with hx | rfl
      · exact hg.callSites x hx
      · exact hs
    have hhandle := hsite.addMethodHandle (hvalues _ (.inr (List.mem_singleton_self _)))
    refine addAll (fun r hr => hvalues r (.inl (.inl (.inl hr)))) ?_
    exact hhandle.of_eq (blind_found.addCallSite g s)

theorem settleAll (hg : g.Only R) (h : g.settleAll = .ok g') : g'.Only R := by
  have hstart : Only R { g with deferred := [] } := ⟨hg.callSites, hg.methodHandles, nofun⟩
  refine foldlM_induction (I := Only R) (f := Gathered.settle) (fun d hd _ _ hb hrun => ?_) hstart h
  exact hb.settle hclosed (hg.deferred d hd) hrun

end
end Only

theorem kept_only (R : Reference → Prop) : Gather.Kept R (Only R) where
  add hr hg := hg.add hr
  defer hd hg := hg.defer hd
  put {g p} hp hg := by
    cases p with
    | reference | debugAt | nesting => exact hp.elim
    | _ => exact hg.of_eq rfl

end Gathered

theorem Gathered.Places.has {g : Gathered} {p : Part} {id : Option Nat}
    (h : g.Places (some p) id) : g.Has p := by
  cases id with
  | none => exact h.elim
  | some id => exact ⟨id, h⟩

namespace Contents

variable {o : WriteOptions} {d : Dex} {c : Contents}

/-- The pools of call sites and of method handles hold what the classes refer to, and what that
refers to. -/
theorem only_of_ofDex {R : Reference → Prop} (h : ofDex o d = .ok c)
    (hd : ∀ x ∈ d.classes, x.RefersOnly R)
    (hclosed : ∀ s : CallSite, R (.callSite s) → ∀ r ∈ Value.referencesAll s.toValues, R r) :
    (∀ s ∈ c.pools.callSites.toList, R (.callSite s)) ∧
      ∀ m ∈ c.pools.methodHandles.toList, R (.methodHandle m) := by
  obtain ⟨⟨es, g₁⟩, hes, h⟩ := bind_eq_ok.mp h
  obtain ⟨g, hg, h⟩ := bind_eq_ok.mp h
  obtain ⟨pools, hpools, h⟩ := bind_eq_ok.mp h
  obtain rfl := pure_eq_ok.mp h
  have hempty : Gathered.Only R {} := ⟨nofun, nofun, nofun⟩
  have hclasses := (Gather.classEntries_keeps (Gathered.kept_only R) o ∅ hd {} es g₁ hempty hes).1
  have honly := hclasses.settleAll hclosed hg
  rw [Pools.eq_of_build hpools]
  exact ⟨fun s hs => honly.callSites s (Pools.mem_pool.mp hs),
    fun m hm => honly.methodHandles m (Pools.mem_pool.mp hm)⟩

/-- Classes refer to the call sites of their own code. -/
theorem refersOnly_callSites {x : ClassDef} (hx : x ∈ d.classes) :
    x.RefersOnly fun r => ∀ s, r = .callSite s → s ∈ d.callSites := by
  have annotated (annotations : List AnnotationItem) : AnnotationItem.RefersOnly
      (fun r => ∀ s, r = .callSite s → s ∈ d.callSites) annotations := by
    rintro a - _ hr s rfl
    exact absurd hr (a.value.callSite_notMem_references s)
  refine ⟨fun f _ => ⟨?_, annotated _⟩, fun m hm => ⟨?_, fun _ _ => annotated _, annotated _⟩,
    annotated _⟩
  · rintro v - _ hr s rfl
    exact absurd hr (v.callSite_notMem_references s)
  · rintro code hcode i hi _ hr s rfl
    exact Dex.mem_callSites.mpr ⟨x, hx, m, hm, code, hcode, i, hi, hr⟩

/-- The pool of call sites holds those that the code refers to. -/
theorem mem_callSites_iff (h : ofDex o d = .ok c) {s : CallSite} :
    s ∈ c.pools.callSites.toList ↔ s ∈ d.callSites := by
  constructor
  · intro hs
    refine (only_of_ofDex h (fun x hx => refersOnly_callSites hx) ?_).1 s hs s rfl
    rintro s - _ hr t rfl
    exact absurd hr (Value.callSite_notMem_referencesAll _ t)
  · intro hs
    obtain ⟨x, hx, m, hm, code, hcode, i, hi, hr⟩ := Dex.mem_callSites.mp hs
    obtain ⟨g, hg⟩ := fills_of_ofDex h
    obtain ⟨e, -, hold⟩ := exists_left_of_mem hg.classes.flip hx
    obtain ⟨_, _, _, hmembers, -⟩ := hold.members
    obtain ⟨y, sets, -, hmethod⟩ := hmembers.exists_entry hm
    have hplaces := hmethod.code
    rw [MethodDef.sharedCode, Option.mem_def.mp hcode] at hplaces
    have hsite : g.Has (.reference (.callSite s)) := by
      refine hg.has hplaces.has (List.mem_append_left _ (List.mem_map_of_mem ?_))
      exact List.mem_append_left _ (List.mem_flatMap.mpr ⟨i, hi, hr⟩)
    rw [Pools.eq_of_build hg.pools]
    exact Pools.mem_pool.mpr (ItemSet.mem_toList_iff.mpr hsite)

end Contents

end Dalvik
