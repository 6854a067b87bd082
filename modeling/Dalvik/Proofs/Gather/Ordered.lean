import Dalvik.Proofs.Gather.Keeps

/-!
# Sets and directories are stored in order

These two kinds of items are added for classes and their members alone, so nothing that is referred
to has to be looked at.
-/
namespace Dalvik
open Result

/-- The sets and the directories are in order. -/
structure SharedItems.Ordered (s : SharedItems) : Prop where
  sets : ∀ set ∈ s.annotationSets.toList, AnnotationItem.Ascending set
  directories : ∀ d ∈ s.directories.toList, d.Distinct

namespace Gathered

variable {g g' : Gathered}

def Ordered (g : Gathered) : Prop := g.items.Ordered

/-- What is stored for classes and their members alone. -/
def ofClasses (g : Gathered) : ItemSet (List AnnotationItem) × ItemSet AnnotationDirectory :=
  (g.items.annotationSets, g.items.directories)

theorem Ordered.of_eq (hg : g.Ordered) (h : g'.ofClasses = g.ofClasses) : g'.Ordered := by
  obtain ⟨hsets, hdirectories⟩ := Prod.mk.inj h
  exact ⟨hsets ▸ hg.sets, hdirectories ▸ hg.directories⟩

theorem blind_ofClasses : Blind ofClasses where
  strings _ _ := rfl
  types _ _ := rfl
  protos _ _ := rfl
  fields _ _ := rfl
  methods _ _ := rfl
  typeLists _ _ := rfl
  encodedArrays _ _ := rfl

theorem ofClasses_add (g : Gathered) (r : Reference) : (g.add r).ofClasses = g.ofClasses := by
  cases r with
  | callSite c => rfl
  | methodHandle h => exact blind_ofClasses.addMethodHandle g h
  | string _ | type _ | field _ | method _ | proto _ | raw _ =>
    exact blind_ofClasses.add_of_isPlain g trivial

theorem ofClasses_addAll (references : List Reference) (g : Gathered) :
    (g.addAll references).ofClasses = g.ofClasses := by
  induction references generalizing g with
  | nil => rfl
  | cons r references ih => exact (ih _).trans (ofClasses_add g r)

theorem ofClasses_settle {d : Deferred} (h : g.settle d = .ok g') :
    g'.ofClasses = g.ofClasses := by
  cases d with
  | value v =>
    obtain ⟨_, -, h⟩ := bind_eq_ok.mp h
    obtain rfl := pure_eq_ok.mp h
    exact ofClasses_addAll _ g
  | annotated a =>
    obtain ⟨_, -, h⟩ := bind_eq_ok.mp h
    obtain rfl := pure_eq_ok.mp h
    exact ofClasses_addAll _ g
  | callSite c =>
    obtain ⟨_, -, h⟩ := bind_eq_ok.mp h
    obtain rfl := pure_eq_ok.mp h
    rw [ofClasses_addAll, blind_ofClasses.addCallSite, blind_ofClasses.addMethodHandle]
    rfl

theorem Ordered.settleAll (hg : g.Ordered) (h : g.settleAll = .ok g') : g'.Ordered := by
  have hstart : Ordered { g with deferred := [] } := hg
  exact foldlM_induction (I := Ordered) (f := settle)
    (fun _ _ _ _ hg hd => hg.of_eq (ofClasses_settle hd)) hstart h

/-- References are free, and what is stored is in order. -/
theorem kept_ordered : Gather.Kept (fun _ => True) Ordered where
  add _ hg := hg.of_eq (ofClasses_add _ _)
  defer _ hg := hg.of_eq rfl
  put {g p} hp hg := by
    cases p with
    | reference | debugAt | nesting => exact hp.elim
    | annotationSet set =>
      refine ⟨fun x hx => ?_, hg.directories⟩
      rcases ItemSet.mem_toList_insert.mp hx with hx | rfl
      · exact hg.sets x hx
      · exact hp
    | directory d =>
      refine ⟨hg.sets, fun x hx => ?_⟩
      rcases ItemSet.mem_toList_insert.mp hx with hx | rfl
      · exact hg.directories x hx
      · exact hp
    | typeList | encodedArray | annotationItem | annotationSetList | code | debugInfo =>
      exact hg.of_eq rfl

end Gathered

theorem ClassDef.refersOnly_true (x : ClassDef) : x.RefersOnly fun _ => True where
  fields _ _ := ⟨fun _ _ _ _ => trivial, fun _ _ _ _ => trivial⟩
  methods _ _ := ⟨fun _ _ _ _ _ _ => trivial, fun _ _ _ _ _ _ => trivial, fun _ _ _ _ => trivial⟩
  annotations _ _ _ _ := trivial

/-- The items of a file are in order. -/
theorem Contents.ordered_of_ofDex {o : WriteOptions} {d : Dex} {c : Contents}
    (h : ofDex o d = .ok c) : c.items.Ordered := by
  obtain ⟨⟨es, g₁⟩, hes, h⟩ := bind_eq_ok.mp h
  obtain ⟨g, hg, h⟩ := bind_eq_ok.mp h
  obtain ⟨_, -, h⟩ := bind_eq_ok.mp h
  obtain rfl := pure_eq_ok.mp h
  have hordered := (Gather.classEntries_keeps Gathered.kept_ordered o ∅
    (fun x _ => x.refersOnly_true) {} es g₁ ⟨nofun, nofun⟩ hes).1
  exact Gathered.Ordered.settleAll hordered hg

end Dalvik
