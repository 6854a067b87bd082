import Dalvik.File.Encode
import Dalvik.Proofs.Gather.Classes
import Dalvik.Proofs.Order

/-!
# The order of the members of a class

Fields and methods are written in the order of their ids. How a class lists them makes no
difference to the file: sorting gives the same list, and nothing that is written looks at the
class itself again for more than what its outline tells.
-/
namespace Dalvik

/-- A class without its members. -/
def ClassDef.outline (x : ClassDef) : ClassDef :=
  { x with staticFields := [], instanceFields := [], directMethods := [], virtualMethods := [] }

/-- Two classes that list the same members in different orders. -/
structure ClassDef.Reordered (x y : ClassDef) : Prop where
  outline : x.outline = y.outline
  staticFields : x.staticFields.Perm y.staticFields
  instanceFields : x.instanceFields.Perm y.instanceFields
  directMethods : x.directMethods.Perm y.directMethods
  virtualMethods : x.virtualMethods.Perm y.virtualMethods

/-- Two files whose classes list the same members in different orders. -/
def Dex.Reordered (d d' : Dex) : Prop := List.Forall₂ ClassDef.Reordered d.classes d'.classes

/-- An entry that names its class without the members, which it has on its own. -/
def ClassEntry.outline (e : ClassEntry) : ClassEntry :=
  { e with definition := e.definition.outline }

def Contents.outline (c : Contents) : Contents :=
  { c with classes := c.classes.map ClassEntry.outline }

/-! ## Sorting has one result -/

namespace Gather

section
variable {α ι : Type} [Ord ι] {id : α → ι} {as bs : List α}

theorem map_fst_sortedMembers (id : α → ι) (as : List α) :
    (sortedMembers id as).map Prod.fst = sortedBy compare (as.map id) := by
  have hsorted : (sortedMembers id as).map Prod.fst =
      sortedBy (byKey compare fun i => i) ((as.map fun m => (id m, m)).map Prod.fst) :=
    map_sortedBy _ fun _ _ => rfl
  rw [hsorted, List.map_map]
  rfl

variable [Std.TransOrd ι] [Std.LawfulEqOrd ι]

/-- The ids of members do not tell how the members were listed, even if one is repeated. -/
theorem map_fst_sortedMembers_eq (id : α → ι) (h : as.Perm bs) :
    (sortedMembers id as).map Prod.fst = (sortedMembers id bs).map Prod.fst := by
  rw [map_fst_sortedMembers, map_fst_sortedMembers]
  exact sortedBy_eq_of_perm (h.map id) fun _ _ _ _ => Std.LawfulEqCmp.eq_of_compare

theorem sortedMembers_eq_of_perm (h : as.Perm bs)
    (hids : ((sortedMembers id as).map Prod.fst).Nodup) :
    sortedMembers id as = sortedMembers id bs := by
  rw [map_fst_sortedMembers, (sortedBy_perm _ _).nodup_iff] at hids
  have hkeys : ((as.map fun m => (id m, m)).map Prod.fst).Nodup := by rwa [List.map_map]
  exact sortedBy_eq_of_perm (h.map _) fun a ha b hb hab =>
    List.inj_on_of_nodup_map hkeys ha hb (byKey_eq_eq_iff.mp hab)

end

/-! ## The entry of a class -/

section
variable {α β : Type}

/-- A step that is bound to fail does not need the steps behind it. -/
theorem bind_liftM_error (e : Error) (next : α → Gather β) :
    (liftM (Except.error e : Result α) : Gather α) >>= next = liftM (Except.error e : Result β) :=
  rfl

theorem map_ite (f : α → β) (p : Prop) [Decidable p] (s t : Gather α) :
    f <$> (if p then s else t) = if p then f <$> s else f <$> t :=
  apply_ite (f <$> ·) p s t

theorem map_within (f : α → β) (place : String) (step : Gather α) :
    f <$> within place step = within place (f <$> step) := by
  funext g
  change Result.within place (step g) >>= _ = Result.within place (step g >>= _)
  cases step g <;> rfl

end

theorem map_id_entries (members : List (FieldId × FieldDef)) :
    (members.map fun (id, definition) => (⟨definition, id⟩ : FieldEntry)).map FieldEntry.id =
      members.map Prod.fst :=
  List.map_map

/-- The entries of two classes with the same members differ only in the classes that they name. -/
theorem outline_classEntry (o : WriteOptions) {x y : ClassDef} (h : x.Reordered y) :
    ClassEntry.outline <$> classEntry o x = ClassEntry.outline <$> classEntry o y := by
  obtain ⟨htype, -, hsuper, hinterfaces, hfile, -, -, -, -, hannotations⟩ :=
    ClassDef.mk.inj h.outline
  have hfield : x.fieldId = y.fieldId := funext fun f => congrArg (FieldId.mk · f.name f.type) htype
  have hmethod : x.methodId = y.methodId :=
    funext fun m => congrArg (MethodId.mk · m.name m.proto) htype
  have hfields := congrArg₂ (· ++ ·) (map_fst_sortedMembers_eq y.fieldId h.staticFields)
    (map_fst_sortedMembers_eq y.fieldId h.instanceFields)
  have hmethods := congrArg₂ (· ++ ·) (map_fst_sortedMembers_eq y.methodId h.directMethods)
    (map_fst_sortedMembers_eq y.methodId h.virtualMethods)
  -- the same members are repeated on both sides, and without any sorting has one result
  cases hdistinct : checkDistinct "field" ((sortedMembers y.fieldId y.staticFields).map Prod.fst ++
      (sortedMembers y.fieldId y.instanceFields).map Prod.fst) with
  | error e =>
    simp only [classEntry, htype, hsuper, hinterfaces, hfile, hfield, List.map_append,
      map_id_entries, hfields, hdistinct, bind_liftM_error]
  | ok _ =>
    cases hdistinct' : checkDistinct "method"
        ((sortedMembers y.methodId y.directMethods).map Prod.fst ++
          (sortedMembers y.methodId y.virtualMethods).map Prod.fst) with
    | error e =>
      simp only [classEntry, htype, hsuper, hinterfaces, hfile, hfield, hmethod, List.map_append,
        map_id_entries, hfields, hmethods, hdistinct', bind_liftM_error]
    | ok _ =>
      have hf := hfields ▸ nodup_of_checkDistinct hdistinct
      have hm := hmethods ▸ nodup_of_checkDistinct hdistinct'
      simp only [classEntry, htype, hsuper, hinterfaces, hfile, hannotations, hfield, hmethod,
        sortedMembers_eq_of_perm h.staticFields hf.of_append_left,
        sortedMembers_eq_of_perm h.instanceFields hf.of_append_right,
        sortedMembers_eq_of_perm h.directMethods hm.of_append_left,
        sortedMembers_eq_of_perm h.virtualMethods hm.of_append_right,
        map_bind, map_ite, map_pure, ClassEntry.outline, h.outline]

/-- The entries of the classes of two files likewise. -/
theorem outline_classEntries (o : WriteOptions) {xs ys : List ClassDef}
    (h : List.Forall₂ ClassDef.Reordered xs ys) (seen : ItemSet TypeId) :
    List.map ClassEntry.outline <$> classEntries o seen xs =
      List.map ClassEntry.outline <$> classEntries o seen ys := by
  induction h generalizing seen with
  | nil => rfl
  | @cons x y xs ys hxy _ ih =>
    have htype : x.type = y.type := (ClassDef.mk.inj hxy.outline).1
    have hname : toString x = toString y := congrArg (fun t => s!"class {t}") htype
    have hmap (c : ClassDef) (cs : List ClassDef) : List.map ClassEntry.outline <$> (do
        let entry ← within (toString c) (classEntry o c)
        return entry :: (← classEntries o (seen.insert c.type).2 cs)) = (do
        let entry ← within (toString c) (ClassEntry.outline <$> classEntry o c)
        return entry ::
          (← List.map ClassEntry.outline <$> classEntries o (seen.insert c.type).2 cs)) := by
      simp only [← map_within, map_bind, bind_map_left, map_pure, List.map_cons]
    have hrest := hmap x xs
    rw [hname, outline_classEntry o hxy, htype, ih, ← hmap y ys] at hrest
    rw [classEntries, classEntries, hname, htype]
    split
    · rfl
    · exact hrest

end Gather

/-! ## What is written for the outlines -/

theorem Placed.all_map {α β : Type} (f : α → β) (place : Nat → β → Result Placed) (position : Nat)
    (as : List α) :
    Placed.all place position (as.map f) = Placed.all (fun p a => place p (f a)) position as := by
  induction as generalizing position with
  | nil => rfl
  | cons a as ih => simp only [List.map_cons, Placed.all, ih]

namespace Contents

variable (c : Contents) (o : WriteOptions)

theorem methods_outline :
    c.outline.classes.flatMap ClassEntry.methods = c.classes.flatMap ClassEntry.methods :=
  List.flatMap_map _ _ _

theorem codeSection_outline (debug : DataSection) (start : Nat) :
    c.outline.codeSection o debug start = c.codeSection o debug start := by
  have howner : c.outline.codeOwner? = c.codeOwner? :=
    funext fun id => by rw [codeOwner?, codeOwner?, methods_outline]
  have hplace (table : OpcodeTable) : c.outline.placeCode o table = c.placeCode o table := by
    unfold placeCode
    rw [howner]
    rfl
  rw [codeSection, codeSection, hplace]
  rfl

theorem classDataSection_outline (code : DataSection) (start : Nat) :
    c.outline.classDataSection o code start = c.classDataSection o code start := by
  simp only [classDataSection, DataSection.build, outline, Placed.all_map]
  rfl

theorem hiddenApiSection_outline (start : Nat) :
    c.outline.hiddenApiSection o start = c.hiddenApiSection o start := by
  unfold hiddenApiSection
  rw [outline, List.map_map]
  rfl

/-- The data of a file depends on the outlines of its classes only. -/
theorem data_outline (start : Nat) : c.outline.data o start = c.data o start := by
  have hcode (start : Nat) : c.outline.codeSections o start = c.codeSections o start := by
    simp only [codeSections, codeSection_outline]
    rfl
  simp only [data, hcode, classDataSection_outline, hiddenApiSection_outline]
  rfl

theorem layout_outline (start : Nat) : c.outline.layout start = c.layout start := by
  unfold layout
  rw [outline, List.length_map]

theorem encodeIds_outline (d : Data) : c.outline.encodeIds d = c.encodeIds d := by
  unfold encodeIds
  rw [show c.outline.classes = c.classes.map ClassEntry.outline from rfl, List.zipIdx_map,
    List.mapM_map]
  rfl

theorem debugOffsets_outline (d : Data) : c.outline.debugOffsets d = c.debugOffsets d := by
  unfold debugOffsets
  rw [methods_outline]
  rfl

theorem mapOf_outline (headerOffset : Nat) (l : IdLayout) (d : Data) (offset : Nat) :
    c.outline.mapOf o headerOffset l d offset = c.mapOf o headerOffset l d offset := by
  unfold mapOf idMapItems
  rw [show c.outline.classes.length = c.classes.length from List.length_map _]
  rfl

theorem headerOf_outline (v : Version) (l : IdLayout) (mapOffset : Nat) :
    c.outline.headerOf v l mapOffset = c.headerOf v l mapOffset := by
  unfold headerOf
  rw [show c.outline.classes.length = c.classes.length from List.length_map _]
  rfl

theorem encodeCompact_outline : c.outline.encodeCompact o = c.encodeCompact o := by
  simp only [encodeCompact, layout_outline, data_outline, encodeIds_outline, mapOf_outline,
    debugOffsets_outline, headerOf_outline]

theorem encodeStandard_outline (headerOffset : Nat) :
    c.outline.encodeStandard o headerOffset = c.encodeStandard o headerOffset := by
  simp only [encodeStandard, layout_outline, data_outline, encodeIds_outline, mapOf_outline,
    headerOf_outline]

variable {o} {d d' : Dex}

/-- The contents of two files with the same members differ only in the classes that are named. -/
theorem outline_ofDex (h : d.Reordered d') : outline <$> ofDex o d = outline <$> ofDex o d' := by
  have hclasses := congrFun (Gather.outline_classEntries o h ∅) {}
  have hofDex (d : Dex) : outline <$> ofDex o d = (do
      let found ← (List.map ClassEntry.outline <$> Gather.classEntries o ∅ d.classes) {}
      let g ← found.2.settleAll
      return { pools := ← g.toPools, items := g.items, classes := found.1 }) := by
    have hmap : (List.map ClassEntry.outline <$> Gather.classEntries o ∅ d.classes) {} =
        Gather.classEntries o ∅ d.classes {} >>= fun p =>
          pure (p.1.map ClassEntry.outline, p.2) := rfl
    simp only [ofDex, map_bind, map_pure, hmap, bind_assoc, pure_bind, outline]
  rw [hofDex, hofDex, hclasses]

end Contents

/-! ## The file -/

namespace Dex
variable {o : WriteOptions} {d d' : Dex}

theorem encodeUnsigned_reordered (h : d.Reordered d') (headerOffset : Nat) :
    d'.encodeUnsigned o headerOffset = d.encodeUnsigned o headerOffset := by
  have houtline (d : Dex) : d.encodeUnsigned o headerOffset = (do
      o.validate
      let c ← Contents.outline <$> Contents.ofDex o d
      if o.version.isCompact then c.encodeCompact o else c.encodeStandard o headerOffset) := by
    simp only [encodeUnsigned, bind_map_left, Contents.encodeCompact_outline,
      Contents.encodeStandard_outline]
  rw [houtline, houtline, Contents.outline_ofDex h]

theorem encodeFrom_reordered {files files' : List Dex} (h : List.Forall₂ Reordered files files')
    (index headerOffset : Nat) :
    encodeFrom o index headerOffset files' = encodeFrom o index headerOffset files := by
  induction h generalizing index headerOffset with
  | nil => rfl
  | cons hd _ ih => simp only [encodeFrom, encodeUnsigned_reordered hd, ih]

/-- The order of the members of classes makes no difference to a container. -/
theorem encodeContainer_reordered {files files' : List Dex}
    (h : List.Forall₂ Reordered files files') :
    encodeContainer o files' = encodeContainer o files := by
  have hempty : files'.isEmpty = files.isEmpty := by cases h <;> rfl
  simp only [encodeContainer, encodeFrom_reordered h, hempty]

/-- The order in which the classes of a file list their fields and methods makes no difference to
the result of writing it: neither to the bytes nor to the error. -/
theorem encode_reordered (o : WriteOptions) (h : d.Reordered d') : d'.encode o = d.encode o := by
  rw [encode, encode, encodeContainer_reordered (.cons h .nil), encodeUnsigned_reordered h]

/-- A class with two static fields, one of them with a value, in the order that is given. -/
def listing (first second : FieldDef) : Dex :=
  ⟨[{ type := ⟨"LA;"⟩, staticFields := [first, second] }]⟩

theorem encode_reordered_listing :
    let number : FieldDef := { name := "b", type := ⟨"I"⟩, access := 8 }
    let wide : FieldDef := { name := "a", type := ⟨"J"⟩, access := 8, value := some (.long 1) }
    (listing number wide).Reordered (listing wide number) ∧
      (listing wide number).encode {} = (listing number wide).encode {} := by
  intro number wide
  have h : (listing number wide).Reordered (listing wide number) :=
    .cons ⟨rfl, .swap wide number [], .refl _, .refl _, .refl _⟩ .nil
  exact ⟨h, encode_reordered {} h⟩

end Dex

end Dalvik
