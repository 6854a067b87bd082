import Dalvik.Proofs.Placement.Methods

/-!
# Classes of two files with the same contents

Members are read in lock step: the restrictions stand at places of their own in both files, and the
offsets of code differ. Whatever classes are read from the one file are read from the other one too.
-/
namespace Dalvik
open Result

namespace DexFile

/-! ## Steps that read a member in both files -/

/-- At places of the two files that keep the restrictions and any others, whatever the first step
gives the second one gives too, and both leave the others. -/
def MemberFollows (f f' : DexFile) (o : WriteOptions) {α : Type} (step step' : MemberDecoder α)
    (restrictions : List UInt32) (part part' : Bytes) : Prop :=
  ∀ place place' others, f.Keeps o place (restrictions ++ others) →
    f'.Keeps o place' (restrictions ++ others) →
    Decoder.Follows (fun x y => y.1 = x.1 ∧ f.Keeps o x.2 others ∧ f'.Keeps o y.2 others)
      (step place) (step' place') part part'

namespace MemberFollows

variable {f f' : DexFile} {o : WriteOptions} {α β γ : Type} {step step' : MemberDecoder α}
  {next next' : α → MemberDecoder β} {restrictions more : List UInt32}
  {part part' rest rest' : Bytes} {a a' : α} {b : β}

theorem pure (a : α) : f.MemberFollows f' o (Pure.pure a) (Pure.pure a) [] [] [] :=
  fun _ _ _ h h' => .pure ⟨rfl, h, h'⟩

theorem bind (hs : f.MemberFollows f' o step step' restrictions part part')
    (hn : ∀ a, f.MemberFollows f' o (next a) (next' a) more rest rest') :
    f.MemberFollows f' o (step >>= next) (step' >>= next') (restrictions ++ more) (part ++ rest)
      (part' ++ rest') := by
  intro place place' others h h'
  rw [List.append_assoc] at h h'
  refine (hs place place' _ h h').bind ?_
  rintro ⟨a, between⟩ ⟨_, between'⟩ ⟨rfl, hbetween, hbetween'⟩
  exact hn _ between between' others hbetween hbetween'

theorem map {k : α → β} (hs : f.MemberFollows f' o step step' restrictions part part') :
    f.MemberFollows f' o (step >>= fun a => Pure.pure (k a)) (step' >>= fun a => Pure.pure (k a))
      restrictions part part' := by
  simpa using hs.bind fun a => pure (k a)

/-- What is known of both steps. -/
theorem reads_bind {step : MemberDecoder α} {step' : MemberDecoder γ} {next : α → MemberDecoder β}
    {next' : γ → MemberDecoder β} {a : α} {a' : γ} (hs : f.MemberReads o step restrictions part a)
    (hs' : f'.MemberReads o step' restrictions part' a')
    (hn : f.MemberFollows f' o (next a) (next' a') more rest rest') :
    f.MemberFollows f' o (step >>= next) (step' >>= next') (restrictions ++ more) (part ++ rest)
      (part' ++ rest') := by
  intro place place' others h h'
  rw [List.append_assoc] at h h'
  obtain ⟨between, hbetween, hread⟩ := hs place _ h
  obtain ⟨between', hbetween', hread'⟩ := hs' place' _ h'
  exact .reads_bind hread hread' (hn between between' others hbetween hbetween')

/-- A step of the file that is no member. -/
theorem reads_lift {d : Decoder α} {d' : Decoder γ} {next : α → MemberDecoder β}
    {next' : γ → MemberDecoder β} {a : α} {a' : γ} (hd : d.Reads part a) (hd' : d'.Reads part' a')
    (hn : f.MemberFollows f' o (next a) (next' a') more rest rest') :
    f.MemberFollows f' o (liftM d >>= next) (liftM d' >>= next') more (part ++ rest)
      (part' ++ rest') :=
  fun place place' others h h' =>
    .reads_bind (hd.map (g := fun a => (a, place))) (hd'.map (g := fun a => (a, place')))
      (hn place place' others h h')

/-- A result that is the same if there is one. -/
theorem lift_eq {r r' : Result α} (hr : ∀ a, r = .ok a → r' = .ok a)
    (hn : ∀ a, f.MemberFollows f' o (next a) (next' a) more rest rest') :
    f.MemberFollows f' o (liftM r >>= next) (liftM r' >>= next') more rest rest' := by
  intro place place' others h h'
  have hlift : Decoder.Follows (fun x y => x.2 = place ∧ y = (x.1, place'))
      ((liftM r : Decoder α) >>= fun a => Pure.pure (a, place))
      ((liftM r' : Decoder α) >>= fun a => Pure.pure (a, place')) [] [] :=
    .lift_eq hr fun a => .pure ⟨rfl, rfl⟩
  refine hlift.bind ?_
  rintro ⟨a, _⟩ _ ⟨rfl, rfl⟩
  exact hn a _ place' others h h'

/-- A step for members, from the places of the first restriction. -/
theorem run (hs : f.MemberFollows f' o step step' restrictions part part') {place place' : Option Nat}
    (hplace : f.Keeps o place restrictions) (hplace' : f'.Keeps o place' restrictions) :
    Decoder.Follows Eq (step.run' place) (step'.run' place') part part' := by
  rw [← List.append_nil restrictions] at hplace hplace'
  refine (hs place place' [] hplace hplace').bind_last ?_
  rintro ⟨a, after⟩ ⟨_, after'⟩ ⟨rfl, -⟩
  exact .pure rfl

end MemberFollows

/-! ## Members -/

section
variable {f f' : DexFile} {o : WriteOptions} {c : Contents} {d d' : Contents.Data} {g : Gathered}
  (h : f.Holds o c d) (h' : f'.Holds o c d') (hp : c.pools.Short)
include h h' hp

theorem decodeFields_follows {a : Annotations} (previous : Option UInt32)
    (values : Option (List Value)) {fields : List FieldEntry} {part : Bytes}
    (hascending : Ascending c.resolver.field previous (fields.map FieldEntry.id))
    (hpart : Contents.encodeFields c.resolver o (previous.getD 0) fields = .ok part) :
    f.MemberFollows f' o (f.decodeFields a fields.length previous values)
      (f'.decodeFields a fields.length previous values) (fields.map (·.definition.restriction))
      part part := by
  induction fields generalizing previous values part with
  | nil =>
    cases hpart
    exact .pure []
  | cons x fields ih =>
    obtain ⟨index, stored, rest, hindex, hstored, hrest, rfl⟩ :=
      Contents.exists_of_encodeFields hpart
    obtain ⟨hbehind, hascending⟩ := hascending index hindex
    apply MemberFollows.reads_lift (nextIndex_reads hbehind) (nextIndex_reads hbehind)
    apply MemberFollows.reads_lift (.ofResult (field_of_lookup h hp hindex))
      (.ofResult (field_of_lookup h' hp hindex))
    apply MemberFollows.reads_lift (Decoder.uleb_reads stored) (Decoder.uleb_reads stored)
    apply MemberFollows.reads_bind (memberFlags_reads h hstored) (memberFlags_reads h' hstored)
    apply MemberFollows.lift_eq fun _ => id
    intro value
    exact (ih (some index) _ hascending hrest).map

variable (hn : c.Shallow) (hg : c.items = g.items) (ho : o.version.isCompact = false)
include hn hg ho

theorem decodeMethods_follows {a : Annotations} (previous : Option UInt32)
    {methods : List MethodEntry} {part part' : Bytes}
    (hdebug : ∀ x ∈ methods, g.Places ((x.definition.storedDebug o).map .debugInfo) x.debug)
    (hcode : ∀ x ∈ methods, g.Places ((x.definition.sharedCode o x.debug).map .code) x.code)
    (hascending : Ascending c.resolver.method previous (methods.map MethodEntry.id))
    (hpart : Contents.encodeMethods c.resolver o d.code (previous.getD 0) methods = .ok part)
    (hpart' : Contents.encodeMethods c.resolver o d'.code (previous.getD 0) methods = .ok part') :
    f.MemberFollows f' o (f.decodeMethods a methods.length previous)
      (f'.decodeMethods a methods.length previous) (methods.map (·.definition.restriction)) part
      part' := by
  induction methods generalizing previous part part' with
  | nil =>
    cases hpart
    cases hpart'
    exact .pure []
  | cons x methods ih =>
    obtain ⟨index, stored, offset, rest, hindex, hstored, hoffset, hrest, rfl⟩ :=
      Contents.exists_of_encodeMethods hpart
    obtain ⟨index', stored', offset', rest', hindex', hstored', hoffset', hrest', rfl⟩ :=
      Contents.exists_of_encodeMethods hpart'
    obtain rfl := Except.ok.inj (hindex.symm.trans hindex')
    obtain rfl := Except.ok.inj (hstored.symm.trans hstored')
    obtain ⟨hdebug, hdebugs⟩ := List.forall_mem_cons.mp hdebug
    obtain ⟨hcode, hcodes⟩ := List.forall_mem_cons.mp hcode
    obtain ⟨hbehind, hascending⟩ := hascending index hindex
    apply MemberFollows.reads_lift (nextIndex_reads hbehind) (nextIndex_reads hbehind)
    apply MemberFollows.reads_lift (.ofResult (method_of_lookup h hp hindex))
      (.ofResult (method_of_lookup h' hp hindex))
    apply MemberFollows.reads_lift (Decoder.uleb_reads stored) (Decoder.uleb_reads stored)
    apply MemberFollows.reads_bind (memberFlags_reads h hstored) (memberFlags_reads h' hstored)
    apply MemberFollows.reads_lift (Decoder.uleb_reads offset) (Decoder.uleb_reads offset')
    apply MemberFollows.lift_eq fun m hm => within_eq_ok_iff.mpr
      (methodDef_eq_ok h h' hp hn hg ho hdebug hcode hoffset hoffset' (within_eq_ok_iff.mp hm))
    intro m
    exact (ih (some index) hdebugs hcodes hascending hrest hrest').map

/-! ## Classes -/

theorem decodeMembers_follows {index : Nat} {e : ClassEntry} (he : c.classes[index]? = some e)
    {a : Annotations} {values : List Value}
    (hdebug : ∀ x ∈ e.methods, g.Places ((x.definition.storedDebug o).map .debugInfo) x.debug)
    (hcode : ∀ x ∈ e.methods, g.Places ((x.definition.sharedCode o x.debug).map .code) x.code)
    (horder : InOrder c.resolver e) {part part' : Bytes}
    (hpart : Contents.encodeClassData c.resolver o d.code e = .ok part)
    (hpart' : Contents.encodeClassData c.resolver o d'.code e = .ok part')
    (hl : part.length < UInt32.size) (x : ClassDef) :
    Decoder.Follows Eq (f.decodeMembers index a values x) (f'.decodeMembers index a values x) part
      part' := by
  obtain ⟨place, hplace, hkeeps⟩ := exists_place h he
  obtain ⟨place', hplace', hkeeps'⟩ := exists_place h' he
  have hcounted := Contents.counted_of_encodeClassData hpart hl
  obtain ⟨staticFields, instanceFields, directMethods, virtualMethods, hstaticFields,
    hinstanceFields, hdirectMethods, hvirtualMethods, rfl⟩ := Contents.exists_of_encodeClassData hpart
  obtain ⟨staticFields', instanceFields', directMethods', virtualMethods', hstaticFields',
    hinstanceFields', hdirectMethods', hvirtualMethods', rfl⟩ :=
      Contents.exists_of_encodeClassData hpart'
  obtain rfl := Except.ok.inj (hstaticFields.symm.trans hstaticFields')
  obtain rfl := Except.ok.inj (hinstanceFields.symm.trans hinstanceFields')
  have hlstatic := Contents.length_encodeFields hstaticFields
  have hlinstance := Contents.length_encodeFields hinstanceFields
  have hldirect := Contents.length_encodeMethods hdirectMethods
  have hlvirtual := Contents.length_encodeMethods hvirtualMethods
  have hldirect' := Contents.length_encodeMethods hdirectMethods'
  have hlvirtual' := Contents.length_encodeMethods hvirtualMethods'
  apply Decoder.Follows.reads_bind (Decoder.uleb_reads _) (Decoder.uleb_reads _)
  apply Decoder.Follows.reads_bind (Decoder.uleb_reads _) (Decoder.uleb_reads _)
  apply Decoder.Follows.reads_bind (Decoder.uleb_reads _) (Decoder.uleb_reads _)
  apply Decoder.Follows.reads_bind (Decoder.uleb_reads _) (Decoder.uleb_reads _)
  apply Decoder.Follows.available
  intro room room' hroom hroom'
  simp only [List.length_append] at hroom hroom'
  dsimp only
  rw [hcounted.staticFields, hcounted.instanceFields, hcounted.directMethods,
    hcounted.virtualMethods, if_neg (by omega), if_neg (by omega)]
  apply Decoder.Follows.reads_bind (.ofResult hplace) (.ofResult hplace')
  have hstatic := decodeFields_follows h h' hp (a := a) none (some values)
    horder.staticFields hstaticFields
  have hinstance := decodeFields_follows h h' hp (a := a) none none
    horder.instanceFields hinstanceFields
  have hdirect := decodeMethods_follows h h' hp hn hg ho (a := a) none
    (fun y hy => hdebug y (List.mem_append_left _ hy))
    (fun y hy => hcode y (List.mem_append_left _ hy)) horder.directMethods hdirectMethods
    hdirectMethods'
  have hvirtual := decodeMethods_follows h h' hp hn hg ho (a := a) none
    (fun y hy => hdebug y (List.mem_append_right _ hy))
    (fun y hy => hcode y (List.mem_append_right _ hy)) horder.virtualMethods hvirtualMethods
    hvirtualMethods'
  refine (hstatic.bind fun _ => hinstance.bind fun _ => hdirect.bind fun _ => hvirtual.map).run ?_ ?_
  · simpa only [ClassEntry.fields, ClassEntry.methods, List.map_append, List.append_assoc]
      using hkeeps
  · simpa only [ClassEntry.fields, ClassEntry.methods, List.map_append, List.append_assoc]
      using hkeeps'

omit hg in
theorem ofClassItem_eq_ok {dex : Dex} (hf : g.Fills o dex c) {x : ClassDef} {e : ClassEntry}
    (hx : g.HoldsClass o x e) {index : Nat} (he : c.classes[index]? = some e)
    {item item' : IdItem.Class} (hitem : Contents.classItem c.resolver d e index = .ok item)
    (hitem' : Contents.classItem c.resolver d' e index = .ok item') {y : ClassDef}
    (hy : f.ofClassItem index item = .ok y) : f'.ofClassItem index item' = .ok y := by
  obtain ⟨type, superclass, interfaces, sourceFile, annotations, staticValues, htype, hsuperclass,
    hinterfaces, hsourceFile, hannotations, hstaticValues, rfl⟩ := exists_of_classItem hitem
  obtain ⟨type', superclass', interfaces', sourceFile', annotations', staticValues', htype',
    hsuperclass', hinterfaces', hsourceFile', hannotations', hstaticValues', rfl⟩ :=
      exists_of_classItem hitem'
  obtain rfl := Except.ok.inj (htype.symm.trans htype')
  obtain rfl := Except.ok.inj (hsuperclass.symm.trans hsuperclass')
  obtain rfl := Except.ok.inj (hsourceFile.symm.trans hsourceFile')
  have hitems := hf.items
  have htypes : f.type = f'.type := (type_eq_fetch h).trans (type_eq_fetch h').symm
  have hstrings : f.string = f'.string := (string_eq_fetch h).trans (string_eq_fetch h').symm
  have hlist := typeList_of_places h hp hitems hx.interfaces hinterfaces
  have hlist' := typeList_of_places h' hp hitems hx.interfaces hinterfaces'
  obtain ⟨_, _, _, hmembers, hdirectory⟩ := hx.members
  obtain ⟨values, -, hplace⟩ := hx.values
  unfold ofClassItem at hy ⊢
  dsimp only at hy ⊢
  obtain ⟨t, ht, hy⟩ := bind_eq_ok.mp hy
  obtain ⟨super, hsuper, hy⟩ := bind_eq_ok.mp hy
  obtain ⟨ts, hts, hy⟩ := bind_eq_ok.mp hy
  obtain ⟨file, hfile, hy⟩ := bind_eq_ok.mp hy
  obtain ⟨a, ha, hy⟩ := bind_eq_ok.mp hy
  obtain ⟨stored, hstored, hy⟩ := bind_eq_ok.mp hy
  obtain rfl := Except.ok.inj (hlist.symm.trans hts)
  have ha := annotations_eq_ok h h' hp hn hitems hdirectory hannotations hannotations' ha
  have hstored := staticValues_eq_ok h h' hp hn hitems hplace hstaticValues hstaticValues' hstored
  rw [← htypes, ← hstrings, ht, ok_bind, hsuper, ok_bind, hlist', ok_bind, hfile, ok_bind, ha,
    ok_bind, hstored, ok_bind]
  have hshows := h.data.classData index e he
  have hshows' := h'.data.classData index e he
  split at hshows
  next hdata =>
    rw [if_pos hdata] at hshows'
    obtain ⟨p, part, hget, hpart, hstands, hpos, hle⟩ := hshows
    obtain ⟨p', part', hget', hpart', hstands', hpos', hle'⟩ := hshows'
    have hfit := h.small
    have hfit' := h'.small
    have hinside := hstands.length_le
    have hnat : (UInt32.ofNat p.offset).toNat = p.offset := UInt32.toNat_ofNat_of_lt' (by omega)
    have hnat' : (UInt32.ofNat p'.offset).toNat = p'.offset := UInt32.toNat_ofNat_of_lt' (by omega)
    have hne := ofNat_ne_zero hpos (by omega : p.offset < UInt32.size)
    have hne' := ofNat_ne_zero hpos' (by omega : p'.offset < UInt32.size)
    rw [hget, Option.map_some, Option.getD_some, if_neg hne, hnat] at hy
    rw [hget', Option.map_some, Option.getD_some, if_neg hne', hnat']
    have hy := within_eq_ok_iff.mp (within_eq_ok_iff.mp hy)
    obtain ⟨_, rfl, hagain⟩ := (decodeMembers_follows h h' hp hn hitems ho he
      (fun y hy => (hmembers.places_method hy).1) (fun y hy => (hmembers.places_method hy).2)
      (hf.inOrder hp hx) hpart hpart' (by omega) _).valueAt hstands hstands' hy
    exact within_eq_ok_iff.mpr (within_eq_ok_iff.mpr hagain)
  next hdata =>
    rw [if_neg hdata] at hshows'
    have hzero : UInt32.ofNat (((some Placed.nothing).map Placed.offset).getD 0) = 0 := rfl
    rw [hshows, if_pos hzero] at hy
    rw [hshows', if_pos hzero]
    exact hy

omit hg in
/-- Whatever class is read from the one file is read from the other file. -/
theorem classDef_eq_ok {dex : Dex} (hf : g.Fills o dex c) {index : Nat}
    (hlt : index < c.classes.length) {y : ClassDef} (hy : f.classDef index = .ok y) :
    f'.classDef index = .ok y := by
  have he := List.getElem?_eq_getElem hlt
  obtain ⟨x, -, hx⟩ := exists_left_of_mem hf.classes (List.getElem_mem hlt)
  have hcount := h.classCount
  have hnat : (UInt32.ofNat index).toNat = index := UInt32.toNat_ofNat_of_lt' (by omega)
  have hget : c.classes.zipIdx[(UInt32.ofNat index).toNat]? = some (c.classes[index], index) := by
    rw [hnat, List.getElem?_zipIdx, he]
    simp
  obtain ⟨item, hitem, hread⟩ := exists_item h.classes
    (fun x _ hstands => (IdItem.Class.decode_reads x).valueAt hstands) hget
  obtain ⟨item', hitem', hread'⟩ := exists_item h'.classes
    (fun x _ hstands => (IdItem.Class.decode_reads x).valueAt hstands) hget
  obtain ⟨position, hposition, hread⟩ := bind_eq_ok.mp hread
  obtain ⟨-, -, hread⟩ := bind_eq_ok.mp hread
  obtain ⟨position', hposition', hread'⟩ := bind_eq_ok.mp hread'
  obtain ⟨-, -, hread'⟩ := bind_eq_ok.mp hread'
  rw [classDef, hposition, ok_bind, hread, ok_bind] at hy
  rw [classDef, hposition', ok_bind, hread', ok_bind]
  exact within_eq_ok_iff.mpr
    (ofClassItem_eq_ok h h' hp hn ho hf hx he hitem hitem' (within_eq_ok_iff.mp hy))

omit hg in
/-- Whatever is read from the one file is read from the other file. -/
theorem dex_eq_ok {dex : Dex} (hf : g.Fills o dex c) {y : Dex} (hy : f.dex = .ok y) :
    f'.dex = .ok y := by
  have hcount : f.classCount = c.classes.length := by
    rw [classCount, h.classes.size, List.length_zipIdx]
  have hcount' : f'.classCount = c.classes.length := by
    rw [classCount, h'.classes.size, List.length_zipIdx]
  obtain ⟨classes, hclasses, hy⟩ := bind_eq_ok.mp hy
  rw [hcount] at hclasses
  unfold DexFile.dex
  rw [hcount']
  refine bind_eq_ok.mpr ⟨classes, ?_, hy⟩
  refine mapM_eq_ok_of_forall₂ (List.forall₂_same.mpr fun index hindex y hy => ?_) hclasses
  exact classDef_eq_ok h h' hp hn ho hf (List.mem_range.mp hindex) hy

end

end DexFile

end Dalvik
