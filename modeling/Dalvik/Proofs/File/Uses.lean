import Dalvik.Proofs.File.Classes
import Dalvik.Proofs.File.Shared

/-!
# Where shared values are used

Classes, prototypes, call sites and other items name shared values by their offsets. Following these
through a file from its ids on gives for every use of a value the offset that is stored there: equal
values have the same one, and different values have different ones.
-/
namespace Dalvik
open Result

/-! ## Annotations and values of a class -/

namespace ClassDef

/-- The annotations of the fields in the order of their ids. -/
def fieldSets (x : ClassDef) : Result (List (FieldId × List AnnotationItem)) :=
  (Gather.fieldEntries x x.staticFields ++ Gather.fieldEntries x x.instanceFields).mapM fun y =>
    return (y.id, ← AnnotationItem.sortedSet y.definition.annotations)

/-- The annotations of the methods and of their parameters in the order of the ids. -/
def methodSets (x : ClassDef) :
    Result (List (MethodEntry × List AnnotationItem × List (List AnnotationItem))) :=
  (Gather.sortedMembers x.methodId x.directMethods ++
    Gather.sortedMembers x.methodId x.virtualMethods).mapM fun (id, m) => do
      let set ← AnnotationItem.sortedSet m.annotations
      return (⟨m, id, none, none⟩, set, AnnotationItem.trimEmpty (← Gather.parameterSetsOf m))

/-- The directory of the annotations of the class and of its members. -/
def directory? (x : ClassDef) : Option AnnotationDirectory := do
  let ofClass ← (AnnotationItem.sortedSet x.annotations).toOption
  Gather.directoryOf x ofClass (← x.fieldSets.toOption) (← x.methodSets.toOption)

/-- The values that the static fields start with, without the defaults at the end. -/
def staticValues? (x : ClassDef) : Option (List Value) := do
  let values ← ((Gather.fieldEntries x x.staticFields).mapM FieldEntry.initial).toOption
  return Value.trimDefaults values

end ClassDef

/-! ## Offsets in a file -/

/-- The indices of methods with the offsets of their code. -/
def decodeCodeOffsets : (count : Nat) → (previous : UInt32) → Decoder (List (UInt32 × UInt32))
  | 0, _ => return []
  | count + 1, previous => do
    let index := previous + (← Decoder.uleb)
    let _ ← Decoder.uleb
    let offset ← Decoder.uleb
    return (index, offset) :: (← decodeCodeOffsets count index)

/-- Steps over fields. -/
def skipFields : (count : Nat) → Decoder Unit
  | 0 => return ()
  | count + 1 => do
    let _ ← Decoder.uleb
    let _ ← Decoder.uleb
    skipFields count

/-- The offsets of the code of all methods in the data of a class. -/
def decodeClassCode : Decoder (List (UInt32 × UInt32)) := do
  let staticFields := (← Decoder.uleb).toNat
  let instanceFields := (← Decoder.uleb).toNat
  let directMethods := (← Decoder.uleb).toNat
  let virtualMethods := (← Decoder.uleb).toNat
  skipFields staticFields
  skipFields instanceFields
  let direct ← decodeCodeOffsets directMethods 0
  return direct ++ (← decodeCodeOffsets virtualMethods 0)

namespace DexFile

def classItem? (f : DexFile) (index : UInt32) : Option IdItem.Class :=
  (f.item f.classes IdItem.Class.decode index).toOption

/-- The directory of annotations of a class, if it has one. -/
def directory? (f : DexFile) (index : UInt32) : Option OffsetDirectory := do
  let i ← f.classItem? index
  if i.annotations = 0 then none
  else (OffsetDirectory.decode.valueAt f.data i.annotations.toNat).toOption

/-- The offset of the annotations of a member. -/
def offsetOf? (members : List MemberOffset) (member : UInt32) : Option UInt32 :=
  (members.map fun m => (m.member, m.offset)).lookup member

/-- An entry of the list of offsets at an offset. -/
def entryAt? (f : DexFile) (kind : OffsetListKind) (offset : UInt32) (k : Nat) : Option UInt32 := do
  (← ((decodeOffsets kind).valueAt f.data offset.toNat).toOption)[k]?

/-- The offset of the code of a method. -/
def codeOffset? (f : DexFile) (index method : UInt32) : Option UInt32 := do
  let i ← f.classItem? index
  if i.data = 0 then none
  else (← (decodeClassCode.valueAt f.data i.data.toNat).toOption).lookup method

/-- The offset of the debug information of a method. -/
def debugOffset? (f : DexFile) (index method : UInt32) : Option UInt32 :=
  match f.header.compact with
  | some c => ((DebugTable.lookup c.debugTable.toNat c.debugIndex.toNat c.debugBase f.methods.size
      method).valueAt f.data 0).toOption
  | none => do
    let offset ← f.codeOffset? index method
    return (← (CodeHeader.decode.valueAt f.data offset.toNat).toOption).debugOffset

end DexFile

/-! ## Uses -/

/-- The item of a list, which has none if it is empty. -/
def SharedItem.unlessEmpty {α : Type} (make : List α → SharedItem) (items : List α) :
    Option SharedItem :=
  if items.isEmpty then none else some (make items)

/-- A place where a shared value is used. Classes, prototypes and call sites are given by their
indices. -/
inductive Use where
  /-- The parameters of a prototype. -/
  | parameters (proto : UInt32)
  | callSite (index : UInt32)
  | interfaces (index : UInt32)
  | staticValues (index : UInt32)
  | directory (index : UInt32)
  /-- The annotations of the class itself. -/
  | ofClass (index : UInt32)
  | ofField (index : UInt32) (field : FieldDef)
  | ofMethod (index : UInt32) (method : MethodDef)
  /-- The annotations of all parameters. -/
  | ofParameters (index : UInt32) (method : MethodDef)
  /-- A set in a list of sets that is used. -/
  | setIn (list : Use) (k : Nat)
  /-- An annotation in a set that is used. -/
  | annotationIn (set : Use) (k : Nat)
  | code (index : UInt32) (method : MethodDef)
  | debugInfo (index : UInt32) (method : MethodDef)

namespace Use
open SharedItem

/-- The class with an index, if it has the method. -/
def classOf? (dex : Dex) (index : UInt32) (m : MethodDef) : Option ClassDef :=
  dex.classes[index.toNat]?.filter fun x => m ∈ x.methods

/-- The value that is used. -/
def item? (o : WriteOptions) (dex : Dex) (p : Pools) : Use → Option SharedItem
  | parameters i => do unlessEmpty .typeList (← p.protos.get? i.toNat).parameters
  | callSite i => do return .encodedArray (← p.callSites.get? i.toNat).toValues
  | interfaces i => do unlessEmpty .typeList (← dex.classes[i.toNat]?).interfaces
  | staticValues i => do unlessEmpty .encodedArray (← (← dex.classes[i.toNat]?).staticValues?)
  | directory i => do return .directory (← (← dex.classes[i.toNat]?).directory?)
  | ofClass i => do
    let x ← dex.classes[i.toNat]?
    unlessEmpty .annotationSet (← (AnnotationItem.sortedSet x.annotations).toOption)
  | ofField i y => do
    let _ ← dex.classes[i.toNat]?.filter fun x => y ∈ x.fields
    unlessEmpty .annotationSet (← (AnnotationItem.sortedSet y.annotations).toOption)
  | ofMethod i m => do
    let _ ← classOf? dex i m
    unlessEmpty .annotationSet (← (AnnotationItem.sortedSet m.annotations).toOption)
  | ofParameters i m => do
    let _ ← classOf? dex i m
    let sets ← (Gather.parameterSetsOf m).toOption
    unlessEmpty .annotationSetList (AnnotationItem.trimEmpty sets)
  | setIn list k => do
    match ← list.item? o dex p with
    | .annotationSetList sets => unlessEmpty .annotationSet (← sets[k]?)
    | _ => none
  | annotationIn set k => do
    match ← set.item? o dex p with
    | .annotationSet annotations => return .annotationItem (← annotations[k]?)
    | _ => none
  | code i m => do
    let _ ← classOf? dex i m
    let c ← m.code
    let debug := if o.version.isCompact then none else m.storedDebug o
    return .code c m.incoming.toUInt16 c.outgoing debug
  | debugInfo i m => do
    let _ ← classOf? dex i m
    return .debugInfo (← m.storedDebug o)

/-- The offset that is stored there. -/
def offset? (f : DexFile) (dex : Dex) (p : Pools) : Use → Option UInt32
  | parameters i => do return (← (f.item f.protos IdItem.Proto.decode i).toOption).parameters
  | callSite i => (f.item f.callSites Decoder.u4 i).toOption
  | interfaces i => do return (← f.classItem? i).interfaces
  | staticValues i => do return (← f.classItem? i).staticValues
  | directory i => do return (← f.classItem? i).annotations
  | ofClass i => do return (← f.directory? i).classOffset
  | ofField i y => do
    let x ← dex.classes[i.toNat]?
    DexFile.offsetOf? (← f.directory? i).fields (← (p.resolver.field (x.fieldId y)).toOption)
  | ofMethod i m => do
    DexFile.offsetOf? (← f.directory? i).methods (← methodIndex? i m)
  | ofParameters i m => do
    DexFile.offsetOf? (← f.directory? i).parameters (← methodIndex? i m)
  | setIn list k => do f.entryAt? .setList (← list.offset? f dex p) k
  | annotationIn set k => do f.entryAt? .set (← set.offset? f dex p) k
  | code i m => do f.codeOffset? i (← methodIndex? i m)
  | debugInfo i m => do f.debugOffset? i (← methodIndex? i m)
where
  methodIndex? (i : UInt32) (m : MethodDef) : Option UInt32 := do
    (p.resolver.method ((← dex.classes[i.toNat]?).methodId m)).toOption

end Use

/-! ## What is read -/

/-- What has been found for distinct owners is looked up by their indices. -/
theorem exists_lookup {α β : Type} {index : α → Result UInt32} (id : β → α)
    (R : β → UInt32 → Prop) (hinjective : ∀ a b i, index a = .ok i → index b = .ok i → a = b)
    {owners : List β} {found entries : List (UInt32 × UInt32)}
    (h : List.Forall₂ (fun w e => index (id w) = .ok e.1 ∧ R w e.2) owners found)
    (hperm : entries.Perm found) (hd : (owners.map id).Nodup) {w : β} (hw : w ∈ owners) :
    ∃ i x, index (id w) = .ok i ∧ R w x ∧ entries.lookup i = some x := by
  have hindices : (found.map Prod.fst).Nodup :=
    nodup_of_forall₂ hinjective (h.imp fun _ _ => And.left) hd
  obtain ⟨e, he, hindex, hR⟩ := exists_left_of_mem h.flip hw
  have hnodup := (hperm.map Prod.fst).nodup_iff.mpr hindices
  exact ⟨e.1, e.2, hindex, hR, lookup_of_mem hnodup (hperm.mem_iff.mpr he)⟩

section
variable {r : Resolver} {o : WriteOptions} {code : DataSection} {previous : UInt32} {part : Bytes}

theorem exists_codeOffsets {methods : List MethodEntry}
    (h : Contents.encodeMethods r o code previous methods = .ok part) :
    ∃ offsets, (decodeCodeOffsets methods.length previous).Reads part offsets ∧
      List.Forall₂ (fun (y : MethodEntry) e => r.method y.id = .ok e.1 ∧
        code.optionalOffset "code item" y.code = .ok e.2) methods offsets := by
  induction methods generalizing previous part with
  | nil =>
    cases h
    exact ⟨[], .pure [], .nil⟩
  | cons y methods ih =>
    obtain ⟨index, stored, offset, rest, hindex, -, hoffset, hrest, rfl⟩ :=
      Contents.exists_of_encodeMethods h
    obtain ⟨offsets, hread, hoffsets⟩ := ih hrest
    refine ⟨(index, offset) :: offsets, ?_, .cons ⟨hindex, hoffset⟩ hoffsets⟩
    apply (Decoder.uleb_reads (index - previous)).bind
    apply (Decoder.uleb_reads stored).bind
    apply (Decoder.uleb_reads offset).bind
    have hsum : previous + (index - previous) = index := by
      rw [UInt32.add_comm, UInt32.sub_add_cancel]
    rw [hsum]
    exact hread.map

theorem skipFields_reads {fields : List FieldEntry}
    (h : Contents.encodeFields r o previous fields = .ok part) :
    (skipFields fields.length).Reads part () := by
  induction fields generalizing previous part with
  | nil =>
    cases h
    exact .pure ()
  | cons y fields ih =>
    obtain ⟨index, stored, rest, -, -, hrest, rfl⟩ := Contents.exists_of_encodeFields h
    apply (Decoder.uleb_reads (index - previous)).bind
    apply (Decoder.uleb_reads stored).bind
    exact ih hrest

/-- The data of a class has the offsets of the code of all its methods. -/
theorem exists_classCode {e : ClassEntry} (h : Contents.encodeClassData r o code e = .ok part)
    (hl : part.length < UInt32.size) :
    ∃ offsets, decodeClassCode.Reads part offsets ∧
      List.Forall₂ (fun (y : MethodEntry) e => r.method y.id = .ok e.1 ∧
        code.optionalOffset "code item" y.code = .ok e.2) e.methods offsets := by
  have hcounted := Contents.counted_of_encodeClassData h hl
  obtain ⟨staticFields, instanceFields, directMethods, virtualMethods, hstaticFields,
    hinstanceFields, hdirectMethods, hvirtualMethods, rfl⟩ := Contents.exists_of_encodeClassData h
  obtain ⟨direct, hdirect, hdirectOffsets⟩ := exists_codeOffsets hdirectMethods
  obtain ⟨virtual, hvirtual, hvirtualOffsets⟩ := exists_codeOffsets hvirtualMethods
  refine ⟨direct ++ virtual, ?_, List.rel_append hdirectOffsets hvirtualOffsets⟩
  apply e.counts_reads
  rw [hcounted.staticFields, hcounted.instanceFields, hcounted.directMethods,
    hcounted.virtualMethods]
  apply (skipFields_reads hstaticFields).bind
  apply (skipFields_reads hinstanceFields).bind
  apply hdirect.bind
  exact hvirtual.map

end

/-- The header of a standard code item has the offset of the debug information. -/
theorem CodeItem.exists_header_of_encode {compact : Bool} {table : OpcodeTable} {r : Resolver}
    {position : Nat} {i : CodeItem} {p : Placed} {data : ByteArray} (hc : compact = false)
    (h : i.encode compact table r position = .ok p) (hs : p.bytes.Stands data position) :
    ∃ e, CodeHeader.decode.valueAt data p.offset = .ok e ∧ e.debugOffset = i.debugOffset := by
  subst hc
  obtain ⟨tries, front, header, code, blocks, hparts⟩ := exists_parts h
  rw [hparts.bytes] at hs
  have hfront := hs.right
  rw [← List.append_assoc] at hfront
  obtain ⟨e, hread, -, -, -, -, -, hdebug, -⟩ := header_eq hparts.head hfront.left
  refine ⟨e, ?_, hdebug⟩
  unfold Decoder.valueAt
  rw [hparts.offset, show CodeHeader.decode data _ = _ from hread]

namespace DexFile

/-- Members that have something are found in their directory. -/
theorem exists_offsetOf {ω α β : Type} {index : α → Result UInt32} {offset : List β → Result UInt32}
    {id : ω → α} {part : ω → List β} {owners : List ω} {members : List MemberOffset}
    (hinjective : ∀ a b i, index a = .ok i → index b = .ok i → a = b)
    (hd : (owners.map id).Nodup)
    (h : Contents.memberOffsets index offset (kept id part owners) = .ok members) {w : ω}
    (hw : w ∈ owners) (hne : part w ≠ []) :
    ∃ i x, index (id w) = .ok i ∧ offset (part w) = .ok x ∧ offsetOf? members i = some x := by
  obtain ⟨found, hfound, h⟩ := bind_eq_ok.mp h
  obtain rfl := pure_eq_ok.mp h
  have heach : List.Forall₂ (fun (e : α × List β) (m : UInt32 × UInt32) =>
      index e.1 = .ok m.1 ∧ offset e.2 = .ok m.2) (kept id part owners)
      (found.map fun m => (m.member, m.offset)) := by
    refine List.forall₂_map_right_iff.mpr ((mapM_eq_ok.mp hfound).imp fun e m hm => ?_)
    obtain ⟨member, hmember, hm⟩ := bind_eq_ok.mp hm
    obtain ⟨place, hplace, hm⟩ := bind_eq_ok.mp hm
    obtain rfl := pure_eq_ok.mp hm
    exact ⟨hmember, hplace⟩
  exact exists_lookup Prod.fst (fun e x => offset e.2 = .ok x) hinjective heach ((sortedBy_perm _ _).map _)
    (hd.sublist kept_sublist) (mem_kept.mpr ⟨w, hw, hne, rfl, rfl⟩)

/-- What a directory in a file says is what the directory of a class needs. -/
structure Directs (c : Contents) (d : Contents.Data) (a : AnnotationDirectory) (p : OffsetDirectory) :
    Prop where
  ofClass : c.setOffset d.annotationSets a.ofClass = .ok p.classOffset
  fields : Contents.memberOffsets c.resolver.field (c.setOffset d.annotationSets) a.ofFields =
    .ok p.fields
  methods : Contents.memberOffsets c.resolver.method (c.setOffset d.annotationSets) a.ofMethods =
    .ok p.methods
  parameters : Contents.memberOffsets c.resolver.method (fun sets =>
    d.annotationSetLists.offset "annotation set ref list" (c.items.annotationSetLists.id? sets))
      a.ofParameters = .ok p.parameters

variable {f : DexFile} {o : WriteOptions} {c : Contents} {d : Contents.Data}

/-- What begins at the offset of a value of a set is its bytes. -/
theorem exists_bytes {α : Type} [BEq α] [LawfulBEq α] [Hashable α] {set : ItemSet α} {s : DataSection}
    {encode : α → Result Bytes} (hs : s.Shows f.data encode set.toList) {a : α} {i n : Nat}
    {p : Placed} (hi : set.id? a = some i) (hp : s.items[i]? = some p) (hn : p.offset = n) :
    ∃ b, encode a = .ok b ∧ b.Stands f.data n := by
  obtain ⟨q, b, hq, hb, hstands, -⟩ := hs i a (ItemSet.id?_eq_iff_getElem?.mp hi)
  obtain rfl := Option.some.inj (hp.symm.trans hq)
  exact ⟨b, hb, hn ▸ hstands⟩

theorem exists_directs (h : f.Holds o c d) {a : AnnotationDirectory} {n : Nat}
    (ha : SharedItem.BeginsAt c.items d (.directory a) n) :
    ∃ p, OffsetDirectory.decode.valueAt f.data n = .ok p ∧ Directs c d a p := by
  obtain ⟨i, q, hi, hq, hn, -⟩ := ha
  obtain ⟨b, hb, hstands⟩ := exists_bytes h.data.directories hi hq hn
  have hsmall := h.small
  have hinside := hstands.length_le
  obtain ⟨fields, hfields, hb⟩ := bind_eq_ok.mp hb
  obtain ⟨methods, hmethods, hb⟩ := bind_eq_ok.mp hb
  obtain ⟨parameters, hparameters, hb⟩ := bind_eq_ok.mp hb
  obtain ⟨ofClass, hofClass, hb⟩ := bind_eq_ok.mp hb
  obtain rfl := pure_eq_ok.mp hb
  exact ⟨_, (OffsetDirectory.decode_reads (by omega)).valueAt hstands, hofClass, hfields, hmethods,
    hparameters⟩

/-- The entries of a list of offsets are those of its values. -/
theorem exists_entryAt {α : Type} {place : α → Result UInt32} {items : List α} {b : Bytes}
    {offset : UInt32} (h : f.Holds o c d)
    (hb : (do return encodeOffsets (← items.mapM place)) = (.ok b : Result Bytes))
    (hstands : b.Stands f.data offset.toNat) (kind : OffsetListKind) {k : Nat} {a : α}
    (hk : items[k]? = some a) :
    ∃ x, f.entryAt? kind offset k = some x ∧ place a = .ok x := by
  obtain ⟨offsets, hoffsets, hb⟩ := bind_eq_ok.mp hb
  obtain rfl := pure_eq_ok.mp hb
  have hsmall := h.small
  have hinside := hstands.length_le
  have heach := mapM_eq_ok.mp hoffsets
  obtain ⟨hlt, rfl⟩ := List.getElem?_eq_some_iff.mp hk
  have hlt' : k < offsets.length := heach.length_eq ▸ hlt
  refine ⟨offsets[k], ?_, heach.get hlt hlt'⟩
  rw [entryAt?, (decodeOffsets_reads kind (by omega)).valueAt hstands]
  exact List.getElem?_eq_getElem hlt'

/-! ## Classes -/

section
variable {g : Gathered} {dex : Dex} {index : UInt32} {x : ClassDef} {e : ClassEntry}
  {i : IdItem.Class}

/-- The definition of a class in a file, and what was gathered for the class. -/
structure Defines (f : DexFile) (o : WriteOptions) (c : Contents) (d : Contents.Data) (g : Gathered)
    (index : UInt32) (x : ClassDef) (e : ClassEntry) (i : IdItem.Class) : Prop where
  entry : c.classes[index.toNat]? = some e
  holds : g.HoldsClass o x e
  item : f.classItem? index = some i
  interfaces : d.typeLists.optionalOffset "interfaces" e.interfaces = .ok i.interfaces
  annotations : d.directories.optionalOffset "annotations directory" e.annotations =
    .ok i.annotations
  staticValues : d.encodedArrays.optionalOffset "static values" e.staticValues = .ok i.staticValues
  data : i.data = UInt32.ofNat ((d.classData.items[index.toNat]?.map Placed.offset).getD 0)

theorem exists_defines (h : f.Holds o c d) (hf : g.Fills o dex c)
    (hx : dex.classes[index.toNat]? = some x) : ∃ e i, f.Defines o c d g index x e i := by
  obtain ⟨hlt, rfl⟩ := List.getElem?_eq_some_iff.mp hx
  have hlt' : index.toNat < c.classes.length := hf.classes.length_eq ▸ hlt
  have he : c.classes[index.toNat]? = some c.classes[index.toNat] := List.getElem?_eq_getElem hlt'
  have hget : c.classes.zipIdx[index.toNat]? = some (c.classes[index.toNat], index.toNat) := by
    rw [List.getElem?_zipIdx, he]
    simp
  obtain ⟨item, hitem, hread⟩ := exists_item h.classes
    (fun x _ hstands => (IdItem.Class.decode_reads x).valueAt hstands) hget
  obtain ⟨type, superclass, interfaces, sourceFile, annotations, staticValues, -, -,
    hinterfaces, -, hannotations, hstaticValues, rfl⟩ := exists_of_classItem hitem
  exact ⟨_, _, {
    entry := he
    holds := hf.classes.get hlt hlt'
    item := by rw [classItem?, hread]; rfl
    interfaces := hinterfaces
    annotations := hannotations
    staticValues := hstaticValues
    data := rfl }⟩

end

end DexFile

/-! ## Annotations of a class -/

theorem Gather.directoryOf_congr {x : ClassDef} {ofClass : List AnnotationItem}
    {fields : List (FieldId × List AnnotationItem)}
    {methods methods' : List (MethodEntry × List AnnotationItem × List (List AnnotationItem))}
    (h : methods.map (fun e => (e.1.id, e.2)) = methods'.map fun e => (e.1.id, e.2)) :
    directoryOf x ofClass fields methods = directoryOf x ofClass fields methods' := by
  have hsets := congrArg (List.filterMap fun e : MethodId × List AnnotationItem ×
    List (List AnnotationItem) => if e.2.1.isEmpty then none else some (e.1, e.2.1)) h
  have hlists := congrArg (List.filterMap fun e : MethodId × List AnnotationItem ×
    List (List AnnotationItem) => if e.2.2.isEmpty then none else some (e.1, e.2.2)) h
  simp only [List.filterMap_map, Function.comp_def] at hsets hlists
  simp only [directoryOf, hsets, hlists]

/-- A directory with members says which class it belongs to. -/
theorem ClassDef.owner_of_directory? {x : ClassDef} {a : AnnotationDirectory}
    (h : x.directory? = some a)
    (hsome : ¬ (a.ofFields = [] ∧ a.ofMethods = [] ∧ a.ofParameters = [])) :
    a.owner = some x.type := by
  obtain ⟨ofClass, -, h⟩ := Option.bind_eq_some_iff.mp h
  obtain ⟨fields, -, h⟩ := Option.bind_eq_some_iff.mp h
  obtain ⟨methods, -, h⟩ := Option.bind_eq_some_iff.mp h
  unfold Gather.directoryOf at h
  dsimp only at h
  split at h
  · rw [← Option.some.inj h]
  next hempty =>
    split at h
    · cases h
    · refine absurd ?_ hsome
      rw [← Option.some.inj h]
      simpa [and_assoc] using hempty

namespace Gathered.HoldsMembers

variable {o : WriteOptions} {g : Gathered} {x : ClassDef} {e : ClassEntry}
  {ofClass : List AnnotationItem} {fields : List (FieldId × List AnnotationItem)}
  {methods : List (MethodEntry × List AnnotationItem × List (List AnnotationItem))}
  (hx : g.HoldsMembers o x e ofClass fields methods)
include hx

/-- What was stored of the annotations of a class makes up its directory. -/
theorem directory?_eq (he : g.HoldsClass o x e) :
    x.directory? = Gather.directoryOf x ofClass fields methods := by
  have hfields : x.fieldSets = .ok fields := by
    have heach := hx.fields
    rw [ClassEntry.fields, he.staticFields, he.instanceFields] at heach
    refine mapM_eq_ok.mpr (heach.imp fun y set hold => ?_)
    exact bind_eq_ok.mpr ⟨set.2, hold.set, by rw [← hold.id]; rfl⟩
  have hmethods : x.methodSets = .ok (methods.map fun y =>
      (⟨y.1.definition, y.1.id, none, none⟩, y.2)) := by
    refine mapM_eq_ok.mpr (List.forall₂_map_right_iff.mpr (hx.methods.imp fun m y hold => ?_))
    obtain ⟨all, hall, hsets⟩ := hold.sets
    refine bind_eq_ok.mpr ⟨y.2.1, hold.set, bind_eq_ok.mpr ⟨all, hall, ?_⟩⟩
    rw [hold.definition, hold.id, ← hsets]
    rfl
  unfold ClassDef.directory?
  rw [hx.set, hfields, hmethods]
  refine Gather.directoryOf_congr ?_
  rw [List.map_map]
  rfl

theorem exists_fieldSet (he : g.HoldsClass o x e) {y : FieldDef} (hy : y ∈ x.fields) :
    ∃ set, AnnotationItem.sortedSet y.annotations = .ok set ∧ (x.fieldId y, set) ∈ fields := by
  have hentry {ys : List FieldDef} (hy : y ∈ ys) :
      (⟨y, x.fieldId y⟩ : FieldEntry) ∈ Gather.fieldEntries x ys := by
    rw [Gather.fieldEntries, Gather.sortedMembers_eq, List.map_map]
    exact List.mem_map.mpr ⟨y, (sortedBy_perm _ _).mem_iff.mpr hy, rfl⟩
  have hmem : (⟨y, x.fieldId y⟩ : FieldEntry) ∈ e.fields := by
    rw [ClassEntry.fields, he.staticFields, he.instanceFields]
    exact (List.mem_append.mp hy).elim (fun hy => List.mem_append_left _ (hentry hy))
      fun hy => List.mem_append_right _ (hentry hy)
  obtain ⟨⟨id, set⟩, hset, hold⟩ := exists_left_of_mem hx.fields.flip hmem
  have hid : id = x.fieldId y := hold.id
  exact ⟨set, hold.set, hid ▸ hset⟩

theorem exists_entry {m : MethodDef} (hm : m ∈ x.methods) :
    ∃ y sets, (y, sets) ∈ methods ∧ g.HoldsMethod o (x.methodId m, m) (y, sets) := by
  have hsorted {ms : List MethodDef} (hm : m ∈ ms) :
      (x.methodId m, m) ∈ Gather.sortedMembers x.methodId ms := by
    rw [Gather.sortedMembers_eq]
    exact List.mem_map.mpr ⟨m, (sortedBy_perm _ _).mem_iff.mpr hm, rfl⟩
  have hmem : (x.methodId m, m) ∈ Gather.sortedMembers x.methodId x.directMethods ++
      Gather.sortedMembers x.methodId x.virtualMethods :=
    (List.mem_append.mp hm).elim (fun hm => List.mem_append_left _ (hsorted hm))
      fun hm => List.mem_append_right _ (hsorted hm)
  obtain ⟨⟨y, sets⟩, hy, hold⟩ := exists_left_of_mem hx.methods.flip hmem
  exact ⟨y, sets, hy, hold⟩

end Gathered.HoldsMembers

end Dalvik
