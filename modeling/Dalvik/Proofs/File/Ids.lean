import Dalvik.File
import Dalvik.Proofs.File.Items
import Dalvik.Proofs.File.Sections

/-!
# The ids of a file stand one after another

All items of a section have the same size, so the layout of the ids tells where each one of them
stands, and a section of the ids is opened with the extent that the header has for it.
-/
namespace Dalvik
open Result

/-- Every item stands at its place in the section called `name`, in the bytes that `encode` gives
for it. -/
structure IdSection.Shows {α : Type} (s : IdSection) (name : String) (bytes : ByteArray)
    (encode : α → Result Bytes) (items : List α) : Prop where
  name_eq : s.name = name
  size : s.size = items.length
  stands : ∀ (i : Nat) (a : α), items[i]? = some a →
    ∃ b, encode a = .ok b ∧ b.Stands bytes (s.offset + i * s.itemSize)

theorem length_flatten_of_forall {parts : List Bytes} {size : Nat}
    (h : ∀ p ∈ parts, p.length = size) : parts.flatten.length = parts.length * size := by
  induction parts with
  | nil => simp
  | cons p parts ih =>
    have hrest := ih fun q hq => h q (by simp [hq])
    rw [List.flatten_cons, List.length_append, h p (by simp), hrest, List.length_cons, Nat.succ_mul,
      Nat.add_comm]

/-- The parts lie at an offset inside of the bytes. -/
def LieAt (parts : List Bytes) (bytes : ByteArray) (offset : Nat) : Prop :=
  Bytes.Stands parts.flatten bytes offset ∧ offset + parts.flatten.length ≤ bytes.size

/-- The items of a list in bytes, all of the same size. -/
structure Encodes {α : Type} (encode : α → Result Bytes) (size : Nat) (items : List α)
    (parts : List Bytes) : Prop where
  each : List.Forall₂ (fun a b => encode a = .ok b) items parts
  sizes : ∀ p ∈ parts, p.length = size

namespace Encodes

variable {α : Type} {encode : α → Result Bytes} {size : Nat} {items : List α} {parts : List Bytes}

theorem length (h : Encodes encode size items parts) : parts.flatten.length = items.length * size := by
  rw [length_flatten_of_forall h.sizes, h.each.length_eq]

theorem of_mapM (h : items.mapM encode = .ok parts) (hsize : ∀ a b, encode a = .ok b → b.length = size) :
    Encodes encode size items parts := by
  have heach := mapM_eq_ok.mp h
  refine ⟨heach, fun p hp => ?_⟩
  obtain ⟨a, -, ha⟩ := exists_left_of_mem heach hp
  exact hsize a p ha

/-- A section that the header or the map tells the extent of is opened and shows its items. -/
theorem exists_section (h : Encodes encode size items parts) (hsize : 0 < size) (name : String)
    {bytes : ByteArray} {offset : Nat} (hd : bytes.size < UInt32.size)
    (hlie : LieAt parts bytes offset) :
    ∃ s, IdSection.build name (Extent.of items.length offset) size bytes.size = .ok s ∧
      s.Shows name bytes encode items := by
  obtain ⟨hs, hfit⟩ := hlie
  have hlength := h.length
  unfold Extent.of IdSection.build
  by_cases hzero : items.length = 0
  · rw [if_pos hzero]
    refine ⟨⟨name, 0, 0, size⟩, rfl, rfl, hzero.symm, ?_⟩
    intro i a ha
    have hi := (List.getElem?_eq_some_iff.mp ha).1
    omega
  · have hcount : items.length * 1 ≤ items.length * size := Nat.mul_le_mul_left _ hsize
    have hn : (UInt32.ofNat items.length).toNat = items.length :=
      UInt32.toNat_ofNat_of_lt' (by omega)
    have ho : (UInt32.ofNat offset).toNat = offset := UInt32.toNat_ofNat_of_lt' (by omega)
    rw [if_neg hzero]
    dsimp only
    rw [hn, ho, if_neg (by omega)]
    refine ⟨_, rfl, rfl, rfl, ?_⟩
    intro i a ha
    have hi := (List.getElem?_eq_some_iff.mp ha).1
    have hip : i < parts.length := h.each.length_eq ▸ hi
    have heach := List.forall₂_iff_get.mp h.each
    refine ⟨parts[i], ?_, hs.getElem?_flatten h.sizes (List.getElem?_eq_getElem hip)⟩
    have hget := heach.2 i hi hip
    rw [List.getElem?_eq_getElem hi] at ha
    cases ha
    exact hget

end Encodes

namespace Contents

variable {c : Contents} {d : Data} {ids : Bytes}

/-- The items of all ids in bytes. -/
structure IdParts where
  strings : List Bytes
  types : List Bytes
  protos : List Bytes
  fields : List Bytes
  methods : List Bytes
  classes : List Bytes
  callSites : List Bytes
  methodHandles : List Bytes

def IdParts.bytes (p : IdParts) : Bytes :=
  p.strings.flatten ++ p.types.flatten ++ p.protos.flatten ++ p.fields.flatten ++
    p.methods.flatten ++ p.classes.flatten ++ p.callSites.flatten ++ p.methodHandles.flatten

def encodeString (p : Placed) : Result Bytes := .ok (Bytes.u4 (UInt32.ofNat p.offset))

def encodeProto (c : Contents) (d : Data) (p : ProtoId) : Result Bytes :=
  IdItem.Proto.encode <$> c.protoItem d p

def encodeField (r : Resolver) (f : FieldId) : Result Bytes := IdItem.Member.encode <$> fieldItem r f

def encodeMethod (r : Resolver) (m : MethodId) : Result Bytes :=
  IdItem.Member.encode <$> methodItem r m

def encodeClass (r : Resolver) (d : Data) (e : ClassEntry × Nat) : Result Bytes :=
  IdItem.Class.encode <$> classItem r d e.1 e.2

def encodeHandle (r : Resolver) (h : MethodHandle) : Result Bytes :=
  IdItem.Handle.encode <$> handleItem r h

/-- The parts are those of the contents. -/
structure IdParts.Encode (p : IdParts) (c : Contents) (d : Data) : Prop where
  strings : Encodes encodeString IdItem.stringSize d.strings.items p.strings
  types : Encodes (typeItem c.resolver) IdItem.typeSize c.pools.types.toList p.types
  protos : Encodes (c.encodeProto d) IdItem.Proto.size c.pools.protos.toList p.protos
  fields : Encodes (encodeField c.resolver) IdItem.Member.size c.pools.fields.toList p.fields
  methods : Encodes (encodeMethod c.resolver) IdItem.Member.size c.pools.methods.toList p.methods
  classes : Encodes (encodeClass c.resolver d) IdItem.Class.size c.classes.zipIdx p.classes
  callSites : Encodes (c.callSiteItem d) IdItem.callSiteSize c.pools.callSites.toList p.callSites
  methodHandles : Encodes (encodeHandle c.resolver) IdItem.Handle.size c.pools.methodHandles.toList
    p.methodHandles

theorem exists_parts (h : c.encodeIds d = .ok ids) : ∃ p : IdParts, p.Encode c d ∧ p.bytes = ids := by
  obtain ⟨types, htypes, h⟩ := bind_eq_ok.mp h
  obtain ⟨protos, hprotos, h⟩ := bind_eq_ok.mp h
  obtain ⟨fields, hfields, h⟩ := bind_eq_ok.mp h
  obtain ⟨methods, hmethods, h⟩ := bind_eq_ok.mp h
  obtain ⟨classes, hclasses, h⟩ := bind_eq_ok.mp h
  obtain ⟨callSites, hcallSites, h⟩ := bind_eq_ok.mp h
  obtain ⟨methodHandles, hmethodHandles, h⟩ := bind_eq_ok.mp h
  obtain rfl := pure_eq_ok.mp h
  have word {x : Result UInt32} {b : Bytes} (hb : (do return Bytes.u4 (← x)) = .ok b) :
      b.length = 4 := by
    obtain ⟨i, -, hb⟩ := bind_eq_ok.mp hb
    rw [← pure_eq_ok.mp hb]
    rfl
  have mapped {α β : Type} {item : α → Result β} {encode : β → Bytes} {size : Nat} {as : List α}
      {bs : List β} (has : as.mapM item = .ok bs) (hsize : ∀ b, (encode b).length = size) :
      Encodes (fun a => encode <$> item a) size as (bs.map encode) := by
    have heach := mapM_eq_ok.mp has
    refine ⟨List.forall₂_map_right_iff.mpr (heach.imp fun a b hab => by rw [hab]; rfl), ?_⟩
    simp only [List.mem_map, forall_exists_index, and_imp, forall_apply_eq_imp_iff₂]
    exact fun b _ => hsize b
  refine ⟨⟨d.strings.items.map fun p => Bytes.u4 (UInt32.ofNat p.offset), types,
    protos.map IdItem.Proto.encode, fields.map IdItem.Member.encode,
    methods.map IdItem.Member.encode, classes.map IdItem.Class.encode, callSites,
    methodHandles.map IdItem.Handle.encode⟩, ?_, ?_⟩
  · exact {
      strings := by
        refine ⟨List.forall₂_map_right_iff.mpr (List.forall₂_same.mpr fun _ _ => rfl), ?_⟩
        simp [IdItem.stringSize]
      types := .of_mapM htypes fun _ _ hb => word hb
      protos := mapped hprotos fun _ => rfl
      fields := mapped hfields fun _ => rfl
      methods := mapped hmethods fun _ => rfl
      classes := by
        have hclasses : c.classes.zipIdx.mapM (fun e => classItem c.resolver d e.1 e.2) =
            .ok classes := by
          apply mapM_eq_ok.mpr
          exact (mapM_eq_ok.mp hclasses).imp fun _ _ he => within_eq_ok_iff.mp he
        exact mapped hclasses fun _ => rfl
      callSites := .of_mapM hcallSites fun _ _ hb => word hb
      methodHandles := mapped hmethodHandles fun _ => rfl }
  · simp only [IdParts.bytes, List.flatMap_def]

/-- Every id can be encoded. -/
structure Encodable (c : Contents) (d : Data) : Prop where
  types : ∀ t ∈ c.pools.types.toList, ∃ part, typeItem c.resolver t = .ok part
  protos : ∀ p ∈ c.pools.protos.toList, ∃ item, c.protoItem d p = .ok item
  fields : ∀ f ∈ c.pools.fields.toList, ∃ item, fieldItem c.resolver f = .ok item
  methods : ∀ m ∈ c.pools.methods.toList, ∃ item, methodItem c.resolver m = .ok item
  classes : ∀ e ∈ c.classes.zipIdx, ∃ item, classItem c.resolver d e.1 e.2 = .ok item
  callSites : ∀ s ∈ c.pools.callSites.toList, ∃ part, c.callSiteItem d s = .ok part
  methodHandles : ∀ h ∈ c.pools.methodHandles.toList, ∃ item, handleItem c.resolver h = .ok item

theorem Encodable.exists_ids (h : c.Encodable d) : ∃ ids, c.encodeIds d = .ok ids := by
  obtain ⟨types, htypes⟩ := exists_mapM_eq_ok h.types
  obtain ⟨protos, hprotos⟩ := exists_mapM_eq_ok h.protos
  obtain ⟨fields, hfields⟩ := exists_mapM_eq_ok h.fields
  obtain ⟨methods, hmethods⟩ := exists_mapM_eq_ok h.methods
  obtain ⟨callSites, hcallSites⟩ := exists_mapM_eq_ok h.callSites
  obtain ⟨handles, hhandles⟩ := exists_mapM_eq_ok h.methodHandles
  have hclass : ∀ e ∈ c.classes.zipIdx, ∃ item,
      (classItem c.resolver d e.1 e.2).within (toString e.1.definition) = .ok item := fun e he => by
    obtain ⟨item, hitem⟩ := h.classes e he
    exact ⟨item, within_eq_ok_iff.mpr hitem⟩
  obtain ⟨classes, hclasses⟩ := exists_mapM_eq_ok hclass
  exact ⟨_, bind_eq_ok.mpr ⟨types, htypes, bind_eq_ok.mpr ⟨protos, hprotos,
    bind_eq_ok.mpr ⟨fields, hfields, bind_eq_ok.mpr ⟨methods, hmethods,
      bind_eq_ok.mpr ⟨classes, hclasses, bind_eq_ok.mpr ⟨callSites, hcallSites,
        bind_eq_ok.mpr ⟨handles, hhandles, rfl⟩⟩⟩⟩⟩⟩⟩⟩

/-! ## Where the ids stand -/

/-- The parts of the ids lie where the layout says. -/
structure IdParts.Lie (p : IdParts) (l : IdLayout) (bytes : ByteArray) : Prop where
  strings : LieAt p.strings bytes l.strings
  types : LieAt p.types bytes l.types
  protos : LieAt p.protos bytes l.protos
  fields : LieAt p.fields bytes l.fields
  methods : LieAt p.methods bytes l.methods
  classes : LieAt p.classes bytes l.classes
  callSites : LieAt p.callSites bytes l.callSites
  methodHandles : LieAt p.methodHandles bytes l.methodHandles

variable {p : IdParts} {bytes : ByteArray} {start : Nat}

/-- The sizes of the parts are those that the layout counts with. -/
theorem IdParts.Encode.stop_eq (h : p.Encode c d)
    (hstrings : d.strings.items.length = c.pools.strings.size) (start : Nat) :
    start + p.bytes.length = (c.layout start).stop := by
  have types := h.types.length
  have protos := h.protos.length
  have fields := h.fields.length
  have methods := h.methods.length
  have classes := h.classes.length
  have callSites := h.callSites.length
  have methodHandles := h.methodHandles.length
  have strings := h.strings.length
  rw [hstrings] at strings
  rw [ItemSet.length_toList] at types protos fields methods callSites methodHandles
  rw [List.length_zipIdx] at classes
  simp only [layout, IdParts.bytes, List.length_append]
  omega

theorem IdParts.Encode.lie (h : p.Encode c d)
    (hstrings : d.strings.items.length = c.pools.strings.size) (hs : p.bytes.Stands bytes start)
    (hfit : start + p.bytes.length ≤ bytes.size) : p.Lie (c.layout start) bytes := by
  have lie {parts : List Bytes} {i j : Nat} (hs : Bytes.Stands parts.flatten bytes i) (hij : i = j)
      (hfit : i + parts.flatten.length ≤ bytes.size) : LieAt parts bytes j := by
    subst hij
    exact ⟨hs, hfit⟩
  have strings := h.strings.length
  have types := h.types.length
  have protos := h.protos.length
  have fields := h.fields.length
  have methods := h.methods.length
  have classes := h.classes.length
  have callSites := h.callSites.length
  rw [hstrings] at strings
  rw [ItemSet.length_toList] at types protos fields methods callSites
  rw [List.length_zipIdx] at classes
  simp only [IdParts.bytes, List.length_append] at hfit
  rw [IdParts.bytes] at hs
  have methodHandlesAt := hs.right
  have callSitesAt := hs.left.right
  have classesAt := hs.left.left.right
  have methodsAt := hs.left.left.left.right
  have fieldsAt := hs.left.left.left.left.right
  have protosAt := hs.left.left.left.left.left.right
  have typesAt := hs.left.left.left.left.left.left.right
  simp only [List.length_append] at methodHandlesAt callSitesAt classesAt methodsAt fieldsAt
  simp only [List.length_append] at protosAt typesAt
  exact {
    strings := lie hs.left.left.left.left.left.left.left rfl (by omega)
    types := lie typesAt (by simp only [layout]; omega) (by omega)
    protos := lie protosAt (by simp only [layout]; omega) (by omega)
    fields := lie fieldsAt (by simp only [layout]; omega) (by omega)
    methods := lie methodsAt (by simp only [layout]; omega) (by omega)
    classes := lie classesAt (by simp only [layout]; omega) (by omega)
    callSites := lie callSitesAt (by simp only [layout]; omega) (by omega)
    methodHandles := lie methodHandlesAt (by simp only [layout]; omega) (by omega) }

end Contents

end Dalvik
