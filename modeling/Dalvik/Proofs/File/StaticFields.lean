import Dalvik.Proofs.File.Container
import Dalvik.Proofs.File.RoundTrip
import Dalvik.Proofs.File.Uses
import Dalvik.Proofs.Placement.Decoders

/-!
# Initial values of static fields

Values at the end of the list are not stored where they are defaults, and reading takes the default
of the field's type where a value is missing. The two fit together exactly if every value that is
left out is the default of its field's type: whether a value is left out is decided by the value
alone.
-/
namespace Dalvik
open Result

/-! ## Static fields in a file -/

namespace DexFile

/-- The static fields at the beginning of the data of a class, with the values that are stored. -/
def decodeStaticFields (f : DexFile) (index : Nat) (a : Annotations) (values : List Value) :
    Decoder (List FieldDef) := do
  let count := (← Decoder.uleb).toNat
  let _ ← Decoder.uleb
  let _ ← Decoder.uleb
  let _ ← Decoder.uleb
  (f.decodeFields a count none (some values)).run' (← f.firstRestriction index)

/-- The static fields of the class with an index. -/
def staticFields (f : DexFile) (index : Nat) : Result (List FieldDef) := do
  let position ← f.classes.position (UInt32.ofNat index)
  let i ← IdItem.Class.decode.valueAt f.bytes position
  let a ← f.annotations i.annotations
  let values ← f.staticValues i.staticValues
  if i.data = 0 then return []
  (f.decodeStaticFields index a values).valueAt f.data i.data.toNat

/-! ## Steps that succeed -/

section
variable {α β : Type} {place : Option Nat} {bytes : ByteArray} {index after : Nat} {b : β}

theorem memberBind_eq_ok {step : MemberDecoder α} {next : α → MemberDecoder β}
    {x : β × Option Nat} : (step >>= next) place bytes index = .ok x after ↔
      ∃ a between stop, step place bytes index = .ok (a, between) stop ∧
        next a between bytes stop = .ok x after := by
  refine Decoder.bind_eq_ok.trans ⟨?_, ?_⟩
  · rintro ⟨⟨a, between⟩, stop, h⟩
    exact ⟨a, between, stop, h⟩
  · rintro ⟨a, between, stop, h⟩
    exact ⟨(a, between), stop, h⟩

theorem memberLift_eq_ok {d : Decoder α} {next : α → MemberDecoder β} {x : β × Option Nat} :
    (liftM d >>= next) place bytes index = .ok x after ↔
      ∃ a stop, d bytes index = .ok a stop ∧ next a place bytes stop = .ok x after := by
  refine memberBind_eq_ok.trans ⟨?_, ?_⟩
  · rintro ⟨a, between, stop, hd, h⟩
    obtain ⟨_, _, hd, hpure⟩ := Decoder.bind_eq_ok.mp hd
    cases hpure
    exact ⟨_, _, hd, h⟩
  · rintro ⟨a, stop, hd, h⟩
    exact ⟨a, place, stop, Decoder.bind_eq_ok.mpr ⟨a, stop, hd, rfl⟩, h⟩

theorem memberRun_eq_ok {step : MemberDecoder β} :
    (step.run' place) bytes index = .ok b after ↔
      ∃ stop, step place bytes index = .ok (b, stop) after := by
  change (step place >>= fun x => pure x.1) bytes index = _ ↔ _
  refine Decoder.bind_eq_ok.trans ⟨?_, ?_⟩
  · rintro ⟨⟨a, stop⟩, _, h, hpure⟩
    cases hpure
    exact ⟨stop, h⟩
  · rintro ⟨stop, h⟩
    exact ⟨(b, stop), after, h, rfl⟩

end

/-- The fields start with the values as long as there are some, and with the defaults of their types
from then on. -/
def Filled (values : List Value) (fields : List FieldDef) : Prop :=
  ∀ (k : Nat) (z : FieldDef), fields[k]? = some z → (∀ v, values[k]? = some v → z.value = some v) ∧
    (values[k]? = none → ∃ v, Value.defaultFor z.type = .ok v ∧ z.value = some v)

theorem filled_nil (values : List Value) : Filled values [] := by
  intro k z hz
  simp at hz

theorem Filled.cons {values : List Value} {fields : List FieldDef} {id : FieldId} {z : FieldDef}
    {v : Value} (htype : z.type = id.type) (hv : initialValue id values = .ok v)
    (hz : z.value = some v) (h : Filled values.tail fields) : Filled values (z :: fields) := by
  intro k y hy
  cases k with
  | zero =>
    obtain rfl := Option.some.inj hy
    cases values with
    | nil =>
      refine ⟨nofun, fun _ => ⟨v, ?_, hz⟩⟩
      rw [htype]
      exact within_eq_ok_iff.mp hv
    | cons w values =>
      obtain rfl := Except.ok.inj hv
      exact ⟨fun u hu => by rw [hz, hu.symm]; rfl, nofun⟩
  | succ k =>
    have hget : values.tail[k]? = values[k + 1]? := List.getElem?_tail
    rw [← hget]
    exact h k y hy

/-- Whatever fields are read, they are filled in this way. -/
theorem filled_of_decodeFields {f : DexFile} {a : Annotations} {count : Nat}
    {previous : Option UInt32} {values : List Value} {place stop : Option Nat} {bytes : ByteArray}
    {index after : Nat} {fields : List FieldDef}
    (h : f.decodeFields a count previous (some values) place bytes index =
      .ok (fields, stop) after) :
    Filled values fields := by
  induction count generalizing previous values place index fields with
  | zero =>
    cases h
    exact filled_nil values
  | succ count ih =>
    obtain ⟨member, _, -, h⟩ := memberLift_eq_ok.mp h
    obtain ⟨id, _, -, h⟩ := memberLift_eq_ok.mp h
    obtain ⟨stored, _, -, h⟩ := memberLift_eq_ok.mp h
    obtain ⟨⟨access, restriction⟩, _, _, -, h⟩ := memberBind_eq_ok.mp h
    obtain ⟨value, _, hvalue, h⟩ := memberLift_eq_ok.mp h
    obtain ⟨rest, _, _, hrest, h⟩ := memberBind_eq_ok.mp h
    cases h
    obtain ⟨hvalue, -⟩ := Decoder.lift_eq_ok.mp hvalue
    obtain ⟨v, hv, hsome⟩ := map_eq_ok.mp hvalue
    exact (ih hrest).cons rfl hv hsome.symm

/-- Static fields that are read have been read one by one. -/
theorem exists_decodeFields {f : DexFile} {n : Nat} {a : Annotations} {values : List Value}
    {bytes : ByteArray} {index : Nat} {fields : List FieldDef}
    (h : (f.decodeStaticFields n a values).valueAt bytes index = .ok fields) :
    ∃ count place start stop after,
      f.decodeFields a count none (some values) place bytes start = .ok (fields, stop) after := by
  obtain ⟨_, h⟩ := Decoder.valueAt_eq_ok.mp h
  obtain ⟨_, _, -, h⟩ := Decoder.bind_eq_ok.mp h
  obtain ⟨_, _, -, h⟩ := Decoder.bind_eq_ok.mp h
  obtain ⟨_, _, -, h⟩ := Decoder.bind_eq_ok.mp h
  obtain ⟨_, _, -, h⟩ := Decoder.bind_eq_ok.mp h
  obtain ⟨_, -, h⟩ := Decoder.lift_bind_eq_ok.mp h
  obtain ⟨_, h⟩ := memberRun_eq_ok.mp h
  exact ⟨_, _, _, _, _, h⟩

theorem filled_of_decodeStaticFields {f : DexFile} {n : Nat} {a : Annotations}
    {values : List Value} {bytes : ByteArray} {index : Nat} {fields : List FieldDef}
    (h : (f.decodeStaticFields n a values).valueAt bytes index = .ok fields) :
    Filled values fields := by
  obtain ⟨_, _, _, _, _, h⟩ := exists_decodeFields h
  exact filled_of_decodeFields h

/-- A class without members is read from its definition, and the members from its data. -/
theorem exists_of_classDef {f : DexFile} {index : Nat} {x : ClassDef}
    (h : f.classDef index = .ok x) : ∃ position i a values y,
      f.classes.position (UInt32.ofNat index) = .ok position ∧
      IdItem.Class.decode.valueAt f.bytes position = .ok i ∧
      f.annotations i.annotations = .ok a ∧ f.staticValues i.staticValues = .ok values ∧
      y.fields = [] ∧ y.methods = [] ∧ y.annotations = a.ofClass ∧
      (if i.data = 0 then .ok y
        else (f.decodeMembers index a values y).valueAt f.data i.data.toNat) = .ok x := by
  obtain ⟨position, hposition, h⟩ := bind_eq_ok.mp h
  obtain ⟨i, hi, h⟩ := bind_eq_ok.mp (within_eq_ok_iff.mp h)
  obtain ⟨type, -, h⟩ := bind_eq_ok.mp h
  obtain ⟨superclass, -, h⟩ := bind_eq_ok.mp h
  obtain ⟨interfaces, -, h⟩ := bind_eq_ok.mp h
  obtain ⟨sourceFile, -, h⟩ := bind_eq_ok.mp h
  obtain ⟨a, ha, h⟩ := bind_eq_ok.mp h
  obtain ⟨values, hvalues, h⟩ := bind_eq_ok.mp h
  refine ⟨position, i, a, values, ⟨type, i.access, superclass, interfaces, sourceFile, [], [], [],
    [], a.ofClass⟩, hposition, hi, ha, hvalues, rfl, rfl, rfl, ?_⟩
  by_cases hdata : i.data = 0
  · rw [if_pos hdata] at h ⊢
    exact h
  · rw [if_neg hdata] at h ⊢
    exact within_eq_ok_iff.mp (within_eq_ok_iff.mp h)

/-- The static fields of a class that is read. -/
theorem staticFields_of_classDef {f : DexFile} {index : Nat} {x : ClassDef}
    (h : f.classDef index = .ok x) : f.staticFields index = .ok x.staticFields := by
  obtain ⟨position, i, a, values, y, hposition, hi, ha, hvalues, hfields, -, -, h⟩ :=
    exists_of_classDef h
  refine bind_eq_ok.mpr ⟨_, hposition, bind_eq_ok.mpr ⟨_, hi, bind_eq_ok.mpr ⟨_, ha,
    bind_eq_ok.mpr ⟨_, hvalues, ?_⟩⟩⟩⟩
  by_cases hdata : i.data = 0
  · rw [if_pos hdata] at h ⊢
    obtain rfl := Except.ok.inj h
    exact congrArg Except.ok (List.append_eq_nil_iff.mp hfields).1.symm
  · rw [if_neg hdata] at h ⊢
    obtain ⟨after, h⟩ := Decoder.valueAt_eq_ok.mp h
    obtain ⟨staticCount, _, hstatic, h⟩ := Decoder.bind_eq_ok.mp h
    obtain ⟨instanceCount, _, hinstance, h⟩ := Decoder.bind_eq_ok.mp h
    obtain ⟨directCount, _, hdirect, h⟩ := Decoder.bind_eq_ok.mp h
    obtain ⟨virtualCount, _, hvirtual, h⟩ := Decoder.bind_eq_ok.mp h
    obtain ⟨room, _, hroom, h⟩ := Decoder.bind_eq_ok.mp h
    cases hroom
    dsimp only at h
    split at h
    · cases h
    · obtain ⟨place, hplace, h⟩ := Decoder.lift_bind_eq_ok.mp h
      obtain ⟨_, h⟩ := memberRun_eq_ok.mp h
      obtain ⟨fields, _, stop, hfields, h⟩ := memberBind_eq_ok.mp h
      obtain ⟨_, _, _, -, h⟩ := memberBind_eq_ok.mp h
      obtain ⟨_, _, _, -, h⟩ := memberBind_eq_ok.mp h
      obtain ⟨_, _, _, -, h⟩ := memberBind_eq_ok.mp h
      cases h
      refine Decoder.valueAt_eq_ok.mpr ⟨stop, ?_⟩
      refine Decoder.bind_eq_ok.mpr ⟨_, _, hstatic, Decoder.bind_eq_ok.mpr ⟨_, _, hinstance,
        Decoder.bind_eq_ok.mpr ⟨_, _, hdirect, Decoder.bind_eq_ok.mpr ⟨_, _, hvirtual, ?_⟩⟩⟩⟩
      exact Decoder.lift_bind_eq_ok.mpr ⟨_, hplace, memberRun_eq_ok.mpr ⟨_, hfields⟩⟩

end DexFile

/-! ## Values that are left out -/

/-- The field that was read starts with the value that was given, or else with the default of its
type. -/
structure FieldDef.Restores (y z : FieldDef) : Prop where
  name : z.name = y.name
  type : z.type = y.type
  given : ∀ v ∈ y.value, z.value = some v.sorted
  absent : y.value = none → ∃ v, Value.defaultFor y.type = .ok v ∧ z.value = some v

/-- A field that is read with its initial value is restored. -/
theorem FieldEntry.restores_readAs {y : FieldEntry} {v : Value} (h : y.initial = .ok v)
    (o : WriteOptions) : y.definition.Restores (y.definition.readAs o y.definition.initial) where
  name := rfl
  type := rfl
  given := fun w hw => by
    change y.definition.initial = _
    rw [FieldDef.initial, hw]
  absent := fun hnone => by
    have hdefault : Value.defaultFor y.definition.type = .ok v := by
      rwa [FieldEntry.initial, hnone] at h
    refine ⟨v, hdefault, ?_⟩
    change y.definition.initial = _
    rw [FieldDef.initial, hnone]
    exact toOption_eq_some.mpr hdefault

namespace Value

theorem sorted_of_isDefault {v : Value} (h : v.isDefault) : v.sorted = v := by
  cases v with
  | array | annotated => cases h
  | _ => simp only [sorted]

theorem isDefault_of_defaultFor {t : TypeId} {v : Value} (h : defaultFor t = .ok v) :
    v.isDefault := by
  unfold defaultFor at h
  split at h <;> cases h <;> rfl

/-- Nothing is kept of defaults at the end. -/
theorem length_trimDefaults_le (front : List Value) {rest : List Value}
    (h : ∀ v ∈ rest, v.isDefault) :
    (trimDefaults (front ++ rest)).length ≤ front.length := by
  have hrest : ∀ v ∈ rest.reverse, v.isDefault := fun v hv => h v (List.mem_reverse.mp hv)
  rw [trimDefaults, List.length_reverse, List.reverse_append, List.dropWhile_append_of_pos hrest]
  exact (List.dropWhile_sublist _).length_le.trans_eq List.length_reverse

end Value

theorem FieldEntry.isDefault {y : FieldEntry} {v : Value} (h : y.initial = .ok v)
    (hd : ∀ w ∈ y.definition.value, w.isDefault) : v.isDefault := by
  unfold FieldEntry.initial at h
  cases hvalue : y.definition.value with
  | some w =>
    rw [hvalue] at h
    cases h
    exact hd v hvalue
  | none =>
    rw [hvalue] at h
    exact Value.isDefault_of_defaultFor h

namespace DexFile

theorem Filled.exists_default {values : List Value} {fields : List FieldDef}
    (h : Filled values fields) {n : Nat} (hn : values.length ≤ n) {z : FieldDef} (hz : z ∈ fields.drop n) :
    ∃ v, Value.defaultFor z.type = .ok v ∧ z.value = some v := by
  obtain ⟨k, hk⟩ := List.mem_iff_getElem?.mp hz
  rw [List.getElem?_drop] at hk
  exact (h _ z hk).2 (List.getElem?_eq_none (by omega))

/-- If all fields are restored, then what was left out were defaults of the fields' types. -/
theorem typed_of_restored {x : ClassDef} {values : List Value} {fields : List FieldDef}
    (hvalues : List.Forall₂ (fun y v => y.initial = .ok v) (Gather.fieldEntries x x.staticFields)
      values) (hfilled : Filled ((Value.trimDefaults values).map Value.sorted) fields)
    (hrestored : List.Forall₂ FieldDef.Restores (sortedBy (byKey compare x.fieldId) x.staticFields)
      fields) : x.Typed := by
  rintro rest ⟨front, hall⟩ hdefault y hy v hv hd
  rw [Gather.fieldEntries_eq, List.forall₂_map_left_iff, ← hall] at hvalues
  rw [← hall] at hrestored
  have htail : ∀ w ∈ values.drop front.length, w.isDefault := by
    intro w hw
    obtain ⟨z, hz, hinitial⟩ :=
      exists_left_of_mem (List.forall₂_drop_append _ _ _ hvalues.flip).flip hw
    exact FieldEntry.isDefault hinitial (hdefault z hz)
  have hfront : (values.take front.length).length = front.length := by
    have hlength := hvalues.length_eq
    rw [List.length_append] at hlength
    rw [List.length_take, Nat.min_eq_left (by omega)]
  have hkept := Value.length_trimDefaults_le (values.take front.length) htail
  rw [List.take_append_drop, hfront] at hkept
  obtain ⟨z, hz, hyz⟩ := exists_left_of_mem (List.forall₂_drop_append _ _ _ hrestored.flip) hy
  have hyz : y.Restores z := hyz
  obtain ⟨w, hw, hzw⟩ := hfilled.exists_default (by rwa [List.length_map]) hz
  -- the field was given its value, and read with the default of its type
  have hgiven := hyz.given v hv
  rw [Value.sorted_of_isDefault hd, hzw] at hgiven
  rw [← hyz.type, hw, Option.some.inj hgiven]

/-! ## What is read of a class -/

section
variable {f : DexFile} {o : WriteOptions} {c : Contents} {d : Contents.Data} {g : Gathered}
  {dex : Dex} (h : f.Holds o c d) (hp : c.pools.Short)
  (hm : ∀ m ∈ c.pools.methodHandles.toList, m.IsConsistent) (hn : c.Shallow)
  (hf : g.Fills o dex c)
include h hp hm hn hf

/-- The static fields of a class are read with its annotations and with the values that are kept. -/
theorem exists_staticFields {index : Nat} {x : ClassDef} (hx : dex.classes[index]? = some x) :
    ∃ e a i values, c.classes[index]? = some e ∧ g.HoldsClass o x e ∧
      (∀ y ∈ e.fields, FieldGiven c.resolver o a y) ∧
      List.Forall₂ (fun y v => y.initial = .ok v) (Gather.fieldEntries x x.staticFields) values ∧
      i = UInt32.ofNat ((d.classData.items[index]?.map Placed.offset).getD 0) ∧
      f.staticFields index = if i = 0 then .ok [] else
        (f.decodeStaticFields index a ((Value.trimDefaults values).map Value.sorted)).valueAt f.data
          i.toNat := by
  have hnat : (UInt32.ofNat index).toNat = index := by
    have hlt := (List.getElem?_eq_some_iff.mp hx).1
    have hcount := h.classCount
    rw [← hf.classes.length_eq] at hcount
    exact UInt32.toNat_ofNat_of_lt' (by omega)
  have hget : dex.classes[(UInt32.ofNat index).toNat]? = some x := by rwa [hnat]
  obtain ⟨e, i, hdefines⟩ := exists_defines h hf hget
  have hhold := hdefines.holds
  obtain ⟨ofClass, fields, methods, hmembers, hdirectory⟩ := hhold.members
  obtain ⟨a, ha, htells⟩ := exists_annotations h hp hm hn hf.items (hmembers.nodup_fieldIds hhold)
    (hmembers.nodup_methodIds hhold) hdirectory hdefines.annotations
  obtain ⟨values, hvalues, hplace⟩ := hhold.values
  have hstored := staticValues_eq h hp hm hn hf.items hplace hdefines.staticValues
  have hdata := hdefines.data
  rw [hhold.staticFields] at hvalues
  rw [hnat] at hdata
  refine ⟨e, a, i.data, values, hnat ▸ hdefines.entry, hhold,
    fun y hy => fieldGiven hmembers htells hhold hy, mapM_eq_ok.mp hvalues, hdata, ?_⟩
  obtain ⟨position, hposition, hitem⟩ := bind_eq_ok.mp (toOption_eq_some.mp hdefines.item)
  obtain ⟨-, -, hitem⟩ := bind_eq_ok.mp hitem
  rw [staticFields, hposition, ok_bind, hitem, ok_bind, ha, ok_bind, hstored, ok_bind]
  rfl

omit hm hn in
/-- The static fields at the beginning of the data of a class. -/
theorem decodeStaticFields_reads {index : Nat} {e : ClassEntry} (he : c.classes[index]? = some e)
    {x : ClassDef} (hx : g.HoldsClass o x e) {a : Annotations}
    (hgiven : ∀ y ∈ e.fields, FieldGiven c.resolver o a y) {value : FieldDef → Option Value}
    {values : List Value} (hinitial : Initial value (some values) e.staticFields) {part : Bytes}
    (hpart : Contents.encodeClassData c.resolver o d.code e = .ok part)
    (hl : part.length < UInt32.size) {n : Nat} (hs : part.Stands f.data n) :
    (f.decodeStaticFields index a values).valueAt f.data n =
      .ok (e.staticFields.map fun y => y.definition.readAs o (value y.definition)) := by
  obtain ⟨place, hplace, hkeeps⟩ := exists_place h he
  have hcounted := Contents.counted_of_encodeClassData hpart hl
  obtain ⟨staticFields, _, _, _, hstaticFields, -, -, -, rfl⟩ :=
    Contents.exists_of_encodeClassData hpart
  have hstatic := decodeFields_reads h hp none
    (fun y hy => hgiven y (List.mem_append_left _ hy)) (hf.inOrder hp hx).staticFields hinitial
    hstaticFields
  rw [ClassEntry.fields, List.map_append, List.append_assoc] at hkeeps
  obtain ⟨after, -, hread⟩ := hstatic place _ hkeeps
  simp only [← List.append_assoc] at hs
  have hs := hs.left.left.left
  simp only [List.append_assoc] at hs
  refine Decoder.Reads.valueAt ?_ hs
  apply e.counts_reads
  rw [hcounted.staticFields]
  exact .lift hplace (hread.map (g := Prod.fst))

omit hm hn in
/-- If the values that are left out are the defaults of the fields' types, then every field is read
with its initial value. -/
theorem staticFields_eq_of_typed {index : Nat} {x : ClassDef} (htyped : x.Typed) {e : ClassEntry}
    {a : Annotations} {i : UInt32} {values : List Value}
    (he : c.classes[index]? = some e) (hhold : g.HoldsClass o x e)
    (hgiven : ∀ y ∈ e.fields, FieldGiven c.resolver o a y)
    (hvalues : List.Forall₂ (fun y v => y.initial = .ok v) (Gather.fieldEntries x x.staticFields)
      values)
    (hi : i = UInt32.ofNat ((d.classData.items[index]?.map Placed.offset).getD 0))
    (hread : f.staticFields index = if i = 0 then .ok [] else
      (f.decodeStaticFields index a ((Value.trimDefaults values).map Value.sorted)).valueAt f.data
        i.toNat) :
    f.staticFields index =
      .ok (e.staticFields.map fun y => y.definition.readAs o y.definition.initial) := by
  have hshows := h.data.classData index e he
  split at hshows
  · obtain ⟨p, part, hget, hpart, hstands, hpos, hle⟩ := hshows
    have hfit := h.small
    have hnat : (UInt32.ofNat p.offset).toNat = p.offset := UInt32.toNat_ofNat_of_lt' (by omega)
    have hne := ofNat_ne_zero hpos (by omega : p.offset < UInt32.size)
    have hinside := hstands.length_le
    obtain ⟨tail, htail, hdefault⟩ := Gather.exists_trim Value.isDefault values
    have hall : List.Forall₂ (fun y v => y.initial = .ok v)
        (Gather.fieldEntries x x.staticFields) (Value.trimDefaults values ++ tail) :=
      htail ▸ hvalues
    have hinitial := initial_append hall hdefault (fun y hy => by
      rw [Gather.fieldEntries_eq] at hy
      obtain ⟨z, -, rfl⟩ := List.mem_map.mp hy
      rfl) (htyped.of_tail hall hdefault)
    rw [← hhold.staticFields] at hinitial
    rw [hget, Option.map_some, Option.getD_some] at hi
    rw [hread, hi, if_neg hne, hnat]
    exact decodeStaticFields_reads h hp hf he hhold hgiven hinitial hpart (by omega) hstands
  next hdata =>
    -- a class without members has no data, and its list of static fields is empty
    simp only [ClassEntry.hasData, ClassEntry.fields, ClassEntry.methods, Bool.not_eq_true',
      Bool.not_eq_false, Bool.and_eq_true, List.isEmpty_iff, List.append_eq_nil_iff] at hdata
    rw [hshows] at hi
    rw [hread, hi, hdata.1.1]
    rfl

/-- Static fields are restored exactly if the values that are left out are the defaults of the fields'
types. -/
theorem restored_iff_typed {index : Nat} {x : ClassDef} (hx : dex.classes[index]? = some x) :
    (∃ fields, f.staticFields index = .ok fields ∧ List.Forall₂ FieldDef.Restores
      (sortedBy (byKey compare x.fieldId) x.staticFields) fields) ↔ x.Typed := by
  obtain ⟨e, a, i, values, he, hhold, hgiven, hvalues, hi, hread⟩ :=
    exists_staticFields h hp hm hn hf hx
  constructor
  · rintro ⟨fields, hfields, hrestored⟩
    refine typed_of_restored hvalues ?_ hrestored
    rw [hread] at hfields
    split at hfields
    · cases hfields
      exact filled_nil _
    · exact filled_of_decodeStaticFields hfields
  · intro htyped
    refine ⟨_, staticFields_eq_of_typed h hp hf htyped he hhold hgiven hvalues hi hread, ?_⟩
    rw [hhold.staticFields, Gather.fieldEntries_eq, List.map_map, List.forall₂_map_right_iff,
      List.forall₂_same]
    intro y hy
    rw [Gather.fieldEntries_eq, List.forall₂_map_left_iff] at hvalues
    obtain ⟨v, -, hinitial⟩ := exists_left_of_mem hvalues.flip hy
    exact FieldEntry.restores_readAs hinitial o

end

end DexFile

namespace Dex

variable {o : WriteOptions} {d : Dex} {start stop : Nat} {bytes : Bytes}

/-- In every file that is written, alone or in a container, the static fields of a class are read in
the order of their ids with the values that were given for them, and with the defaults of their types
where none were given, exactly if no default value of another type stands at the end of the list. -/
theorem exists_restored_of_written (h : Written o d start stop bytes) :
    ∃ (c : Contents) (f : DexFile), Contents.ofDex o d = .ok c ∧
      DexFile.ofBytes o.options bytes.toByteArray start = .ok f ∧
      ((∀ m ∈ c.pools.methodHandles.toList, m.IsConsistent) → ∀ index x,
        d.classes[index]? = some x →
          ((∃ fields, f.staticFields index = .ok fields ∧ List.Forall₂ FieldDef.Restores
            (sortedBy (byKey compare x.fieldId) x.staticFields) fields) ↔ x.Typed) ∧
          ∀ y, f.classDef index = .ok y → f.staticFields index = .ok y.staticFields) := by
  obtain ⟨length, rfl, c, data, rest, f, hofDex, hf, hlaid, rfl⟩ := h.laidIn
  obtain ⟨g, hg⟩ := Contents.fills_of_ofDex hofDex
  refine ⟨c, f, hofDex, hf, fun hm index x hx => ⟨?_, fun y => DexFile.staticFields_of_classDef⟩⟩
  exact DexFile.restored_iff_typed hlaid.holds (Contents.short_of_ofDex hofDex) hm
    (Contents.shallow_of_ofDex hofDex) hg hx

/-- A static field without a value. -/
theorem exists_restored_of_written_number : ∃ bytes f z,
    encode {} ⟨[numberClass 8 none]⟩ = .ok bytes ∧
      DexFile.ofBytes {} bytes.toByteArray 0 = .ok f ∧ f.staticFields 0 = .ok [z] ∧
      (numberField 8 none).Restores z := by
  have hstored : Contents.storedAccess {} 8 0 = .ok 8 := rfl
  have hb : Bytes.uleb 8 = [8] := by cbv
  obtain ⟨bytes, hbytes⟩ := exists_encode_number rfl Contents.ofDex_number_none hstored hb
  obtain ⟨c, f, hc, hf, hrestored⟩ := exists_restored_of_written (.alone hbytes)
  obtain rfl := Except.ok.inj (hc.symm.trans Contents.ofDex_number_none)
  have hsorted : sortedBy (byKey compare (numberClass 8 none).fieldId)
      (numberClass 8 none).staticFields = [numberField 8 none] := by cbv
  have htyped : (numberClass 8 none).Typed := by
    intro rest hrest _ y hy v hv
    have hy := hrest.mem hy
    rw [hsorted] at hy
    rw [List.mem_singleton.mp hy] at hv
    cases hv
  have hiff := (hrestored (fun m hm => absurd hm List.not_mem_nil) 0 (numberClass 8 none) rfl).1
  obtain ⟨fields, hfields, hrestored⟩ := hiff.mpr htyped
  rw [hsorted, List.forall₂_cons_left_iff] at hrestored
  obtain ⟨z, _, hz, hnil, rfl⟩ := hrestored
  obtain rfl := List.forall₂_nil_left_iff.mp hnil
  exact ⟨bytes, f, z, hbytes, hf, hfields, hz⟩

/-- A zero that is given as a byte is left out, and read as an integer. -/
theorem exists_staticFields_not_restored : ∃ bytes f z,
    encode {} ⟨[numberClass 8 (some (.byte 0))]⟩ = .ok bytes ∧
      DexFile.ofBytes {} bytes.toByteArray 0 = .ok f ∧ f.staticFields 0 = .ok [z] ∧
      z.value = some (.int 0) ∧ ¬ (numberField 8 (some (.byte 0))).Restores z := by
  have hstored : Contents.storedAccess {} 8 0 = .ok 8 := rfl
  have hb : Bytes.uleb 8 = [8] := by cbv
  obtain ⟨bytes, f, hbytes, hf, hdex⟩ :=
    exists_readAs_number rfl Contents.ofDex_number_byte hstored hb (v := .byte 0) rfl rfl
  obtain ⟨classes, hclasses, hdex⟩ := bind_eq_ok.mp hdex
  cases hdex
  have hclasses := mapM_eq_ok.mp hclasses
  have hone : f.classCount = 1 := by simpa using hclasses.length_eq
  rw [hone] at hclasses
  cases hclasses with
  | cons hclass _ =>
    refine ⟨bytes, f, _, hbytes, hf, DexFile.staticFields_of_classDef hclass, rfl, ?_⟩
    intro hrestores
    have hgiven := hrestores.given (.byte 0) rfl
    cases hgiven

end Dex

end Dalvik
