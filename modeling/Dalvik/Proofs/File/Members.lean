import Dalvik.Proofs.File.Annotations
import Dalvik.Proofs.HiddenApi

/-!
# Fields are read back

The members of a class are stored in the order of their indices. Reading them takes one restriction
after another from wherever the file keeps them, and one initial value after another as long as
there are some.
-/
namespace Dalvik
open Result

/-- The restriction of a member as far as it is kept. -/
def WriteOptions.restriction (o : WriteOptions) (restriction : UInt32) : UInt32 :=
  if o.options.hiddenApiFlags then restriction else 0

/-- The access flags and the restriction of a member as they are read back. Flags that leave no room
for the restriction come back changed from the release that keeps it among them. -/
def WriteOptions.flags (o : WriteOptions) (access restriction : UInt32) : UInt32 × UInt32 :=
  if Contents.packsRestrictions o then
    match HiddenApi.pack access restriction with
    | .ok stored => HiddenApi.unpack stored
    | .error _ => (access, restriction)
  else (access, o.restriction restriction)

theorem WriteOptions.flags_of_real {o : WriteOptions} {access r : UInt32}
    (hreal : Contents.packsRestrictions o → HiddenApi.Real access) :
    o.flags access r = (access, o.restriction r) := by
  unfold flags
  split
  next hpacks =>
    have hflags : o.options.hiddenApiFlags = true := by
      rw [Contents.packsRestrictions, Bool.and_eq_true] at hpacks
      exact hpacks.1
    rw [restriction, if_pos hflags]
    split
    next hstored => exact HiddenApi.unpack_pack (hreal hpacks) hstored
    · rfl
  · rfl

/-- A field as it is read back with an initial value. -/
def FieldDef.readAs (o : WriteOptions) (value : Option Value) (f : FieldDef) : FieldDef :=
  { f with
    access := (o.flags f.access f.restriction).1
    restriction := (o.flags f.access f.restriction).2
    value
    annotations := AnnotationItem.normalSet f.annotations }

/-! ## The data of a class -/

/-- The four counts of the members are those that 32 bits hold. -/
structure ClassEntry.Counted (e : ClassEntry) : Prop where
  staticFields : (UInt32.ofNat e.staticFields.length).toNat = e.staticFields.length
  instanceFields : (UInt32.ofNat e.instanceFields.length).toNat = e.instanceFields.length
  directMethods : (UInt32.ofNat e.directMethods.length).toNat = e.directMethods.length
  virtualMethods : (UInt32.ofNat e.virtualMethods.length).toNat = e.virtualMethods.length

namespace Contents

variable {r : Resolver} {o : WriteOptions} {code : DataSection} {previous : UInt32} {part : Bytes}

/-- A field is written as the way to its index and its flags. -/
theorem exists_of_encodeFields {x : FieldEntry} {fields : List FieldEntry}
    (h : encodeFields r o previous (x :: fields) = .ok part) : ∃ index stored rest,
      r.field x.id = .ok index ∧
      storedAccess o x.definition.access x.definition.restriction = .ok stored ∧
      encodeFields r o index fields = .ok rest ∧
      part = Bytes.uleb (index - previous) ++ (Bytes.uleb stored ++ rest) := by
  obtain ⟨index, hindex, h⟩ := bind_eq_ok.mp h
  obtain ⟨stored, hstored, h⟩ := bind_eq_ok.mp h
  obtain ⟨rest, hrest, h⟩ := bind_eq_ok.mp h
  obtain rfl := pure_eq_ok.mp h
  exact ⟨index, stored, rest, hindex, within_eq_ok_iff.mp hstored, hrest, List.append_assoc _ _ _⟩

/-- A method has the offset of its code besides. -/
theorem exists_of_encodeMethods {x : MethodEntry} {methods : List MethodEntry}
    (h : encodeMethods r o code previous (x :: methods) = .ok part) : ∃ index stored offset rest,
      r.method x.id = .ok index ∧
      storedAccess o x.definition.access x.definition.restriction = .ok stored ∧
      code.optionalOffset "code item" x.code = .ok offset ∧
      encodeMethods r o code index methods = .ok rest ∧
      part = Bytes.uleb (index - previous) ++ (Bytes.uleb stored ++ (Bytes.uleb offset ++ rest)) := by
  obtain ⟨index, hindex, h⟩ := bind_eq_ok.mp h
  obtain ⟨stored, hstored, h⟩ := bind_eq_ok.mp h
  obtain ⟨offset, hoffset, h⟩ := bind_eq_ok.mp h
  obtain ⟨rest, hrest, h⟩ := bind_eq_ok.mp h
  obtain rfl := pure_eq_ok.mp h
  refine ⟨index, stored, offset, rest, hindex, within_eq_ok_iff.mp hstored, hoffset, hrest, ?_⟩
  rw [List.append_assoc, List.append_assoc]

theorem length_encodeFields {fields : List FieldEntry}
    (h : encodeFields r o previous fields = .ok part) : 2 * fields.length ≤ part.length := by
  induction fields generalizing previous part with
  | nil => exact Nat.zero_le _
  | cons x fields ih =>
    obtain ⟨index, stored, rest, -, -, hrest, rfl⟩ := exists_of_encodeFields h
    have hrest := ih hrest
    have hindex := Bytes.length_uleb_pos (index - previous)
    have hstored := Bytes.length_uleb_pos stored
    simp only [List.length_append, List.length_cons]
    omega

theorem length_encodeMethods {methods : List MethodEntry}
    (h : encodeMethods r o code previous methods = .ok part) :
    2 * methods.length ≤ part.length := by
  induction methods generalizing previous part with
  | nil => exact Nat.zero_le _
  | cons x methods ih =>
    obtain ⟨index, stored, offset, rest, -, -, -, hrest, rfl⟩ := exists_of_encodeMethods h
    have hrest := ih hrest
    have hindex := Bytes.length_uleb_pos (index - previous)
    have hstored := Bytes.length_uleb_pos stored
    simp only [List.length_append, List.length_cons]
    omega

/-- The data of a class are four counts and the members. -/
theorem exists_of_encodeClassData {e : ClassEntry} (h : encodeClassData r o code e = .ok part) :
    ∃ staticFields instanceFields directMethods virtualMethods,
      encodeFields r o 0 e.staticFields = .ok staticFields ∧
      encodeFields r o 0 e.instanceFields = .ok instanceFields ∧
      encodeMethods r o code 0 e.directMethods = .ok directMethods ∧
      encodeMethods r o code 0 e.virtualMethods = .ok virtualMethods ∧
      part = Bytes.ulebNat e.staticFields.length ++ (Bytes.ulebNat e.instanceFields.length ++
        (Bytes.ulebNat e.directMethods.length ++ (Bytes.ulebNat e.virtualMethods.length ++
          (staticFields ++ (instanceFields ++ (directMethods ++ virtualMethods)))))) := by
  obtain ⟨staticFields, hstaticFields, h⟩ := bind_eq_ok.mp h
  obtain ⟨instanceFields, hinstanceFields, h⟩ := bind_eq_ok.mp h
  obtain ⟨directMethods, hdirectMethods, h⟩ := bind_eq_ok.mp h
  obtain ⟨virtualMethods, hvirtualMethods, h⟩ := bind_eq_ok.mp h
  obtain rfl := pure_eq_ok.mp h
  refine ⟨staticFields, instanceFields, directMethods, virtualMethods, hstaticFields,
    hinstanceFields, hdirectMethods, hvirtualMethods, ?_⟩
  simp only [List.append_assoc]

/-- As each member takes two bytes at least, there are no more of them than can be counted. -/
theorem counted_of_encodeClassData {e : ClassEntry} (h : encodeClassData r o code e = .ok part)
    (hl : part.length < UInt32.size) : e.Counted := by
  obtain ⟨_, _, _, _, hstatic, hinstance, hdirect, hvirtual, rfl⟩ := exists_of_encodeClassData h
  have hstatic := length_encodeFields hstatic
  have hinstance := length_encodeFields hinstance
  have hdirect := length_encodeMethods hdirect
  have hvirtual := length_encodeMethods hvirtual
  simp only [List.length_append] at hl
  exact {
    staticFields := UInt32.toNat_ofNat_of_lt' (by omega)
    instanceFields := UInt32.toNat_ofNat_of_lt' (by omega)
    directMethods := UInt32.toNat_ofNat_of_lt' (by omega)
    virtualMethods := UInt32.toNat_ofNat_of_lt' (by omega) }

end Contents

/-- The four counts in front of the members are read back. -/
theorem ClassEntry.counts_reads {α : Type} {k : UInt32 → UInt32 → UInt32 → UInt32 → Decoder α}
    (e : ClassEntry) {rest : Bytes} {a : α}
    (h : (k (.ofNat e.staticFields.length) (.ofNat e.instanceFields.length)
      (.ofNat e.directMethods.length) (.ofNat e.virtualMethods.length)).Reads rest a) :
    (do
      let staticFields ← Decoder.uleb
      let instanceFields ← Decoder.uleb
      let directMethods ← Decoder.uleb
      let virtualMethods ← Decoder.uleb
      k staticFields instanceFields directMethods virtualMethods).Reads
        (Bytes.ulebNat e.staticFields.length ++ (Bytes.ulebNat e.instanceFields.length ++
          (Bytes.ulebNat e.directMethods.length ++ (Bytes.ulebNat e.virtualMethods.length ++
            rest)))) a := by
  apply (Decoder.uleb_reads _).bind
  apply (Decoder.uleb_reads _).bind
  apply (Decoder.uleb_reads _).bind
  exact (Decoder.uleb_reads _).bind h

namespace DexFile

/-! ## Steps that read a member -/

/-- The restrictions can be taken one by one at the place, if the file has a section of them. -/
def Keeps (f : DexFile) (o : WriteOptions) (place : Option Nat) (restrictions : List UInt32) :
    Prop :=
  o.options.hiddenApiFlags = true → Contents.packsRestrictions o = false →
    HiddenApi.Numbers f.data place restrictions

/-- Wherever `part` lies, and at every place of the restrictions and any others, the step gives `a`,
stops behind `part` and leaves the others. -/
def MemberReads (f : DexFile) (o : WriteOptions) {α : Type} (step : MemberDecoder α)
    (restrictions : List UInt32) (part : Bytes) (a : α) : Prop :=
  ∀ place others, f.Keeps o place (restrictions ++ others) →
    ∃ after, f.Keeps o after others ∧ (step place).Reads part (a, after)

namespace MemberReads

variable {f : DexFile} {o : WriteOptions} {α β : Type} {step : MemberDecoder α}
  {next : α → MemberDecoder β} {restrictions more : List UInt32} {part rest : Bytes} {a : α} {b : β}

theorem pure (a : α) : f.MemberReads o (Pure.pure a) [] [] a :=
  fun place _ h => ⟨place, h, .pure (a, place)⟩

theorem bind (hs : f.MemberReads o step restrictions part a)
    (hn : f.MemberReads o (next a) more rest b) :
    f.MemberReads o (step >>= next) (restrictions ++ more) (part ++ rest) b := by
  intro place others h
  rw [List.append_assoc] at h
  obtain ⟨between, hbetween, hstep⟩ := hs place _ h
  obtain ⟨after, hafter, hnext⟩ := hn between _ hbetween
  exact ⟨after, hafter, hstep.bind hnext⟩

theorem map {g : α → β} (hs : f.MemberReads o step restrictions part a) :
    f.MemberReads o (step >>= fun a => Pure.pure (g a)) restrictions part (g a) := by
  have h : f.MemberReads o (step >>= fun a => Pure.pure (g a)) (restrictions ++ []) (part ++ [])
      (g a) := hs.bind (pure (g a))
  simpa using h

theorem lift {d : Decoder α} (hd : d.Reads part a) (hn : f.MemberReads o (next a) more rest b) :
    f.MemberReads o (liftM d >>= next) more (part ++ rest) b := by
  intro place others h
  obtain ⟨after, hafter, hnext⟩ := hn place _ h
  exact ⟨after, hafter, (hd.map (g := fun a => (a, place))).bind hnext⟩

/-- A result inside of a step reads nothing. -/
theorem lift_ok {r : Result α} (hr : r = .ok a) (hn : f.MemberReads o (next a) more rest b) :
    f.MemberReads o (liftM r >>= next) more rest b :=
  lift (Decoder.Reads.ofResult hr) hn

end MemberReads

/-- The differences of ascending indices lead from one to the next. -/
theorem nextIndex_reads {previous : Option UInt32} {index : UInt32}
    (h : ∀ p ∈ previous, p < index) :
    (nextIndex previous).Reads (Bytes.uleb (index - previous.getD 0)) index := by
  cases previous with
  | none =>
    rw [Option.getD_none, UInt32.sub_zero]
    exact (Decoder.uleb_reads index).bind_last (.pure index)
  | some p =>
    have hlt := UInt32.lt_iff_toNat_lt.mp (h p rfl)
    have hnat : (index - p).toNat = index.toNat - p.toNat :=
      UInt32.toNat_sub_of_le _ _ (UInt32.le_iff_toNat_le.mpr (Nat.le_of_lt hlt))
    have hbound : index.toNat < UInt32.size := index.toNat_lt
    have hne : ¬ (index - p = 0 ∨ UInt32.size ≤ p.toNat + (index - p).toNat) := by
      rw [← UInt32.toNat_inj, hnat, UInt32.toNat_zero]
      omega
    have hsum : p + (index - p) = index := by
      rw [UInt32.add_comm, UInt32.sub_add_cancel]
    apply (Decoder.uleb_reads (index - p)).bind_last
    dsimp only
    rw [if_neg hne, hsum]
    exact .pure index

section
variable {f : DexFile} {o : WriteOptions} {c : Contents} {d : Contents.Data} (h : f.Holds o c d)
include h

/-! ## Restrictions -/

/-- The flags and the restriction of a member come from what is stored for it. -/
theorem memberFlags_reads {access restriction stored : UInt32}
    (hs : Contents.storedAccess o access restriction = .ok stored) :
    f.MemberReads o (f.memberFlags stored) [restriction] [] (o.flags access restriction) := by
  intro place others hkeeps
  unfold Contents.storedAccess at hs
  unfold memberFlags
  rw [h.options, h.api]
  cases hflags : o.options.hiddenApiFlags with
  | false =>
    have hpacks : Contents.packsRestrictions o = false := by
      rw [Contents.packsRestrictions, hflags, Bool.false_and]
    rw [if_neg (by rw [hpacks]; decide)] at hs
    cases hs
    refine ⟨place, fun htrue => ?_, ?_⟩
    · rw [hflags] at htrue
      cases htrue
    · rw [WriteOptions.flags_of_real (by rw [hpacks]; exact nofun), WriteOptions.restriction, hflags]
      exact .pure _
  | true =>
    cases hpacks : Contents.packsRestrictions o with
    | true =>
      rw [if_pos hpacks] at hs
      have hnone : f.hiddenApiOffset? = none := by
        have hshows := h.data.hiddenApi
        unfold Contents.ShowsHiddenApi at hshows
        dsimp only at hshows
        rw [hpacks, Bool.or_true, Bool.true_or, if_pos rfl] at hshows
        rw [h.hiddenApi, hshows]
        rfl
      have hapi : (o.options.targetApi == HiddenApi.packedApi) = true := by
        rw [Contents.packsRestrictions, hflags, Bool.true_and] at hpacks
        exact hpacks
      refine ⟨place, fun _ hfalse => ?_, ?_⟩
      · rw [hpacks] at hfalse
        cases hfalse
      · rw [hnone, hapi, WriteOptions.flags, if_pos hpacks, hs]
        exact .pure _
    | false =>
      rw [if_neg (by rw [hpacks]; decide)] at hs
      cases hs
      have hapi : (o.options.targetApi == HiddenApi.packedApi) = false := by
        rw [Contents.packsRestrictions, hflags, Bool.true_and] at hpacks
        exact hpacks
      obtain ⟨after, hnext, hafter⟩ := HiddenApi.next_eq (hkeeps hflags hpacks)
      refine ⟨after, fun _ _ => hafter, ?_⟩
      rw [WriteOptions.flags_of_real (by rw [hpacks]; exact nofun), WriteOptions.restriction,
        if_pos hflags, hapi, Bool.and_false, if_neg (show ¬ (!true) = true by decide),
        if_neg (show ¬ false = true by decide)]
      have hread : (Decoder.ofResult (HiddenApi.next f.data place) >>= fun x =>
          pure (x, place)).Reads [] ((restriction, after), place) := .lift hnext (.pure _)
      exact hread.bind_nil (f := fun x => pure ((access, x.1.1), x.1.2)) (.pure _)

/-- The first restriction of a class is where those of all its members can be taken. -/
theorem exists_place {index : Nat} {e : ClassEntry} (he : c.classes[index]? = some e) :
    ∃ place, f.firstRestriction index = .ok place ∧ f.Keeps o place
      (e.fields.map (·.definition.restriction) ++ e.methods.map (·.definition.restriction)) := by
  generalize hall : e.fields.map (·.definition.restriction) ++
    e.methods.map (·.definition.restriction) = all
  have hrestrictions : Contents.restrictions e = if all.all (· == 0) then none else some all := by
    rw [← hall]
    rfl
  have hget : (c.classes.map Contents.restrictions)[index]? = some (Contents.restrictions e) := by
    rw [List.getElem?_map, he]
    rfl
  have zero_of_none (hnone : Contents.restrictions e = none) : ∀ n ∈ all, n = 0 := by
    rw [hrestrictions] at hnone
    split at hnone
    next hzero => simpa using hzero
    · cases hnone
  have hshows := h.data.hiddenApi
  unfold Contents.ShowsHiddenApi at hshows
  dsimp only at hshows
  unfold firstRestriction
  rw [h.hiddenApi, h.options]
  split at hshows
  next hwhy =>
    rw [hshows]
    refine ⟨none, rfl, fun hflags hpacks => ?_⟩
    rw [hflags, hpacks] at hwhy
    refine zero_of_none (Option.isNone_iff_eq_none.mp ?_)
    exact List.all_eq_true.mp (by simpa using hwhy) _ (List.mem_of_getElem? hget)
  next hwhy =>
    obtain ⟨p, hitems, -, hstands, hpos, -⟩ := hshows
    have hflags : o.options.hiddenApiFlags = true := by
      cases hflags : o.options.hiddenApiFlags with
      | true => rfl
      | false =>
        rw [hflags] at hwhy
        exact absurd rfl hwhy
    have hinside := hstands.inside HiddenApi.encodeSection_ne_nil
    have hsmall := h.small
    have hmax : UInt32.size = 2 ^ 32 := rfl
    obtain ⟨place, hplace, hnone, hsome⟩ :=
      HiddenApi.locate_eq hpos hstands (by omega) (by omega) hget
    rw [hitems]
    refine ⟨place, ?_, fun _ _ => ?_⟩
    · change (if o.options.hiddenApiFlags then
        ((HiddenApi.locate p.offset index).valueAt f.data p.offset).within _ else .ok none) = _
      rw [if_pos hflags, hplace]
      rfl
    · cases hr : Contents.restrictions e with
      | none =>
        rw [hnone hr]
        exact zero_of_none hr
      | some ns =>
        have hns : ns = all := by
          rw [hrestrictions] at hr
          split at hr
          · cases hr
          · exact (Option.some.inj hr).symm
        exact hns ▸ hsome ns hr

end

/-! ## Fields -/

/-- The indices of the members ascend, from behind the previous one on. -/
def Ascending {α : Type} (index : α → Result UInt32) : Option UInt32 → List α → Prop
  | _, [] => True
  | previous, a :: as =>
    ∀ i, index a = .ok i → (∀ p ∈ previous, p < i) ∧ Ascending index (some i) as

/-- The values that are stored give the fields their initial values, with defaults behind them. -/
def Initial (value : FieldDef → Option Value) : Option (List Value) → List FieldEntry → Prop
  | _, [] => True
  | values, x :: xs => values.mapM (initialValue x.id) = .ok (value x.definition) ∧
    Initial value (values.map List.tail) xs

/-- A field that is called by its id and whose annotations have been read. -/
structure FieldGiven (r : Resolver) (o : WriteOptions) (a : Annotations) (x : FieldEntry) :
    Prop where
  name : x.id.name = x.definition.name
  type : x.id.type = x.definition.type
  annotations : ∀ i, r.field x.id = .ok i →
    lastFor a.ofFields i = AnnotationItem.normalSet x.definition.annotations

theorem decodeFields_reads {f : DexFile} {o : WriteOptions} {c : Contents} {d : Contents.Data}
    (h : f.Holds o c d) (hp : c.pools.Short) {a : Annotations} (previous : Option UInt32)
    {values : Option (List Value)} {value : FieldDef → Option Value} {fields : List FieldEntry}
    {part : Bytes} (hgiven : ∀ x ∈ fields, FieldGiven c.resolver o a x)
    (hascending : Ascending c.resolver.field previous (fields.map FieldEntry.id))
    (hinitial : Initial value values fields)
    (hpart : Contents.encodeFields c.resolver o (previous.getD 0) fields = .ok part) :
    f.MemberReads o (f.decodeFields a fields.length previous values)
      (fields.map (·.definition.restriction)) part
      (fields.map fun x => x.definition.readAs o (value x.definition)) := by
  induction fields generalizing previous values part with
  | nil =>
    cases hpart
    exact .pure []
  | cons x fields ih =>
    obtain ⟨index, stored, rest, hindex, hstored, hrest, rfl⟩ :=
      Contents.exists_of_encodeFields hpart
    obtain ⟨hx, hgiven⟩ := List.forall_mem_cons.mp hgiven
    obtain ⟨hbehind, hascending⟩ := hascending index hindex
    obtain ⟨hvalue, hinitial⟩ := hinitial
    apply MemberReads.lift (nextIndex_reads hbehind)
    apply MemberReads.lift_ok (field_of_lookup h hp hindex)
    apply MemberReads.lift (Decoder.uleb_reads stored)
    apply (memberFlags_reads h hstored).bind
    apply MemberReads.lift_ok hvalue
    rw [List.map_cons, hx.name, hx.type, hx.annotations index hindex]
    exact (ih (some index) hgiven hascending hinitial hrest).map

/-- The indices of sorted members without repetition ascend, since the pool is in the same order. -/
theorem ascending_of_sorted {α : Type} [BEq α] [LawfulBEq α] [Hashable α] {cmp : α → α → Ordering}
    [Std.TransCmp cmp] [Std.LawfulEqCmp cmp] {set : ItemSet α} {kind : PoolKind} {text : α → String}
    (hs : set.toList.Pairwise fun a b => (cmp a b).isLE) (hsize : set.size ≤ UInt32.size)
    {ids : List α} (hids : ids.Pairwise fun a b => (cmp a b).isLE) (hnodup : ids.Nodup) :
    Ascending (fun a => Pools.lookup cmp set kind (text a) a) none ids := by
  suffices go : ∀ previous : Option UInt32, (∀ p ∈ previous, ∀ a ∈ ids, ∀ i,
      Pools.lookup cmp set kind (text a) a = .ok i → p < i) →
      Ascending (fun a => Pools.lookup cmp set kind (text a) a) previous ids from go none nofun
  induction ids with
  | nil => exact fun _ _ => trivial
  | cons a ids ih =>
    intro previous hprevious i hi
    rw [List.pairwise_cons] at hids
    rw [List.nodup_cons] at hnodup
    refine ⟨fun p hp => hprevious p hp a List.mem_cons_self i hi, ?_⟩
    refine ih hids.2 hnodup.2 (some i) fun p hp b hb j hj => ?_
    cases hp
    have hle := hids.1 b hb
    have hlt : cmp a b = .lt := by
      cases hcmp : cmp a b with
      | lt => rfl
      | eq => exact absurd (Std.LawfulEqCmp.compare_eq_iff_eq.mp hcmp ▸ hb) hnodup.1
      | gt =>
        rw [hcmp] at hle
        cases hle
    exact Pools.lt_of_lookup hs hsize hlt hi hj

/-! ## Initial values -/

end DexFile

/-- The initial value of a static field as it is read back. -/
def FieldDef.initial (f : FieldDef) : Option Value :=
  match f.value with
  | some v => some v.sorted
  | none => (Value.defaultFor f.type).toOption

theorem Value.sorted_of_defaultFor {t : TypeId} {v : Value} (h : defaultFor t = .ok v) :
    v.sorted = v := by
  unfold defaultFor at h
  split at h <;> cases h <;> simp only [Value.sorted]

/-- A default value that a field starts with is the one of its type. -/
def FieldDef.Typed (f : FieldDef) : Prop :=
  ∀ v ∈ f.value, v.isDefault → Value.defaultFor f.type = .ok v

/-- The value that is gathered for a static field is the one that is read back. -/
theorem FieldEntry.initial_eq {x : FieldEntry} {v : Value} (h : x.initial = .ok v) :
    x.definition.initial = some v.sorted := by
  unfold FieldEntry.initial at h
  unfold FieldDef.initial
  cases hvalue : x.definition.value with
  | some w =>
    rw [hvalue] at h
    cases h
    rfl
  | none =>
    rw [hvalue] at h
    dsimp only at h ⊢
    rw [h, Value.sorted_of_defaultFor h]
    rfl

theorem FieldEntry.defaultFor_eq {x : FieldEntry} {v : Value} (h : x.initial = .ok v)
    (ht : x.definition.Typed) (hv : v.isDefault) : Value.defaultFor x.definition.type = .ok v := by
  unfold FieldEntry.initial at h
  cases hvalue : x.definition.value with
  | some w =>
    rw [hvalue] at h
    cases h
    exact ht _ hvalue hv
  | none => rwa [hvalue] at h

theorem FieldEntry.isDefault_of_initial {x : FieldEntry} {v : Value} (h : x.initial = .ok v)
    (hv : v.isDefault) : ∀ w ∈ x.definition.value, w.isDefault := by
  intro w hw
  unfold FieldEntry.initial at h
  rw [Option.mem_def.mp hw] at h
  cases h
  exact hv

namespace DexFile

/-- The values that are stored are followed by defaults. -/
theorem initial_append {fields : List FieldEntry} {kept tail : List Value}
    (hvalues : List.Forall₂ (fun x v => x.initial = .ok v) fields (kept ++ tail))
    (htail : ∀ v ∈ tail, v.isDefault) (hids : ∀ x ∈ fields, x.id.type = x.definition.type)
    (htyped : ∀ x ∈ fields.drop kept.length, x.definition.Typed) :
    Initial FieldDef.initial (some (kept.map Value.sorted)) fields := by
  induction fields generalizing kept tail with
  | nil => trivial
  | cons x fields ih =>
    obtain ⟨hid, hids⟩ := List.forall_mem_cons.mp hids
    cases kept with
    | nil =>
      cases hvalues with
      | @cons _ v _ tail hv hvs =>
        obtain ⟨hdefault, htail⟩ := List.forall_mem_cons.mp htail
        obtain ⟨htyped, hrest⟩ := List.forall_mem_cons.mp htyped
        have heq := FieldEntry.defaultFor_eq hv htyped hdefault
        refine ⟨?_, @ih [] _ hvs htail hids hrest⟩
        rw [FieldEntry.initial_eq hv, Value.sorted_of_defaultFor heq]
        simp only [List.map_nil, Option.mapM_some, initialValue, hid, heq]
        rfl
    | cons v kept =>
      cases hvalues with
      | cons hv hvs =>
        refine ⟨?_, ih hvs htail hids htyped⟩
        rw [FieldEntry.initial_eq hv]
        rfl

theorem staticValues_eq {f : DexFile} {o : WriteOptions} {c : Contents} {d : Contents.Data}
    (h : f.Holds o c d) (hp : c.pools.Short)
    (hm : ∀ m ∈ c.pools.methodHandles.toList, m.IsConsistent) (hn : c.Shallow) {g : Gathered}
    (hg : c.items = g.items) {values : List Value} {id : Option Nat} {what : String}
    {offset : UInt32} (hplace : g.Places (Part.unlessEmpty .encodedArray values) id)
    (ho : d.encodedArrays.optionalOffset what id = .ok offset) :
    f.staticValues offset = .ok (values.map Value.sorted) := by
  rcases hplace.list_cases ho with ⟨rfl, rfl⟩ | ho
  · rfl
  · have ho : d.encodedArrays.offset what (g.items.encodedArrays.id? values) = .ok offset := ho
    rw [← hg] at ho
    obtain ⟨hne, hread⟩ :=
      encodedArray_eq h hn (source_inverse h hp hm hn).toInverseOnValues ho
    rw [staticValues, if_neg hne, hread, Value.sortedAll_eq_map]
    rfl

end DexFile

end Dalvik
