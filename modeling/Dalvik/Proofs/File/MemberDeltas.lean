import Dalvik.Proofs.File.Ascending
import Dalvik.Proofs.File.StaticFields

/-!
# Members by their differences

The index of a member is stored as the difference to the one before in its list, the first one to 0.
The members of a class are in the order of the pool and none of them stands twice, so no difference
falls below 0 and only the first can be 0. Whatever bytes a reader accepts as members, their
differences lead to ascending indices below the size of the pool, and no sum leaves 32 bits.
-/
namespace Dalvik
open Result

/-! ## Differences and sums -/

/-- The sums that differences lead to from a number on, without a limit. -/
def sumsFrom (n : Nat) : List UInt32 → List Nat
  | [] => []
  | d :: differences => (n + d.toNat) :: sumsFrom (n + d.toNat) differences

/-- Differences lead to indices: their sums are the indices, as numbers without a limit, and every
difference behind the first one leads further. -/
structure LeadTo (differences indices : List UInt32) : Prop where
  sums : sumsFrom 0 differences = indices.map UInt32.toNat
  ascending : indices.Pairwise (· < ·)
  ne_zero : ∀ d ∈ differences.tail, d ≠ 0

/-- One difference after the other, behind a member that has been reached or at the start of a
list. -/
inductive LeadFrom : Option UInt32 → List UInt32 → List UInt32 → Prop
  | nil {previous : Option UInt32} : LeadFrom previous [] []
  | cons {previous : Option UInt32} {d i : UInt32} {differences indices : List UInt32}
      (sum : i.toNat = (previous.getD 0).toNat + d.toNat) (ne_zero : ∀ p ∈ previous, d ≠ 0)
      (rest : LeadFrom (some i) differences indices) :
      LeadFrom previous (d :: differences) (i :: indices)

namespace LeadFrom

variable {previous : Option UInt32} {differences indices : List UInt32} {p : UInt32}

theorem sums (h : LeadFrom previous differences indices) :
    sumsFrom (previous.getD 0).toNat differences = indices.map UInt32.toNat := by
  induction h with
  | nil => rfl
  | cons sum _ _ ih =>
    rw [sumsFrom, ← sum, List.map_cons]
    exact congrArg _ ih

theorem ne_zero (h : LeadFrom (some p) differences indices) : ∀ d ∈ differences, d ≠ 0 := by
  generalize hprevious : some p = previous at h
  induction h generalizing p with
  | nil => exact nofun
  | cons _ ne_zero _ ih =>
    exact List.forall_mem_cons.mpr ⟨ne_zero p hprevious.symm, ih rfl⟩

theorem lt_of_mem (h : LeadFrom (some p) differences indices) : ∀ i ∈ indices, p < i := by
  generalize hprevious : some p = previous at h
  induction h generalizing p with
  | nil => exact nofun
  | @cons _ d i _ _ sum ne_zero _ ih =>
    subst hprevious
    have hlt : p < i := by
      have hd : d.toNat ≠ 0 := fun h => ne_zero p rfl (UInt32.toNat_inj.mp h)
      rw [UInt32.lt_iff_toNat_lt, sum, Option.getD_some]
      omega
    exact List.forall_mem_cons.mpr ⟨hlt, fun j hj => UInt32.lt_trans hlt (ih rfl j hj)⟩

theorem pairwise (h : LeadFrom previous differences indices) : indices.Pairwise (· < ·) := by
  induction h with
  | nil => exact .nil
  | cons _ _ rest ih => exact List.pairwise_cons.mpr ⟨rest.lt_of_mem, ih⟩

theorem leadTo (h : LeadFrom none differences indices) : LeadTo differences indices where
  sums := h.sums
  ascending := h.pairwise
  ne_zero := by
    cases h with
    | nil => exact nofun
    | cons _ _ rest => exact rest.ne_zero

end LeadFrom

/-- Ascending indices are what their own differences lead to. -/
theorem leadFrom_deltas {previous : Option UInt32} {indices : List UInt32}
    (hbehind : ∀ p ∈ previous, ∀ i ∈ indices, p < i) (h : indices.Pairwise (· < ·)) :
    LeadFrom previous (deltas (previous.getD 0) indices) indices := by
  induction indices generalizing previous with
  | nil => exact .nil
  | cons i indices ih =>
    obtain ⟨hfirst, h⟩ := List.pairwise_cons.mp h
    refine .cons ?_ (fun p hp hzero => ?_)
      (ih (fun p hp j hj => Option.mem_some.mp hp ▸ hfirst j hj) h)
    · have hle : previous.getD 0 ≤ i := by
        cases previous with
        | none => exact UInt32.zero_le
        | some p => exact UInt32.le_of_lt (hbehind p rfl i List.mem_cons_self)
      have hnat := UInt32.le_iff_toNat_le.mp hle
      rw [UInt32.toNat_sub_of_le _ _ hle]
      omega
    · have hlt := hbehind p hp i List.mem_cons_self
      cases hp
      have hnat := UInt32.lt_iff_toNat_lt.mp hlt
      have hsub := UInt32.toNat_sub_of_le i p (UInt32.le_of_lt hlt)
      rw [Option.getD_some] at hzero
      rw [hzero, UInt32.toNat_zero] at hsub
      omega

/-! ## Steps from member to member -/

/-- The difference to the next member as it stands. -/
def nextDifference (_ : Option UInt32) : Decoder UInt32 := Decoder.uleb

/-- What `step` makes of the differences of `count` members, each followed by `more` numbers. The
step knows what it has made of the difference before. -/
def decodeSteps (step : Option UInt32 → Decoder UInt32) (more : Nat) :
    (count : Nat) → (previous : Option UInt32) → Decoder (List UInt32)
  | 0, _ => return []
  | count + 1, previous => do
    let i ← step previous
    skipNumbers more
    return i :: (← decodeSteps step more count (some i))

/-- What `step` makes of the differences in the data of a class: those of static fields, other
fields, direct methods and virtual ones. -/
def decodeMemberSteps (step : Option UInt32 → Decoder UInt32) : Decoder (List (List UInt32)) := do
  let staticFields := (← Decoder.uleb).toNat
  let instanceFields := (← Decoder.uleb).toNat
  let directMethods := (← Decoder.uleb).toNat
  let virtualMethods := (← Decoder.uleb).toNat
  let staticFields ← decodeSteps step 1 staticFields none
  let instanceFields ← decodeSteps step 1 instanceFields none
  let directMethods ← decodeSteps step 2 directMethods none
  let virtualMethods ← decodeSteps step 2 virtualMethods none
  return [staticFields, instanceFields, directMethods, virtualMethods]

/-! ## Members that are written -/

namespace MemberBytes

variable {more : Nat} {differences indices : List UInt32} {part : Bytes} {previous : Option UInt32}

theorem differences_reads (h : MemberBytes more differences part) (previous : Option UInt32) :
    (decodeSteps nextDifference more differences.length previous).Reads part differences := by
  induction h generalizing previous with
  | nil => exact .pure []
  | cons skip _ ih => exact (Decoder.uleb_reads _).bind (skip.bind (ih _).map)

/-- The checked sums along the differences of ascending indices are these indices. -/
theorem indices_reads (h : MemberBytes more (deltas (previous.getD 0) indices) part)
    (hbehind : ∀ p ∈ previous, ∀ i ∈ indices, p < i) (hi : indices.Pairwise (· < ·)) :
    (decodeSteps DexFile.nextIndex more indices.length previous).Reads part indices := by
  induction indices generalizing previous part with
  | nil =>
    cases h
    exact .pure []
  | cons i indices ih =>
    cases h with
    | cons skip rest =>
      obtain ⟨hfirst, hi⟩ := List.pairwise_cons.mp hi
      have hread : (decodeSteps DexFile.nextIndex more indices.length (some i)).Reads _ indices :=
        ih rest (fun p hp j hj => Option.mem_some.mp hp ▸ hfirst j hj) hi
      apply (DexFile.nextIndex_reads fun p hp => hbehind p hp i List.mem_cons_self).bind
      exact skip.bind hread.map

end MemberBytes

section
variable {r : Resolver} {o : WriteOptions} {previous : UInt32} {indices : List UInt32}
  {part : Bytes}

/-- What is looked up has one index only. -/
theorem eq_of_forall₂_ok {α β : Type} {index : α → Result β} {members : List α}
    {found others : List β} (h : List.Forall₂ (fun x i => index x = .ok i) members found)
    (h' : List.Forall₂ (fun x i => index x = .ok i) members others) : found = others :=
  Except.ok.inj ((mapM_eq_ok.mpr h).symm.trans (mapM_eq_ok.mpr h'))

theorem memberBytes_of_encodeFields {fields : List FieldEntry}
    (h : Contents.encodeFields r o previous fields = .ok part)
    (hi : List.Forall₂ (fun x i => r.field x.id = .ok i) fields indices) :
    MemberBytes 1 (deltas previous indices) part := by
  obtain ⟨found, hbytes, hfound⟩ := exists_fieldIndices h
  rwa [eq_of_forall₂_ok (List.forall₂_map_left_iff.mp hfound) hi] at hbytes

theorem memberBytes_of_encodeMethods {code : DataSection} {methods : List MethodEntry}
    (h : Contents.encodeMethods r o code previous methods = .ok part)
    (hi : List.Forall₂ (fun x i => r.method x.id = .ok i) methods indices) :
    MemberBytes 2 (deltas previous indices) part := by
  obtain ⟨found, hbytes, hfound⟩ := exists_methodIndices h
  rwa [eq_of_forall₂_ok (List.forall₂_map_left_iff.mp hfound) hi] at hbytes

end

/-! ## The data of a class -/

/-- What the members of a class are looked up as, in the order of their ids, list by list. -/
def ClassDef.memberIndices (x : ClassDef) (r : Resolver) : List (List (Result UInt32)) :=
  let ofFields (fields : List FieldDef) : List (Result UInt32) :=
    (sortedBy (byKey compare x.fieldId) fields).map fun z => r.field (x.fieldId z)
  let ofMethods (methods : List MethodDef) : List (Result UInt32) :=
    (sortedBy (byKey compare x.methodId) methods).map fun z => r.method (x.methodId z)
  [ofFields x.staticFields, ofFields x.instanceFields, ofMethods x.directMethods,
    ofMethods x.virtualMethods]

/-- Ascending numbers below a limit are no more than the limit. -/
theorem length_le_of_pairwise {indices : List UInt32} {n : Nat} (h : indices.Pairwise (· < ·))
    (hn : ∀ i ∈ indices, i.toNat < n) : indices.length ≤ n := by
  have hnodup : (indices.map UInt32.toNat).Nodup :=
    List.pairwise_map.mpr (h.imp fun hlt => Nat.ne_of_lt (UInt32.lt_iff_toNat_lt.mp hlt))
  have hsub : indices.map UInt32.toNat ⊆ List.range n := by
    intro k hk
    obtain ⟨i, hi, rfl⟩ := List.mem_map.mp hk
    exact List.mem_range.mpr (hn i hi)
  simpa using (hnodup.subperm hsub).length_le

/-- A value that does not lead nowhere has an index. -/
theorem Pools.exists_of_resolved {α : Type} [BEq α] [Hashable α] {cmp : α → α → Ordering}
    {set : ItemSet α} {kind : PoolKind} {text : String} {a : α}
    (h : (lookup cmp set kind text a).Resolved) : ∃ i, lookup cmp set kind text a = .ok i := by
  unfold lookup at h ⊢
  split
  · exact ⟨_, rfl⟩
  next hnone =>
    rw [hnone] at h
    exact absurd rfl h

/-- Members with their indices, which ascend and can be counted with 32 bits. -/
structure IndexedBy {α : Type} (index : α → Result UInt32) (members : List α)
    (indices : List UInt32) : Prop where
  each : List.Forall₂ (fun x i => index x = .ok i) members indices
  ascending : indices.Pairwise (· < ·)
  length_lt : members.length < UInt32.size

theorem IndexedBy.map_eq {α : Type} {index : α → Result UInt32} {members : List α}
    {indices : List UInt32} (h : IndexedBy index members indices) :
    members.map index = indices.map .ok :=
  map_eq_of_forall₂ h.each fun _ _ _ hx => hx

theorem IndexedBy.leadTo {α : Type} {index : α → Result UInt32} {members : List α}
    {indices : List UInt32} (h : IndexedBy index members indices) :
    LeadTo (deltas 0 indices) indices :=
  (@leadFrom_deltas none indices nofun h.ascending).leadTo

theorem exists_indexedBy {α ι : Type} [BEq ι] [Hashable ι] {cmp : ι → ι → Ordering}
    [Std.LawfulEqCmp cmp] {set : ItemSet ι} {kind : PoolKind} {text : ι → String}
    (hsize : set.size ≤ Pools.maxSize) (id : α → ι) {members : List α}
    (hknown : ∀ x ∈ members, (Pools.lookup cmp set kind (text (id x)) (id x)).Resolved)
    (hascending : DexFile.Ascending (fun a => Pools.lookup cmp set kind (text a) a) none
      (members.map id)) :
    ∃ indices, IndexedBy (fun x => Pools.lookup cmp set kind (text (id x)) (id x)) members
      indices := by
  obtain ⟨indices, hindices⟩ := exists_mapM_eq_ok fun x hx => Pools.exists_of_resolved (hknown x hx)
  have hindices := mapM_eq_ok.mp hindices
  have hpairwise :=
    DexFile.pairwise_of_ascending hascending (List.forall₂_map_left_iff.mpr hindices)
  have hlt : ∀ i ∈ indices, i.toNat < Pools.maxSize := by
    intro i hi
    obtain ⟨x, -, hx⟩ := exists_left_of_mem hindices hi
    exact Nat.lt_of_lt_of_le
      (Pools.toNat_lt_of_lookup (Nat.le_trans hsize (by decide)) hx) hsize
  refine ⟨indices, hindices, hpairwise, ?_⟩
  rw [hindices.length_eq]
  exact Nat.lt_of_le_of_lt (length_le_of_pairwise hpairwise hlt) (by decide)

section
variable {r : Resolver} {o : WriteOptions} {code : DataSection} {e : ClassEntry} {out : Bytes}
  {staticFields instanceFields directMethods virtualMethods : List UInt32}

theorem length_deltas (previous : UInt32) (indices : List UInt32) :
    (deltas previous indices).length = indices.length := by
  induction indices generalizing previous with
  | nil => rfl
  | cons i indices ih => rw [deltas, List.length_cons, ih, List.length_cons]

/-- A step that makes something of the differences of ascending indices makes it of all that are
written for a class. -/
theorem decodeMemberSteps_reads (step : Option UInt32 → Decoder UInt32)
    (values : List UInt32 → List UInt32)
    (hsteps : ∀ {more indices part}, MemberBytes more (deltas 0 indices) part →
      indices.Pairwise (· < ·) →
        (decodeSteps step more indices.length none).Reads part (values indices))
    (hstatic : IndexedBy (fun x => r.field x.id) e.staticFields staticFields)
    (hinstance : IndexedBy (fun x => r.field x.id) e.instanceFields instanceFields)
    (hdirect : IndexedBy (fun x => r.method x.id) e.directMethods directMethods)
    (hvirtual : IndexedBy (fun x => r.method x.id) e.virtualMethods virtualMethods)
    (h : Contents.encodeClassData r o code e = .ok out) :
    (decodeMemberSteps step).Reads out
      ([staticFields, instanceFields, directMethods, virtualMethods].map values) := by
  obtain ⟨_, _, _, _, hstaticBytes, hinstanceBytes, hdirectBytes, hvirtualBytes, rfl⟩ :=
    Contents.exists_of_encodeClassData h
  have hstaticReads :=
    hsteps (memberBytes_of_encodeFields hstaticBytes hstatic.each) hstatic.ascending
  have hinstanceReads :=
    hsteps (memberBytes_of_encodeFields hinstanceBytes hinstance.each) hinstance.ascending
  have hdirectReads :=
    hsteps (memberBytes_of_encodeMethods hdirectBytes hdirect.each) hdirect.ascending
  have hvirtualReads :=
    hsteps (memberBytes_of_encodeMethods hvirtualBytes hvirtual.each) hvirtual.ascending
  rw [← hstatic.each.length_eq] at hstaticReads
  rw [← hinstance.each.length_eq] at hinstanceReads
  rw [← hdirect.each.length_eq] at hdirectReads
  rw [← hvirtual.each.length_eq] at hvirtualReads
  apply e.counts_reads
  rw [UInt32.toNat_ofNat_of_lt' hstatic.length_lt, UInt32.toNat_ofNat_of_lt' hinstance.length_lt,
    UInt32.toNat_ofNat_of_lt' hdirect.length_lt, UInt32.toNat_ofNat_of_lt' hvirtual.length_lt]
  apply hstaticReads.bind
  apply hinstanceReads.bind
  apply hdirectReads.bind
  exact hvirtualReads.map

end

/-- The indices of the members of a class, of which the entry is to be written. -/
structure ClassLeads (r : Resolver) (o : WriteOptions) (x : ClassDef) (e : ClassEntry)
    (lists : List (List UInt32)) : Prop where
  indices : x.memberIndices r = lists.map (List.map .ok)
  leadTo : ∀ indices ∈ lists, LeadTo (deltas 0 indices) indices
  differences : ∀ code out, Contents.encodeClassData r o code e = .ok out →
    (decodeMemberSteps nextDifference).Reads out (lists.map (deltas 0))
  back : ∀ code out, Contents.encodeClassData r o code e = .ok out →
    (decodeMemberSteps DexFile.nextIndex).Reads out lists

theorem Gathered.Fills.exists_classLeads {o : WriteOptions} {dex : Dex} {g : Gathered}
    {c : Contents} (h : g.Fills o dex c) (hp : c.pools.Short) {x : ClassDef} {e : ClassEntry}
    (hx : g.HoldsClass o x e) (he : e ∈ c.classes) :
    ∃ lists, ClassLeads c.resolver o x e lists := by
  have fields {members : List FieldEntry} (hsub : members ⊆ e.fields)
      (hascending : DexFile.Ascending c.resolver.field none (members.map FieldEntry.id)) :
      ∃ indices, IndexedBy (fun y => c.resolver.field y.id) members indices :=
    exists_indexedBy hp.fields FieldEntry.id (fun y hy => h.knows_field he (hsub hy)) hascending
  have methods {members : List MethodEntry} (hsub : members ⊆ e.methods)
      (hascending : DexFile.Ascending c.resolver.method none (members.map MethodEntry.id)) :
      ∃ indices, IndexedBy (fun y => c.resolver.method y.id) members indices :=
    exists_indexedBy hp.methods MethodEntry.id (fun y hy => h.knows_method he (hsub hy)) hascending
  have horder := h.inOrder hp hx
  obtain ⟨staticFields, hstatic⟩ := fields (List.subset_append_left _ _) horder.staticFields
  obtain ⟨instanceFields, hinstance⟩ := fields (List.subset_append_right _ _) horder.instanceFields
  obtain ⟨directMethods, hdirect⟩ := methods (List.subset_append_left _ _) horder.directMethods
  obtain ⟨virtualMethods, hvirtual⟩ := methods (List.subset_append_right _ _) horder.virtualMethods
  refine ⟨[staticFields, instanceFields, directMethods, virtualMethods], ?_, ?_,
    fun code out hout => ?_, fun code out hout => ?_⟩
  · obtain ⟨_, _, _, hmembers, -⟩ := hx.members
    obtain ⟨hdirects, hvirtuals⟩ := hmembers.forall₂_methods
    have hstatics := hstatic.map_eq
    have hinstances := hinstance.map_eq
    rw [hx.staticFields, Gather.fieldEntries_eq, List.map_map] at hstatics
    rw [hx.instanceFields, Gather.fieldEntries_eq, List.map_map] at hinstances
    have hdirects := (map_eq_of_forall₂ hdirects fun _ _ _ hy =>
      congrArg c.resolver.method hy.2.symm).trans hdirect.map_eq
    have hvirtuals := (map_eq_of_forall₂ hvirtuals fun _ _ _ hy =>
      congrArg c.resolver.method hy.2.symm).trans hvirtual.map_eq
    simp only [ClassDef.memberIndices, List.map_cons, List.map_nil]
    rw [← hstatics, ← hinstances, ← hdirects, ← hvirtuals]
    rfl
  · simp only [List.mem_cons, List.not_mem_nil, or_false, forall_eq_or_imp, forall_eq]
    exact ⟨hstatic.leadTo, hinstance.leadTo, hdirect.leadTo, hvirtual.leadTo⟩
  · refine decodeMemberSteps_reads nextDifference (deltas 0) (fun hbytes _ => ?_) hstatic hinstance
      hdirect hvirtual hout
    rw [← length_deltas 0]
    exact hbytes.differences_reads none
  · exact decodeMemberSteps_reads DexFile.nextIndex (fun indices => indices)
      (fun hbytes hi => hbytes.indices_reads (fun p hp => absurd hp (Option.not_mem_none p)) hi)
      hstatic hinstance hdirect hvirtual hout

theorem Contents.classLeads_of_ofDex {o : WriteOptions} {dex : Dex} {c : Contents}
    (h : ofDex o dex = .ok c) :
    List.Forall₂ (fun x e => ∃ lists, ClassLeads c.resolver o x e lists) dex.classes c.classes := by
  obtain ⟨g, hg⟩ := fills_of_ofDex h
  have hheld := (List.forall₂_and_left _ _).mpr ⟨fun e he => he, hg.classes.flip⟩
  exact hheld.flip.imp fun x e ⟨he, hx⟩ => hg.exists_classLeads (short_of_ofDex h) hx he

/-! ## Members that are read -/

namespace DexFile

section
variable {f : DexFile} {previous : Option UInt32} {bytes : ByteArray} {index after : Nat}

/-- An accepted difference leads on from the member before, and no further than 32 bits reach. -/
theorem nextIndex_eq_ok {i : UInt32} (h : nextIndex previous bytes index = .ok i after) :
    ∃ d, Decoder.uleb bytes index = .ok d after ∧ i.toNat = (previous.getD 0).toNat + d.toNat ∧
      ∀ p ∈ previous, d ≠ 0 := by
  obtain ⟨d, between, hd, h⟩ := Decoder.bind_eq_ok.mp h
  cases previous with
  | none =>
    obtain ⟨rfl, rfl⟩ := Decoder.pure_eq_ok.mp h
    exact ⟨d, hd, (Nat.zero_add _).symm, nofun⟩
  | some p =>
    dsimp only at h
    split at h
    · cases h
    next hfit =>
      obtain ⟨rfl, rfl⟩ := Decoder.pure_eq_ok.mp h
      obtain ⟨hne, hlt⟩ := not_or.mp hfit
      refine ⟨d, hd, ?_, fun _ _ => hne⟩
      rw [Option.getD_some, UInt32.toNat_add, Nat.mod_eq_of_lt (Nat.lt_of_not_le hlt)]

/-- The flags of a member and its restriction take no bytes at the cursor. -/
theorem eq_of_memberFlags {stored : UInt32} {place : Option Nat}
    {x : (UInt32 × UInt32) × Option Nat}
    (h : f.memberFlags stored place bytes index = .ok x after) : after = index := by
  unfold memberFlags at h
  split at h
  · cases h
    rfl
  · split at h
    · cases h
      rfl
    · obtain ⟨_, _, _, hget, hrest⟩ := memberBind_eq_ok.mp h
      cases hget
      obtain ⟨_, _, hnext, hrest⟩ := memberLift_eq_ok.mp hrest
      obtain ⟨-, rfl⟩ := Decoder.lift_eq_ok.mp hnext
      cases hrest
      rfl

theorem lt_of_field {i : UInt32} {id : FieldId} (h : f.field i = .ok id) :
    i.toNat < f.fields.size := by
  obtain ⟨_, hitem, -⟩ := bind_eq_ok.mp h
  exact lt_of_item hitem

theorem lt_of_method {i : UInt32} {id : MethodId} (h : f.method i = .ok id) :
    i.toNat < f.methods.size := by
  obtain ⟨_, hitem, -⟩ := bind_eq_ok.mp h
  exact lt_of_item hitem

theorem skipNumbers_succ_eq_ok {more : Nat} {d : UInt32} {between : Nat}
    (hd : Decoder.uleb bytes index = .ok d between)
    (h : skipNumbers more bytes between = .ok () after) :
    skipNumbers (more + 1) bytes index = .ok () after :=
  Decoder.bind_eq_ok.mpr ⟨d, between, hd, h⟩

end

/-- The field with an index as it is read. -/
structure FieldNamed (f : DexFile) (i : UInt32) (z : FieldDef) : Prop where
  lt_size : i.toNat < f.fields.size
  id : ∃ id, f.field i = .ok id ∧ z.name = id.name ∧ z.type = id.type

/-- The method with an index as it is read. -/
structure MethodNamed (f : DexFile) (i : UInt32) (z : MethodDef) : Prop where
  lt_size : i.toNat < f.methods.size
  id : ∃ id, f.method i = .ok id ∧ z.name = id.name ∧ z.proto = id.proto

theorem leadFrom_of_decodeFields {f : DexFile} {a : Annotations} {count : Nat}
    {previous : Option UInt32} {values : Option (List Value)} {place stop : Option Nat}
    {bytes : ByteArray} {index after : Nat} {fields : List FieldDef}
    (h : f.decodeFields a count previous values place bytes index = .ok (fields, stop) after)
    (p : Option UInt32) :
    ∃ differences indices,
      decodeSteps nextDifference 1 count p bytes index = .ok differences after ∧
        LeadFrom previous differences indices ∧ List.Forall₂ f.FieldNamed indices fields := by
  induction count generalizing previous values place index fields p with
  | zero =>
    cases h
    exact ⟨[], [], rfl, .nil, .nil⟩
  | succ count ih =>
    obtain ⟨i, _, hi, hbehind⟩ := memberLift_eq_ok.mp h
    obtain ⟨id, _, hid, hstores⟩ := memberLift_eq_ok.mp hbehind
    obtain ⟨hknown, rfl⟩ := Decoder.lift_eq_ok.mp hid
    obtain ⟨stored, _, hstored, hkeeps⟩ := memberLift_eq_ok.mp hstores
    obtain ⟨⟨access, restriction⟩, _, _, hflags, hstarts⟩ := memberBind_eq_ok.mp hkeeps
    obtain rfl := eq_of_memberFlags hflags
    obtain ⟨value, _, hvalue, hgoes⟩ := memberLift_eq_ok.mp hstarts
    obtain ⟨-, rfl⟩ := Decoder.lift_eq_ok.mp hvalue
    obtain ⟨rest, _, _, hrest, hends⟩ := memberBind_eq_ok.mp hgoes
    cases hends
    obtain ⟨d, hd, hsum, hne⟩ := nextIndex_eq_ok hi
    obtain ⟨differences, indices, hread, hlead, hnamed⟩ := ih hrest (some d)
    refine ⟨d :: differences, i :: indices, ?_, .cons hsum hne hlead, .cons ?_ hnamed⟩
    · exact Decoder.bind_eq_ok.mpr ⟨d, _, hd, Decoder.bind_eq_ok.mpr ⟨(), _,
        skipNumbers_succ_eq_ok hstored rfl, Decoder.bind_eq_ok.mpr ⟨_, _, hread, rfl⟩⟩⟩
    · exact ⟨lt_of_field hknown, id, hknown, rfl, rfl⟩

/-- Static fields that are read have been read one by one in the data of their class. -/
theorem exists_decodeFields_of_staticFields {f : DexFile} {index : Nat} {fields : List FieldDef}
    (h : f.staticFields index = .ok fields) (hne : fields ≠ []) :
    ∃ a count values place start stop after,
      f.decodeFields a count none (some values) place f.data start = .ok (fields, stop) after := by
  obtain ⟨_, -, h⟩ := bind_eq_ok.mp h
  obtain ⟨i, -, h⟩ := bind_eq_ok.mp h
  obtain ⟨a, -, h⟩ := bind_eq_ok.mp h
  obtain ⟨values, -, h⟩ := bind_eq_ok.mp h
  split at h
  · cases h
    exact absurd rfl hne
  · obtain ⟨count, place, start, stop, after, h⟩ := exists_decodeFields h
    exact ⟨a, count, values, place, start, stop, after, h⟩

theorem names_of_methodDef {f : DexFile} {a : Annotations} {i access restriction offset : UInt32}
    {id : MethodId} {z : MethodDef} (h : f.methodDef a i id access restriction offset = .ok z) :
    z.name = id.name ∧ z.proto = id.proto := by
  obtain ⟨item, -, h⟩ := bind_eq_ok.mp h
  dsimp only at h
  split at h <;>
  · obtain ⟨_, -, h⟩ := bind_eq_ok.mp h
    obtain rfl := pure_eq_ok.mp h
    refine ⟨rfl, ?_⟩
    simp [MethodDef.proto, Function.comp_def]

theorem leadFrom_of_decodeMethods {f : DexFile} {a : Annotations} {count : Nat}
    {previous : Option UInt32} {place stop : Option Nat} {bytes : ByteArray} {index after : Nat}
    {methods : List MethodDef}
    (h : f.decodeMethods a count previous place bytes index = .ok (methods, stop) after)
    (p : Option UInt32) :
    ∃ differences indices,
      decodeSteps nextDifference 2 count p bytes index = .ok differences after ∧
        LeadFrom previous differences indices ∧ List.Forall₂ f.MethodNamed indices methods := by
  induction count generalizing previous place index methods p with
  | zero =>
    cases h
    exact ⟨[], [], rfl, .nil, .nil⟩
  | succ count ih =>
    obtain ⟨i, _, hi, hbehind⟩ := memberLift_eq_ok.mp h
    obtain ⟨id, _, hid, hstores⟩ := memberLift_eq_ok.mp hbehind
    obtain ⟨hknown, rfl⟩ := Decoder.lift_eq_ok.mp hid
    obtain ⟨stored, _, hstored, hkeeps⟩ := memberLift_eq_ok.mp hstores
    obtain ⟨⟨access, restriction⟩, _, _, hflags, hplaces⟩ := memberBind_eq_ok.mp hkeeps
    obtain rfl := eq_of_memberFlags hflags
    obtain ⟨offset, _, hoffset, hdefines⟩ := memberLift_eq_ok.mp hplaces
    obtain ⟨z, _, hz, hgoes⟩ := memberLift_eq_ok.mp hdefines
    obtain ⟨hmethod, rfl⟩ := Decoder.lift_eq_ok.mp hz
    obtain ⟨rest, _, _, hrest, hends⟩ := memberBind_eq_ok.mp hgoes
    cases hends
    obtain ⟨d, hd, hsum, hne⟩ := nextIndex_eq_ok hi
    obtain ⟨differences, indices, hread, hlead, hnamed⟩ := ih hrest (some d)
    refine ⟨d :: differences, i :: indices, ?_, .cons hsum hne hlead, .cons ?_ hnamed⟩
    · exact Decoder.bind_eq_ok.mpr ⟨d, _, hd, Decoder.bind_eq_ok.mpr ⟨(), _,
        skipNumbers_succ_eq_ok hstored (skipNumbers_succ_eq_ok hoffset rfl),
        Decoder.bind_eq_ok.mpr ⟨_, _, hread, rfl⟩⟩⟩
    · obtain ⟨hname, hproto⟩ := names_of_methodDef (within_eq_ok_iff.mp hmethod)
      exact ⟨lt_of_method hknown, id, hknown, hname, hproto⟩

end DexFile

/-- For every class that can be gathered the differences that are written lead to the indices of its
members, list by list: no difference falls below 0, none but the first is 0, and the steps of the
reader along them give the indices. Whatever fields or methods a reader accepts in whatever bytes,
their differences lead to the indices of these fields or methods, which are those of entries of the
pool. -/
theorem members_leadTo :
    (∀ o dex c, Contents.ofDex o dex = .ok c →
      List.Forall₂ (fun x e => ∃ lists, ClassLeads c.resolver o x e lists) dex.classes c.classes) ∧
      (∀ (f : DexFile) a count values place bytes index fields stop after,
        f.decodeFields a count none values place bytes index = .ok (fields, stop) after →
          ∃ differences indices,
            decodeSteps nextDifference 1 count none bytes index = .ok differences after ∧
              LeadTo differences indices ∧ List.Forall₂ f.FieldNamed indices fields) ∧
      ∀ (f : DexFile) a count place bytes index methods stop after,
        f.decodeMethods a count none place bytes index = .ok (methods, stop) after →
          ∃ differences indices,
            decodeSteps nextDifference 2 count none bytes index = .ok differences after ∧
              LeadTo differences indices ∧ List.Forall₂ f.MethodNamed indices methods := by
  refine ⟨fun o dex c => Contents.classLeads_of_ofDex, ?_, ?_⟩
  · intro f a count values place bytes index fields stop after h
    obtain ⟨differences, indices, hread, hlead, hnamed⟩ := DexFile.leadFrom_of_decodeFields h none
    exact ⟨differences, indices, hread, hlead.leadTo, hnamed⟩
  · intro f a count place bytes index methods stop after h
    obtain ⟨differences, indices, hread, hlead, hnamed⟩ := DexFile.leadFrom_of_decodeMethods h none
    exact ⟨differences, indices, hread, hlead.leadTo, hnamed⟩

/-- The one field of a class, as it is written and as it is read. -/
theorem members_leadTo_number : ∃ bytes f a count z values place start stop after,
    Dex.encode {} ⟨[numberClass 8 none]⟩ = .ok bytes ∧
      DexFile.ofBytes {} bytes.toByteArray 0 = .ok f ∧
      (∃ lists, ClassLeads (Contents.number 8 none).resolver {} (numberClass 8 none)
        (Contents.numberEntry 8 none) lists) ∧
      f.decodeFields a count none (some values) place f.data start = .ok ([z], stop) after ∧
      ∃ differences indices,
        decodeSteps nextDifference 1 count none f.data start = .ok differences after ∧
          LeadTo differences indices ∧ List.Forall₂ f.FieldNamed indices [z] := by
  have hstored : Contents.storedAccess {} 8 0 = .ok 8 := rfl
  have hb : Bytes.uleb 8 = [8] := by cbv
  have hof := @Contents.ofDex_number_none {} 8
  obtain ⟨bytes, f, hbytes, hf, hdex⟩ :=
    Dex.exists_readAs_number rfl hof hstored hb (v := .int 0) (by cbv) rfl
  obtain ⟨hwritten, hfields, -⟩ := members_leadTo
  obtain ⟨hlists, -⟩ := List.forall₂_cons.mp (hwritten {} _ _ hof)
  obtain ⟨classes, hclasses, hdex⟩ := bind_eq_ok.mp hdex
  cases hdex
  have hclasses := mapM_eq_ok.mp hclasses
  have hone : f.classCount = 1 := by simpa using hclasses.length_eq
  rw [hone] at hclasses
  obtain ⟨hclass, -⟩ := List.forall₂_cons.mp hclasses
  obtain ⟨a, count, values, place, start, stop, after, hread⟩ :=
    DexFile.exists_decodeFields_of_staticFields (DexFile.staticFields_of_classDef hclass)
      (List.cons_ne_nil _ _)
  obtain ⟨differences, indices, hsteps, hlead, hnamed⟩ := hfields f a _ _ _ _ _ _ _ _ hread
  exact ⟨bytes, f, a, count, _, values, place, start, stop, after, hbytes, hf, hlists, hread,
    differences, indices, hsteps, hlead, hnamed⟩

end Dalvik
