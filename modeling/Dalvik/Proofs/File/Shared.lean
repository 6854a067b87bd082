import Dalvik.Proofs.File.Layout
import Dalvik.Proofs.Gather.Classes

/-!
# Values that are stored once

Eight kinds of values have items of their own in the data, and each value has one of them. Its offset
tells it from all others, since items of one section begin at different offsets, and sections do not
overlap.
-/
namespace Dalvik
open Result

/-- A value that has an item of its own. -/
inductive SharedItem where
  | typeList (types : List TypeId)
  | encodedArray (values : List Value)
  | annotationItem (a : AnnotationItem)
  | annotationSet (set : List AnnotationItem)
  | annotationSetList (sets : List (List AnnotationItem))
  | directory (d : AnnotationDirectory)
  /-- The code of a method, with the debug information if its item points there. -/
  | code (c : Code) (incoming outgoing : UInt16) (debug : Option DebugInfo)
  | debugInfo (d : DebugInfo)

namespace SharedItem

/-- The section that the item is in. -/
def kind : SharedItem → SectionKind
  | typeList _ => .typeLists
  | encodedArray _ => .encodedArrays
  | annotationItem _ => .annotationItems
  | annotationSet _ => .annotationSets
  | annotationSetList _ => .annotationSetLists
  | directory _ => .annotationDirectories
  | code .. => .codeItems
  | debugInfo _ => .debugInfo

/-- The sections of shared items. -/
def kinds : List SectionKind :=
  [.typeLists, .encodedArrays, .annotationItems, .annotationSets, .annotationSetLists,
    .annotationDirectories, .codeItems, .debugInfo]

/-- The id of the value in the set of its kind. -/
def id? (s : SharedItems) : SharedItem → Option Nat
  | typeList types => s.typeLists.id? types
  | encodedArray values => s.encodedArrays.id? values
  | annotationItem a => s.annotations.id? a
  | annotationSet set => s.annotationSets.id? set
  | annotationSetList sets => s.annotationSetLists.id? sets
  | directory d => s.directories.id? d
  | code c incoming outgoing debug => do
    s.code.id? ⟨c, incoming, outgoing, ← debug.mapM s.debugInfos.id?⟩
  | debugInfo d => s.debugInfos.id? d

/-- The value is one of those that are stored. -/
def IsIn (s : SharedItems) (u : SharedItem) : Prop := ∃ i, u.id? s = some i

/-- The section of the data that the item is in. -/
def home (d : Contents.Data) : SharedItem → DataSection
  | typeList _ => d.typeLists
  | encodedArray _ => d.encodedArrays
  | annotationItem _ => d.annotations
  | annotationSet _ => d.annotationSets
  | annotationSetList _ => d.annotationSetLists
  | directory _ => d.directories
  | code .. => d.code
  | debugInfo _ => d.debugInfos

/-- The item of the value begins at an offset. -/
def BeginsAt (s : SharedItems) (d : Contents.Data) (u : SharedItem) (offset : Nat) : Prop :=
  ∃ i p, u.id? s = some i ∧ (u.home d).items[i]? = some p ∧ p.offset = offset ∧ offset ≠ 0

/-! ## Ids -/

section
variable {s : SharedItems} {u v : SharedItem} {i : Nat}

theorem id?_code_eq_some {c : Code} {incoming outgoing : UInt16} {debug : Option DebugInfo} :
    (code c incoming outgoing debug).id? s = some i ↔
      ∃ id, debug.mapM s.debugInfos.id? = some id ∧
        s.code.id? ⟨c, incoming, outgoing, id⟩ = some i :=
  Option.bind_eq_some_iff

theorem eq_of_mapM_id? {d e : Option DebugInfo} {id : Option Nat} {set : ItemSet DebugInfo}
    (hd : d.mapM set.id? = some id) (he : e.mapM set.id? = some id) : d = e := by
  cases d <;> cases e
  · rfl
  · cases hd
    simp at he
  · cases he
    simp at hd
  · simp only [Option.mapM_some] at hd he
    obtain ⟨i, hi, rfl⟩ := Option.map_eq_some_iff.mp hd
    obtain ⟨j, hj, hij⟩ := Option.map_eq_some_iff.mp he
    cases hij
    rw [ItemSet.eq_of_id? hi hj]

/-- An id belongs to one value of a kind. -/
theorem eq_of_id? (hkind : u.kind = v.kind) (hu : u.id? s = some i) (hv : v.id? s = some i) :
    u = v := by
  cases u <;> cases v <;> cases hkind
  case code.code =>
    obtain ⟨id, hid, hu⟩ := id?_code_eq_some.mp hu
    obtain ⟨id', hid', hv⟩ := id?_code_eq_some.mp hv
    cases ItemSet.eq_of_id? hu hv
    rw [eq_of_mapM_id? hid hid']
  all_goals exact congrArg _ (ItemSet.eq_of_id? hu hv)

end

/-! ## Offsets -/

section
variable {o : WriteOptions} {c : Contents} {d : Contents.Data} {start m n : Nat} {u v : SharedItem}

theorem home_mem (u : SharedItem) (d : Contents.Data) (compact : Bool) :
    u.home d ∈ d.sections compact :=
  Contents.Data.mem_sections.mpr (by cases u <;> simp [home])

theorem kind_home (hb : c.Built o start d) (u : SharedItem) : (u.home d).kind = u.kind := by
  obtain ⟨debug, -, hcode, hinfos, -⟩ := Contents.codeSections_spec hb.codeSections
  cases u with
  | typeList => exact Contents.kind_of_build hb.typeLists
  | encodedArray => exact Contents.kind_of_build hb.encodedArrays
  | annotationItem => exact Contents.kind_of_build hb.annotations
  | annotationSet => exact Contents.kind_of_build hb.annotationSets
  | annotationSetList => exact Contents.kind_of_build hb.annotationSetLists
  | directory => exact Contents.kind_of_build hb.directories
  | code => exact Contents.kind_of_build hcode
  | debugInfo => exact Contents.kind_of_build hinfos

/-- An offset that is not 0 belongs to an item of one section alone. -/
theorem eq_of_offset (hb : c.Built o start d) {s t : DataSection}
    (hs : s ∈ d.sections o.version.isCompact) (ht : t ∈ d.sections o.version.isCompact)
    {p q : Placed} (hp : p ∈ s.items) (hq : q ∈ t.items) (hne : p.offset ≠ 0)
    (heq : p.offset = q.offset) : s = t := by
  by_contra hst
  have hapart : s.stop ≤ t.start ∨ t.stop ≤ s.start := by
    have hpair : (d.sections o.version.isCompact).Pairwise
        fun s t => s.stop ≤ t.start ∨ t.stop ≤ s.start := hb.chained.apart.imp Or.inl
    have : Std.Symm fun s t : DataSection => s.stop ≤ t.start ∨ t.stop ≤ s.start :=
      ⟨fun _ _ => Or.symm⟩
    exact hpair.forall hs ht hst
  obtain ⟨_, hs⟩ := hb.spaced.exists_alignment s hs
  obtain ⟨_, ht⟩ := hb.spaced.exists_alignment t ht
  obtain ⟨hple, hplt, -⟩ := hs.inside p hp hne
  obtain ⟨hqle, hqlt, -⟩ := ht.inside q hq (heq ▸ hne)
  omega

/-- Items begin at the same offset if and only if they belong to the same value. -/
theorem BeginsAt.eq_iff (hb : c.Built o start d) (hu : BeginsAt c.items d u m)
    (hv : BeginsAt c.items d v n) : m = n ↔ u = v := by
  obtain ⟨i, p, hi, hp, rfl, hm⟩ := hu
  obtain ⟨j, q, hj, hq, rfl, -⟩ := hv
  constructor
  · intro heq
    have hhome : u.home d = v.home d :=
      eq_of_offset hb (u.home_mem d _) (v.home_mem d _) (List.mem_of_getElem? hp)
        (List.mem_of_getElem? hq) hm heq
    obtain ⟨_, hspaced⟩ := hb.spaced.exists_alignment _ (u.home_mem d _)
    rw [← hhome] at hq
    obtain rfl := hspaced.eq_of_offset hp hq hm heq
    exact eq_of_id? (by rw [← kind_home hb u, hhome, kind_home hb v]) hi hj
  · rintro rfl
    obtain rfl := Option.some.inj (hi.symm.trans hj)
    rw [Option.some.inj (hp.symm.trans hq)]

/-- The offset that is stored for a value is where its item begins. -/
theorem beginsAt_of_offset (hb : c.Built o start d)
    (hstop : start + (d.bytes o.version.isCompact).length < UInt32.size) {what : String}
    {offset : UInt32} (h : (u.home d).offset what (u.id? c.items) = .ok offset) :
    BeginsAt c.items d u offset.toNat := by
  unfold DataSection.offset at h
  split at h
  next p hp =>
    obtain ⟨i, hi, hp⟩ := Option.bind_eq_some_iff.mp hp
    split at h
    · cases h
    next hne =>
      have hsmall : p.offset < UInt32.size := by
        obtain ⟨_, hspaced⟩ := hb.spaced.exists_alignment _ (u.home_mem d _)
        obtain ⟨-, hlt, -⟩ := hspaced.inside p (List.mem_of_getElem? hp) hne
        have hend := hb.chained.stop_le _ (u.home_mem d _)
        have hbytes : ((d.sections o.version.isCompact).flatMap DataSection.bytes).length =
          (d.bytes o.version.isCompact).length := rfl
        omega
      cases h
      have hnat : (UInt32.ofNat p.offset).toNat = p.offset := UInt32.toNat_ofNat_of_lt' hsmall
      rw [hnat]
      exact ⟨i, p, hi, hp, rfl, hne⟩
  · cases h

end

/-! ## The number of values -/

section
variable {α : Type} [BEq α] [LawfulBEq α] [Hashable α] {s : SharedItems} {kind : SectionKind}
  {set : ItemSet α} {make : α → SharedItem}

theorem exists_values (hmake : ∀ a ∈ set.toList, ∀ b ∈ set.toList, make a = make b → a = b)
    (hmem : ∀ u, (u.kind = kind ∧ u.IsIn s) ↔ ∃ a ∈ set.toList, make a = u) :
    ∃ values : List SharedItem, values.Nodup ∧
      (∀ u, u ∈ values ↔ u.kind = kind ∧ u.IsIn s) ∧ values.length = set.size := by
  refine ⟨set.toList.map make, List.Nodup.map_on hmake set.nodup_toList, fun u => ?_, ?_⟩
  · rw [hmem, List.mem_map]
  · rw [List.length_map, ItemSet.length_toList]

/-- Where the values of a kind are those of a set, the number of them is its size. -/
theorem exists_values_of_id? (hmake : Function.Injective make)
    (hkind : ∀ u, u.kind = kind ↔ ∃ a, make a = u) (hid : ∀ a, (make a).id? s = set.id? a) :
    ∃ values : List SharedItem, values.Nodup ∧
      (∀ u, u ∈ values ↔ u.kind = kind ∧ u.IsIn s) ∧ values.length = set.size := by
  refine exists_values (fun a _ b _ h => hmake h) fun u => ?_
  simp only [hkind, IsIn, ItemSet.mem_toList_iff, ← hid]
  constructor
  · rintro ⟨⟨a, rfl⟩, h⟩
    exact ⟨a, h, rfl⟩
  · rintro ⟨a, h, rfl⟩
    exact ⟨⟨a, rfl⟩, h⟩

end

/-- The debug information of every code item is stored too. -/
def Closed (s : SharedItems) : Prop :=
  ∀ x ∈ s.code.toList, ∀ k ∈ x.debug, ∃ d, s.debugInfos.get? k = some d

/-- The code that an item stands for. -/
def ofCode (s : SharedItems) (x : SharedCode) : SharedItem :=
  code x.code x.incoming x.outgoing (x.debug.bind s.debugInfos.get?)

theorem mapM_id?_of_closed {s : SharedItems} (hs : Closed s) {x : SharedCode}
    (hx : x ∈ s.code.toList) :
    (x.debug.bind s.debugInfos.get?).mapM s.debugInfos.id? = some x.debug := by
  cases hdebug : x.debug with
  | none => rfl
  | some k =>
    obtain ⟨d, hd⟩ := hs x hx k hdebug
    rw [Option.bind_some, hd, Option.mapM_some, ItemSet.id?_eq_some_iff.mpr hd]
    rfl

theorem isIn_code_iff {s : SharedItems} (hs : Closed s) {u : SharedItem} :
    (u.kind = .codeItems ∧ u.IsIn s) ↔ ∃ x ∈ s.code.toList, ofCode s x = u := by
  constructor
  · rintro ⟨hkind, i, hi⟩
    cases u <;> cases hkind
    obtain ⟨id, hid, hi⟩ := id?_code_eq_some.mp hi
    have hx := ItemSet.mem_toList_iff.mpr ⟨i, hi⟩
    refine ⟨_, hx, congrArg (code _ _ _) ?_⟩
    exact eq_of_mapM_id? (mapM_id?_of_closed hs hx) hid
  · rintro ⟨x, hx, rfl⟩
    obtain ⟨i, hi⟩ := ItemSet.mem_toList_iff.mp hx
    exact ⟨rfl, i, id?_code_eq_some.mpr ⟨_, mapM_id?_of_closed hs hx, hi⟩⟩

theorem ofCode_injective {s : SharedItems} (hs : Closed s) {x y : SharedCode}
    (hx : x ∈ s.code.toList) (hy : y ∈ s.code.toList) (h : ofCode s x = ofCode s y) : x = y := by
  have hdebug := mapM_id?_of_closed hs hx
  obtain ⟨c, incoming, outgoing, debug⟩ := x
  obtain ⟨c', incoming', outgoing', debug'⟩ := y
  simp only [ofCode, code.injEq] at h
  obtain ⟨rfl, rfl, rfl, h⟩ := h
  rw [h, mapM_id?_of_closed hs hy] at hdebug
  have hdebug : debug' = debug := Option.some.inj hdebug
  rw [hdebug]

/-- The contents count each value of a kind once. -/
theorem exists_values_of_kind (o : WriteOptions) {c : Contents} (hs : Closed c.items)
    {kind : SectionKind} (hkind : kind ∈ kinds) :
    ∃ values : List SharedItem, values.Nodup ∧
      (∀ u, u ∈ values ↔ u.kind = kind ∧ u.IsIn c.items) ∧ values.length = c.count o kind := by
  simp only [kinds, List.mem_cons, List.not_mem_nil, or_false] at hkind
  rcases hkind with rfl | rfl | rfl | rfl | rfl | rfl | rfl | rfl
  · exact exists_values_of_id? (fun _ _ => typeList.inj) (fun u => by cases u <;> simp [kind])
      fun _ => rfl
  · exact exists_values_of_id? (fun _ _ => encodedArray.inj) (fun u => by cases u <;> simp [kind])
      fun _ => rfl
  · exact exists_values_of_id? (fun _ _ => annotationItem.inj) (fun u => by cases u <;> simp [kind])
      fun _ => rfl
  · exact exists_values_of_id? (fun _ _ => annotationSet.inj) (fun u => by cases u <;> simp [kind])
      fun _ => rfl
  · exact exists_values_of_id? (fun _ _ => annotationSetList.inj)
      (fun u => by cases u <;> simp [kind]) fun _ => rfl
  · exact exists_values_of_id? (fun _ _ => directory.inj) (fun u => by cases u <;> simp [kind])
      fun _ => rfl
  · exact exists_values (fun x hx y hy h => ofCode_injective hs hx hy h) fun u => isIn_code_iff hs
  · exact exists_values_of_id? (fun _ _ => debugInfo.inj) (fun u => by cases u <;> simp [kind])
      fun _ => rfl

end SharedItem

theorem Gathered.Fills.closed {o : WriteOptions} {dex : Dex} {g : Gathered} {c : Contents}
    (h : g.Fills o dex c) : SharedItem.Closed c.items := by
  intro x hx k hk
  rw [h.items] at hx ⊢
  have hhas : g.Has (.code x) := ItemSet.mem_toList_iff.mp hx
  have hneeds : Part.debugAt k ∈ (Part.code x).needs :=
    List.mem_append_right _ (List.mem_map.mpr ⟨k, Option.mem_toList.mpr hk, rfl⟩)
  obtain ⟨i, hi⟩ := h.has hhas hneeds
  obtain ⟨d, hd, -⟩ := Option.map_eq_some_iff.mp hi
  exact ⟨d, hd⟩

end Dalvik
