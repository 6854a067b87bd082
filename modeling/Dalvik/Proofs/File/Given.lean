import Dalvik.Proofs.File.StaticFields
import Dalvik.Proofs.Gather.Keeps
import Dalvik.Proofs.Instruction.Taken

/-!
# What is read refers to entries of the file

Indices are looked up while they are read, so a value, an annotation or an instruction that is read
refers to entries that the file has.
-/
namespace Dalvik
open Result

/-! ## Entries of a source -/

/-- True of a reference to an entry that the source has at some index. -/
def Source.Gives (s : Source) : Reference → Prop
  | .string v => ∃ i, s.string i = .ok v
  | .type v => ∃ i, s.type i = .ok v
  | .proto v => ∃ i, s.proto i = .ok v
  | .field v => ∃ i, s.field i = .ok v
  | .method v => ∃ i, s.method i = .ok v
  | .methodHandle v => ∃ i, s.methodHandle i = .ok v
  | .callSite v => ∃ i, s.callSite i = .ok v
  | .raw _ => True

section
variable {s : Source}

open Decoder

theorem Value.gives_referencesAll {vs : List Value} (h : ∀ v ∈ vs, ∀ r ∈ v.references, s.Gives r) :
    ∀ r ∈ Value.referencesAll vs, s.Gives r := by
  intro r hr
  obtain ⟨v, hv, hr⟩ := Gather.mem_referencesAll hr
  exact h v hv r hr

theorem Element.gives_referencesAll {es : List Element}
    (h : ∀ e ∈ es, s.Gives (.string e.name) ∧ ∀ r ∈ e.value.references, s.Gives r) :
    ∀ r ∈ Element.referencesAll es, s.Gives r := by
  induction es with
  | nil => simp [Element.referencesAll]
  | cons e es ih =>
    obtain ⟨⟨hname, hvalue⟩, hes⟩ := List.forall_mem_cons.mp h
    cases e
    intro r hr
    simp only [Element.referencesAll, List.mem_append, List.mem_cons] at hr
    rcases hr with hr | rfl | hr
    · exact ih hes r hr
    · exact hname
    · exact hvalue r hr

theorem annotationBody_yields {value : Decoder Value}
    (h : Yields value fun v => ∀ r ∈ v.references, s.Gives r) :
    Yields (annotationBody s value) fun a => ∀ r ∈ a.references, s.Gives r := by
  have element : Yields (elementBody s value) fun e =>
      s.Gives (.string e.name) ∧ ∀ r ∈ e.value.references, s.Gives r :=
    .behind fun i => .lift_bind fun name hname => h.bind fun v hv => .pure ⟨⟨i, hname⟩, hv⟩
  refine .behind fun i => .lift_bind fun type htype => element.counted.bind fun es hes => .pure ?_
  rw [AnnotationValue.references]
  exact List.forall_mem_cons.mpr ⟨⟨i, htype⟩, Element.gives_referencesAll hes.2⟩

/-- An entry is referred to by the index at which it was found. -/
theorem entry_yields {α : Type} (reference : α → Reference) {width : UInt8}
    {fetch : UInt32 → Result α} {value : α → Value}
    (hvalue : ∀ a, (value a).references = [reference a])
    (h : ∀ i a, fetch i = .ok a → s.Gives (reference a)) :
    Yields (do return value (← fetch (← readIndex width))) fun v =>
      ∀ r ∈ v.references, s.Gives r := by
  refine .behind fun i => .lift_bind fun a ha => .pure ?_
  rw [hvalue]
  exact List.forall_mem_singleton.mpr (h i a ha)

theorem Value.decodeNested_yields (s : Source) (room : Nat) :
    Yields (decodeNested s room) fun v => ∀ r ∈ v.references, s.Gives r := by
  have number {α : Type} {d : Decoder α} {value : α → Value} (h : ∀ a, (value a).references = []) :
      Yields (do return value (← d)) fun v => ∀ r ∈ v.references, s.Gives r :=
    .behind fun a => .pure (by rw [h a]; exact nofun)
  induction room with
  | zero => exact .behind fun _ => .fail _
  | succ room ih =>
    refine .behind fun first => ?_
    dsimp only
    generalize (first &&& 0x1f).toNat = code
    split
    · exact number fun _ => by simp [references]
    · exact number fun _ => by simp [references]
    · exact number fun _ => by simp [references]
    · exact number fun _ => by simp [references]
    · exact number fun _ => by simp [references]
    · exact number fun _ => by simp [references]
    · exact number fun _ => by simp [references]
    · exact entry_yields .proto (fun _ => by rw [references]) fun i _ h => ⟨i, h⟩
    · exact entry_yields .methodHandle (fun _ => by rw [references]) fun i _ h => ⟨i, h⟩
    · exact entry_yields .string (fun _ => by rw [references]) fun i _ h => ⟨i, h⟩
    · exact entry_yields .type (fun _ => by rw [references]) fun i _ h => ⟨i, h⟩
    · exact entry_yields .field (fun _ => by rw [references]) fun i _ h => ⟨i, h⟩
    · exact entry_yields .method (fun _ => by rw [references]) fun i _ h => ⟨i, h⟩
    · exact entry_yields .field (fun _ => by rw [references]) fun i _ h => ⟨i, h⟩
    · exact ih.counted.bind fun vs hvs =>
        .pure (by rw [references]; exact gives_referencesAll hvs.2)
    · exact (annotationBody_yields ih).bind fun a ha => .pure (by rw [references]; exact ha)
    · exact .pure (by simp [references])
    · exact .pure (by simp [references])
    · exact .behind fun _ => .fail _

theorem Value.decode_yields (s : Source) :
    Yields (decode s) fun v => ∀ r ∈ v.references, s.Gives r :=
  decodeNested_yields s _

theorem decodeArray_yields (s : Source) :
    Yields (decodeArray s) fun vs => ∀ v ∈ vs, ∀ r ∈ v.references, s.Gives r :=
  (Value.decode_yields s).counted.mono fun _ h => h.2

theorem AnnotationItem.decode_yields (s : Source) :
    Yields (decode s) fun a => ∀ r ∈ a.value.references, s.Gives r :=
  .behind fun _ => .lift_bind fun _ _ =>
    (annotationBody_yields (Value.decode_yields s)).bind fun _ ha => .pure ha

/-! ## Instructions -/

namespace Instruction

theorem gives_of_resolve {kind : ReferenceKind} {index : UInt32} {r : Reference}
    (h : resolve s kind index = .ok r) : s.Gives r := by
  cases kind with
  | none => cases h
  | raw =>
    cases h
    trivial
  | string | type | field | method | proto | callSite | methodHandle =>
    obtain ⟨v, hv, rfl⟩ := map_eq_ok.mp h
    exact ⟨index, hv⟩

theorem Held.gives {o : Opcode} {argument : Nat} {units : List UInt16} {operands : Operands}
    (h : Held s o argument units operands) : ∀ r ∈ operands.references, s.Gives r := by
  cases h with
  | f21c _ h | f22c _ h | f31c _ _ h | f35c _ _ _ h | f3rc _ _ h =>
    exact List.forall_mem_singleton.mpr (gives_of_resolve h)
  | f45cc _ _ _ _ h h2 | f4rcc _ _ _ h h2 =>
    exact List.forall_mem_cons.mpr
      ⟨gives_of_resolve h, List.forall_mem_singleton.mpr (gives_of_resolve h2)⟩
  | _ => exact List.forall_mem_nil _

theorem decode_yields (table : OpcodeTable) (s : Source) :
    Yields (decode table s) fun i => ∀ r ∈ i.references, s.Gives r := by
  intro bytes index i after hrun
  obtain ⟨first, -, -, h⟩ := decode_eq_ok hrun
  by_cases hf : i.opcode.format = .arrayPayload
  · obtain ⟨width, elements, _, hoperands, -⟩ := array_of_decodeOperands hf h
    rw [references, hoperands]
    exact List.forall_mem_nil _
  · obtain ⟨units, -, -, -, hheld⟩ := takes_decodeOperands hf h
    exact hheld.gives

theorem Stream.gives {table : OpcodeTable} {bytes : ByteArray} {index after : Nat}
    {is : List Instruction} (h : Stream table s bytes index is after) :
    ∀ i ∈ is, ∀ r ∈ i.references, s.Gives r := by
  induction h with
  | done => exact List.forall_mem_nil _
  | next hi _ ih => exact List.forall_mem_cons.mpr ⟨decode_yields table s hi, ih⟩

end Instruction

theorem CodeItem.decode_yields (compact : Bool) (table : OpcodeTable) (s : Source) :
    Yields (decode compact table s) fun c =>
      ∀ i ∈ c.instructions, ∀ r ∈ i.references, s.Gives r := by
  have hall {count : Nat} : Yields (Instruction.decodeAll table s count) fun is =>
      ∀ i ∈ is, ∀ r ∈ i.references, s.Gives r := fun _ _ _ _ hrun =>
    (Instruction.decodeAll_eq_ok_iff.mp hrun).2.2.gives
  refine .behind fun start => ?_
  cases compact <;>
    exact .behind fun h => hall.bind fun is his => .behind fun _ => .pure his

end

namespace DexFile

variable {f : DexFile}

theorem gives_of_valueSource {r : Reference} (h : f.valueSource.Gives r) : f.source.Gives r := by
  cases r with
  | callSite s => exact nomatch h.choose_spec
  | _ => exact h

/-! ## Call sites and method handles -/

section
variable {i : UInt32} {s : CallSite} {m : MethodHandle}

theorem lt_of_callSite (h : f.callSite i = .ok s) : i.toNat < f.callSites.size := by
  obtain ⟨offset, hoffset, -⟩ := bind_eq_ok.mp h
  exact lt_of_item hoffset

/-- A call site has the name of its index, and what it refers to is in the file. -/
theorem callSite_given (h : f.callSite i = .ok s) :
    s.name = CallSite.nameOf i.toNat ∧ ∀ r ∈ Value.referencesAll s.toValues, f.source.Gives r := by
  obtain ⟨offset, -, h⟩ := bind_eq_ok.mp h
  obtain ⟨values, hvalues, h⟩ := bind_eq_ok.mp h
  obtain ⟨hname, rfl⟩ := CallSite.ofValues_eq_ok h
  have hgiven := (decodeArray_yields f.valueSource).valueAt (within_eq_ok_iff.mp hvalues)
  exact ⟨hname, fun r hr => gives_of_valueSource (Value.gives_referencesAll hgiven r hr)⟩

theorem isConsistent_of_methodHandle (h : f.methodHandle i = .ok m) : m.IsConsistent := by
  obtain ⟨item, -, h⟩ := bind_eq_ok.mp h
  obtain ⟨kind, -, h⟩ := bind_eq_ok.mp h
  dsimp only at h
  split at h
  next haccess =>
    obtain ⟨x, -, h⟩ := bind_eq_ok.mp h
    obtain rfl := pure_eq_ok.mp h
    exact haccess
  next haccess =>
    obtain ⟨x, -, h⟩ := bind_eq_ok.mp h
    obtain rfl := pure_eq_ok.mp h
    exact Bool.eq_false_of_not_eq_true haccess

end

/-! ## Annotations and initial values -/

theorem annotationSet_given {offset : UInt32} {set : List AnnotationItem}
    (h : f.annotationSet offset = .ok set) : AnnotationItem.RefersOnly f.source.Gives set := by
  unfold annotationSet at h
  split at h
  · obtain rfl := pure_eq_ok.mp h
    exact nofun
  · obtain ⟨offsets, -, h⟩ := bind_eq_ok.mp h
    intro a ha
    obtain ⟨place, -, hread⟩ := exists_left_of_mem (mapM_eq_ok.mp h) ha
    exact (AnnotationItem.decode_yields f.source).valueAt (within_eq_ok_iff.mp hread)

theorem annotationSetList_given {offset : UInt32} {sets : List (List AnnotationItem)}
    (h : f.annotationSetList offset = .ok sets) :
    ∀ set ∈ sets, AnnotationItem.RefersOnly f.source.Gives set := by
  obtain ⟨offsets, -, h⟩ := bind_eq_ok.mp h
  intro set hset
  obtain ⟨place, -, hread⟩ := exists_left_of_mem (mapM_eq_ok.mp h) hset
  exact annotationSet_given hread

/-- The annotations of a class and of its members refer to entries of the file. -/
structure Annotations.Given (f : DexFile) (a : Annotations) : Prop where
  ofClass : AnnotationItem.RefersOnly f.source.Gives a.ofClass
  ofFields : ∀ e ∈ a.ofFields, AnnotationItem.RefersOnly f.source.Gives e.2
  ofMethods : ∀ e ∈ a.ofMethods, AnnotationItem.RefersOnly f.source.Gives e.2
  ofParameters : ∀ e ∈ a.ofParameters, ∀ set ∈ e.2, AnnotationItem.RefersOnly f.source.Gives set

theorem decodeDirectory_yields (f : DexFile) :
    Decoder.Yields f.decodeDirectory (Annotations.Given f) := by
  have member (m : MemberOffset) : Decoder.Yields
      (do return (m.member, ← f.annotationSet m.offset)) fun e =>
        AnnotationItem.RefersOnly f.source.Gives e.2 :=
    .lift_bind fun _ h => .pure (annotationSet_given h)
  have parameters (m : MemberOffset) : Decoder.Yields
      (do return (m.member, ← f.annotationSetList m.offset)) fun e =>
        ∀ set ∈ e.2, AnnotationItem.RefersOnly f.source.Gives set :=
    .lift_bind fun _ h => .pure (annotationSetList_given h)
  refine .behind fun d => .lift_bind fun ofClass hclass => ?_
  refine (Decoder.Yields.mapM member).bind fun ofFields hfields => ?_
  refine (Decoder.Yields.mapM member).bind fun ofMethods hmethods => ?_
  exact (Decoder.Yields.mapM parameters).bind fun ofParameters hparameters =>
    .pure ⟨annotationSet_given hclass, hfields, hmethods, hparameters⟩

theorem annotations_given {offset : UInt32} {a : Annotations} (h : f.annotations offset = .ok a) :
    a.Given f := by
  unfold annotations at h
  split at h
  · cases h
    exact ⟨nofun, nofun, nofun, nofun⟩
  · exact (decodeDirectory_yields f).valueAt (within_eq_ok_iff.mp h)

/-- What is said of a member is in one of the entries. -/
theorem forall_lastFor {α : Type} {P : α → Prop} {entries : List (UInt32 × List α)}
    (h : ∀ e ∈ entries, ∀ a ∈ e.2, P a) (index : UInt32) : ∀ a ∈ lastFor entries index, P a := by
  unfold lastFor
  cases hl : entries.reverse.lookup index with
  | none => exact nofun
  | some as => exact h _ (List.mem_reverse.mp (mem_of_lookup hl))

theorem staticValues_given {offset : UInt32} {values : List Value}
    (h : f.staticValues offset = .ok values) :
    ∀ v ∈ values, ∀ r ∈ v.references, f.source.Gives r := by
  unfold staticValues at h
  split at h
  · cases h
    exact nofun
  · exact (decodeArray_yields f.source).valueAt (within_eq_ok_iff.mp h)

/-! ## Members -/

namespace MemberDecoder

variable {α β : Type} {m : MemberDecoder α} {g : α → MemberDecoder β} {P : α → Prop} {Q : β → Prop}

/-- Wherever the restrictions are, the members that are read have the property. -/
def Yields (m : MemberDecoder α) (P : α → Prop) : Prop :=
  ∀ place, Decoder.Yields (m place) fun x => P x.1

namespace Yields

theorem pure {a : α} (h : P a) : Yields (Pure.pure a) P := fun _ => .pure h

theorem bind (hm : Yields m P) (hg : ∀ a, P a → Yields (g a) Q) : Yields (m >>= g) Q :=
  fun place => (hm place).bind fun x hx => hg x.1 hx x.2

/-- Whatever the first step gives. -/
theorem behind (hg : ∀ a, Yields (g a) Q) : Yields (m >>= g) Q :=
  fun _ => .behind fun x => hg x.1 x.2

theorem lift_bind {r : Result α} (hg : ∀ a, r = .ok a → Yields (g a) Q) :
    Yields (liftM (liftM r : Decoder α) >>= g) Q := by
  intro place bytes index x after hrun
  obtain ⟨a, stop, ha, hrun⟩ := memberLift_eq_ok.mp hrun
  exact hg a (Decoder.lift_eq_ok.mp ha).1 place hrun

end Yields
end MemberDecoder

section
variable {a : Annotations} (ha : a.Given f)
include ha

theorem decodeFields_yields (count : Nat) (previous : Option UInt32) {values : Option (List Value)}
    (hvalues : ∀ vs ∈ values, ∀ v ∈ vs, ∀ r ∈ v.references, f.source.Gives r) :
    MemberDecoder.Yields (f.decodeFields a count previous values) fun fields =>
      ∀ z ∈ fields, z.RefersOnly f.source.Gives := by
  induction count generalizing previous values with
  | zero => exact .pure nofun
  | succ count ih =>
    refine .behind fun index => .behind fun id => .behind fun stored => .behind fun flags => ?_
    refine .lift_bind fun value hvalue => ?_
    have hrest : ∀ vs ∈ values.map List.tail, ∀ v ∈ vs, ∀ r ∈ v.references, f.source.Gives r := by
      intro vs hvs v hv
      obtain ⟨ws, hws, rfl⟩ := Option.mem_map.mp hvs
      exact hvalues ws hws v (List.mem_of_mem_tail hv)
    refine (ih _ hrest).bind fun zs hzs => .pure (List.forall_mem_cons.mpr ⟨⟨?_, ?_⟩, hzs⟩)
    · intro v hv
      cases values with
      | none =>
        obtain rfl := pure_eq_ok.mp hvalue
        cases hv
      | some vs =>
        obtain ⟨w, hw, rfl⟩ := map_eq_ok.mp hvalue
        obtain rfl := Option.some.inj hv
        cases vs with
        | nil =>
          rw [(Value.flat_defaultFor (within_eq_ok_iff.mp hw)).1]
          exact nofun
        | cons u us =>
          obtain rfl := Except.ok.inj hw
          exact hvalues _ rfl _ List.mem_cons_self
    · exact forall_lastFor ha.ofFields index

theorem methodDef_given {index access restriction codeOffset : UInt32} {id : MethodId}
    {m : MethodDef} (h : f.methodDef a index id access restriction codeOffset = .ok m) :
    m.RefersOnly f.source.Gives := by
  obtain ⟨item, hitem, h⟩ := bind_eq_ok.mp h
  have hcode (debug : List DebugItem) : ∀ c ∈ item.map (·.toCode debug),
      ∀ i ∈ c.instructions, ∀ r ∈ i.references, f.source.Gives r := by
    intro c hc
    obtain ⟨i, rfl, rfl⟩ := Option.map_eq_some_iff.mp (Option.mem_def.mp hc)
    unfold codeItem at hitem
    split at hitem
    · cases hitem
    · obtain ⟨d, hd, hitem⟩ := bind_eq_ok.mp hitem
      obtain rfl := Option.some.inj (pure_eq_ok.mp hitem)
      exact (CodeItem.decode_yields _ _ f.source).valueAt (within_eq_ok_iff.mp hd)
  have hset (i : Nat) : AnnotationItem.RefersOnly f.source.Gives
      ((lastFor a.ofParameters index).getD i []) := by
    rw [List.getD_eq_getElem?_getD]
    cases hget : (lastFor a.ofParameters index)[i]? with
    | none => exact nofun
    | some set => exact forall_lastFor ha.ofParameters index set (List.mem_of_getElem? hget)
  dsimp only at h
  split at h <;>
  · obtain ⟨debug, -, h⟩ := bind_eq_ok.mp h
    obtain rfl := pure_eq_ok.mp h
    refine ⟨hcode ((debug.map DebugInfo.items).getD []), fun p hp => ?_,
      forall_lastFor ha.ofMethods index⟩
    obtain ⟨⟨type, i⟩, -, rfl⟩ := List.mem_map.mp hp
    exact hset i

theorem decodeMethods_yields (count : Nat) (previous : Option UInt32) :
    MemberDecoder.Yields (f.decodeMethods a count previous) fun methods =>
      ∀ m ∈ methods, m.RefersOnly f.source.Gives := by
  induction count generalizing previous with
  | zero => exact .pure nofun
  | succ count ih =>
    refine .behind fun index => .behind fun id => .behind fun stored => .behind fun flags => ?_
    refine .behind fun codeOffset => .lift_bind fun m hm => (ih _).bind fun ms hms => .pure ?_
    exact List.forall_mem_cons.mpr ⟨methodDef_given ha (within_eq_ok_iff.mp hm), hms⟩

/-- The members are read behind their counts. -/
theorem decodeMembers_yields (index : Nat) {values : List Value}
    (hvalues : ∀ v ∈ values, ∀ r ∈ v.references, f.source.Gives r) {x : ClassDef}
    (hx : AnnotationItem.RefersOnly f.source.Gives x.annotations) :
    Decoder.Yields (f.decodeMembers index a values x) (ClassDef.RefersOnly f.source.Gives) := by
  refine .behind fun staticCount => .behind fun instanceCount => .behind fun directCount => ?_
  refine .behind fun virtualCount => .behind fun room => ?_
  dsimp only
  split
  · exact .bind (P := fun _ => False) (.fail _) fun _ => False.elim
  refine .lift_bind fun place _ => ?_
  have members : MemberDecoder.Yields (do
      let staticFields ← f.decodeFields a staticCount.toNat none (some values)
      let instanceFields ← f.decodeFields a instanceCount.toNat none none
      let directMethods ← f.decodeMethods a directCount.toNat none
      let virtualMethods ← f.decodeMethods a virtualCount.toNat none
      return { x with staticFields, instanceFields, directMethods, virtualMethods })
      (ClassDef.RefersOnly f.source.Gives) := by
    refine (decodeFields_yields ha _ none ?_).bind fun staticFields hstatic => ?_
    · intro vs hvs
      exact Option.some.inj hvs ▸ hvalues
    refine (decodeFields_yields ha _ none fun _ h => absurd h (Option.not_mem_none _)).bind
      fun instanceFields hinstance => ?_
    refine (decodeMethods_yields ha _ none).bind fun directMethods hdirect => ?_
    refine (decodeMethods_yields ha _ none).bind fun virtualMethods hvirtual => .pure ⟨?_, ?_, hx⟩
    · exact List.forall_mem_append.mpr ⟨hstatic, hinstance⟩
    · exact List.forall_mem_append.mpr ⟨hdirect, hvirtual⟩
  exact (members place).bind fun y hy => .pure hy

end

/-! ## Classes -/

theorem classDef_given {index : Nat} {x : ClassDef} (h : f.classDef index = .ok x) :
    x.RefersOnly f.source.Gives := by
  obtain ⟨position, i, a, values, y, -, -, ha, hvalues, hfields, hmethods, hannotations, h⟩ :=
    exists_of_classDef h
  have given := annotations_given ha
  split at h
  · obtain rfl := Except.ok.inj h
    refine ⟨?_, ?_, hannotations ▸ given.ofClass⟩
    · rw [hfields]
      nofun
    · rw [hmethods]
      nofun
  · exact (decodeMembers_yields given index (staticValues_given hvalues)
      (hannotations ▸ given.ofClass)).valueAt h

/-- Whatever the classes of a file refer to in their code and in their values is in the file. -/
theorem refersOnly_of_dex {d : Dex} (h : f.dex = .ok d) :
    ∀ x ∈ d.classes, x.RefersOnly f.source.Gives := by
  obtain ⟨classes, hclasses, h⟩ := bind_eq_ok.mp h
  obtain rfl := pure_eq_ok.mp h
  intro x hx
  obtain ⟨index, -, hread⟩ := exists_left_of_mem (mapM_eq_ok.mp hclasses) hx
  exact classDef_given hread

end DexFile

end Dalvik
