import Dalvik.Proofs.Recall.Code
import Dalvik.Proofs.Recall.Source

/-!
# Calls to a reader do not depend on each other

Classes are read the same with a memory, from the lemmas of their parts. So every call gives what it
would give without a memory and leaves a sound memory for the next one, and by induction on the
calls each of them gives what it gives as the first one.
-/
namespace Dalvik

namespace Recall

namespace MemberDecoder

/-- Wherever the restriction of the next member is, the two read the same, the one with the help of
the memory. -/
def Agrees {α : Type} (answer : Answers) (x : MemberDecoder α) (d : DexFile.MemberDecoder α) :
    Prop :=
  ∀ place, RecallDecoder.Agrees answer (x place) (d place)

namespace Agrees
variable {α β : Type} {answer : Answers} {x : MemberDecoder α} {d : DexFile.MemberDecoder α}

theorem pure (a : α) : Agrees answer (Pure.pure a) (Pure.pure a) :=
  fun place => .pure (a, place)

theorem bind {f : α → MemberDecoder β} {k : α → DexFile.MemberDecoder β} (hx : Agrees answer x d)
    (hf : ∀ a, Agrees answer (f a) (k a)) : Agrees answer (x >>= f) (d >>= k) :=
  fun place => RecallDecoder.Agrees.bind 
    (f := fun (p : α × Option Nat) => f p.1 p.2) (k := fun (p : α × Option Nat) => k p.1 p.2)
    (hx place) fun p => hf p.1 p.2

theorem decoder_bind {e : Decoder α} {f : α → MemberDecoder β} {k : α → DexFile.MemberDecoder β}
    (hf : ∀ a, Agrees answer (f a) (k a)) : Agrees answer (liftM e >>= f) (liftM e >>= k) :=
  bind (x := liftM e) (fun place => .decoder_bind fun a => .pure (a, place)) hf

theorem lifted_bind {y : Recall α} {r : Result α} {f : α → MemberDecoder β}
    {k : α → DexFile.MemberDecoder β} (h : y.Agrees answer r)
    (hf : ∀ a, Agrees answer (f a) (k a)) : Agrees answer (liftM y >>= f) (liftM r >>= k) :=
  bind (x := liftM y) (fun place => .lifted_bind h fun a => .pure (a, place)) hf

theorem run' (hx : Agrees answer x d) (place : Option Nat) :
    RecallDecoder.Agrees answer (x.run' place) (d.run' place) := by
  rw [StateT.run'_eq, StateT.run'_eq, ← bind_pure_comp, ← bind_pure_comp]
  exact (hx place).bind fun p => .pure p.1

end Agrees
end MemberDecoder

variable (f : DexFile)

/-! ## Annotations -/

theorem annotationAt_agrees (offset : UInt32) :
    (annotationAt f offset).Agrees f.answer (f.annotationAt offset) :=
  (source_agrees f).decodeAnnotationItem.valueAt f.data offset.toNat |>.within _

theorem annotationSet_agrees (offset : UInt32) :
    (annotationSet f offset).Agrees f.answer (f.annotationSet offset) :=
  .remembered_unless rfl (.pure []) (.result_bind fun _ => .mapM (annotationAt_agrees f) _)

theorem annotationSetList_agrees (offset : UInt32) :
    (annotationSetList f offset).Agrees f.answer (f.annotationSetList offset) :=
  .result_bind fun _ => .mapM (annotationSet_agrees f) _

theorem decodeDirectory_agrees : (decodeDirectory f).Agrees f.answer f.decodeDirectory := by
  refine .decoder_bind fun d => .lifted_bind (annotationSet_agrees f d.classOffset) fun _ => ?_
  refine .bind (.mapM (fun m => ?_) d.fields) fun _ => ?_
  · exact .lifted_bind (annotationSet_agrees f m.offset) fun _ => .pure _
  refine .bind (.mapM (fun m => ?_) d.methods) fun _ => ?_
  · exact .lifted_bind (annotationSet_agrees f m.offset) fun _ => .pure _
  refine .bind (.mapM (fun m => ?_) d.parameters) fun _ => .pure _
  exact .lifted_bind (annotationSetList_agrees f m.offset) fun _ => .pure _

theorem annotations_agrees (offset : UInt32) :
    (annotations f offset).Agrees f.answer (f.annotations offset) :=
  .ite (.pure _) ((decodeDirectory_agrees f).valueAt f.data offset.toNat |>.within _)

/-! ## Members -/

theorem memberFlags_agrees (stored : UInt32) :
    (memberFlags f stored).Agrees f.answer (f.memberFlags stored) :=
  fun place => .decoder (f.memberFlags stored place)

theorem staticValues_agrees (offset : UInt32) :
    (staticValues f offset).Agrees f.answer (f.staticValues offset) :=
  .ite (.pure []) ((source_agrees f).decodeArray.valueAt f.data offset.toNat |>.within _)

theorem decodeFields_agrees (a : DexFile.Annotations) (count : Nat) (previous : Option UInt32)
    (values : Option (List Value)) :
    (decodeFields f a count previous values).Agrees f.answer
      (f.decodeFields a count previous values) := by
  induction count generalizing previous values with
  | zero => exact .pure []
  | succ count ih =>
    refine .decoder_bind fun index => .lifted_bind (field_agrees f index) fun id => ?_
    refine .decoder_bind fun stored => (memberFlags_agrees f stored).bind fun _ => ?_
    refine .decoder_bind fun value => (ih (some index) (values.map List.tail)).bind fun _ => ?_
    exact .pure _

theorem debugInfo_agrees (index : UInt32) (item : CodeItem) :
    (debugInfo f index item).Agrees f.answer (f.debugInfo index item) := by
  have hrest (offset : UInt32) : Agrees f.answer
      (if offset = 0 then return none
        else do return some (← ((source f).decodeDebug.valueAt f.data offset.toNat).within
          s!"debug info at {Text.hex offset.toNat}"))
      (if offset = 0 then return none
        else do return some (← ((DebugInfo.decode f.source).valueAt f.data offset.toNat).within
          s!"debug info at {Text.hex offset.toNat}")) :=
    .ite (.pure none) (((source_agrees f).decodeDebug.valueAt f.data offset.toNat |>.within _).bind
      fun d => .pure (some d))
  unfold debugInfo DexFile.debugInfo
  refine .ite (.pure none) ?_
  generalize f.header.compact = compact
  cases compact
  case some c => exact .result_bind hrest
  case none => exact (Agrees.pure item.debugOffset).bind hrest

theorem codeItem_agrees (offset : UInt32) :
    (codeItem f offset).Agrees f.answer (f.codeItem offset) :=
  .ite (.pure none) <|
    ((source_agrees f).decodeCode f.version.isCompact f.opcodes |>.valueAt f.data offset.toNat
      |>.within _).bind fun i => .pure (some i)

theorem methodDef_agrees (a : DexFile.Annotations) (index : UInt32) (id : MethodId)
    (access restriction codeOffset : UInt32) :
    (methodDef f a index id access restriction codeOffset).Agrees f.answer
      (f.methodDef a index id access restriction codeOffset) := by
  refine (codeItem_agrees f codeOffset).bind fun item => ?_
  cases item with
  | none => exact .pure _
  | some i => exact (debugInfo_agrees f index i).bind fun _ => .pure _

theorem decodeMethods_agrees (a : DexFile.Annotations) (count : Nat) (previous : Option UInt32) :
    (decodeMethods f a count previous).Agrees f.answer (f.decodeMethods a count previous) := by
  induction count generalizing previous with
  | zero => exact .pure []
  | succ count ih =>
    refine .decoder_bind fun index => .lifted_bind (method_agrees f index) fun id => ?_
    refine .decoder_bind fun stored => (memberFlags_agrees f stored).bind fun flags => ?_
    refine .decoder_bind fun codeOffset => .lifted_bind ?_ fun _ => ?_
    · exact (methodDef_agrees f a index id flags.1 flags.2 codeOffset).within _
    · exact (ih (some index)).bind fun _ => .pure _

/-! ## Classes -/

theorem decodeMembers_agrees (index : Nat) (a : DexFile.Annotations) (values : List Value)
    (c : ClassDef) :
    (decodeMembers f index a values c).Agrees f.answer (f.decodeMembers index a values c) := by
  refine .decoder_bind fun staticFields => .decoder_bind fun instanceFields => ?_
  refine .decoder_bind fun directMethods => .decoder_bind fun virtualMethods => ?_
  refine .decoder_bind fun _ => .guard (.decoder_bind fun place =>
    MemberDecoder.Agrees.run' ?_ place)
  refine (decodeFields_agrees f a _ none (some values)).bind fun _ => ?_
  refine (decodeFields_agrees f a _ none none).bind fun _ => ?_
  refine (decodeMethods_agrees f a _ none).bind fun _ => ?_
  exact (decodeMethods_agrees f a _ none).bind fun _ => .pure _

theorem ofClassItem_agrees (index : Nat) (i : IdItem.Class) :
    (ofClassItem f index i).Agrees f.answer (f.ofClassItem index i) := by
  refine (type_agrees f i.type).bind fun _ => (Agrees.optionMapM (type_agrees f) _).bind fun _ => ?_
  refine (typeList_agrees f i.interfaces).bind fun _ => ?_
  refine (Agrees.optionMapM (string_agrees f) _).bind fun _ => ?_
  refine (annotations_agrees f i.annotations).bind fun a => ?_
  refine (staticValues_agrees f i.staticValues).bind fun values => .ite (.pure _) ?_
  exact (decodeMembers_agrees f index a values _).valueAt f.data i.data.toNat |>.within _
    |>.within _

theorem classDef_agrees (index : Nat) : (classDef f index).Agrees f.answer (f.classDef index) :=
  .result_bind fun _ => .within (.result_bind fun i => ofClassItem_agrees f index i) _

end Recall

/-! ## Calls -/

namespace Call
variable (f : DexFile)

/-- What a call gives without a memory. -/
def answer : (c : Call) → Result c.Value
  | string index => f.string index
  | type index => f.type index
  | proto index => f.proto index
  | field index => f.field index
  | method index => f.method index
  | methodHandle index => f.methodHandle index
  | callSite index => f.callSite index
  | classDef index => f.classDef index

theorem run_agrees (c : Call) : (c.run f).Agrees f.answer (c.answer f) := by
  cases c with
  | string index => exact Recall.string_agrees f index
  | type index => exact Recall.type_agrees f index
  | proto index => exact Recall.proto_agrees f index
  | field index => exact Recall.field_agrees f index
  | method index => exact Recall.method_agrees f index
  | methodHandle index => exact Recall.methodHandle_agrees f index
  | callSite index => exact Recall.callSite_agrees f index
  | classDef index => exact Recall.classDef_agrees f index

/-- Calls on a sound memory give what they give without one. -/
theorem runAll_of_sound (calls : List Call) {μ : Memory} (h : μ.Sound f.answer) :
    runAll f calls μ = calls.map fun c => ⟨c, c.answer f⟩ := by
  induction calls generalizing μ with
  | nil => rfl
  | cons c calls ih =>
    obtain ⟨μ', hrun, h'⟩ := c.run_agrees f μ h
    rw [runAll, hrun, List.map_cons]
    exact congrArg _ (ih h')

theorem run_empty (c : Call) : (c.run f ∅).1 = c.answer f := by
  obtain ⟨μ, hrun, -⟩ := c.run_agrees f ∅ .empty
  rw [hrun]

/-- Whatever a file is asked for, in whatever order and however often, whether it can be given or
not: every call gives what it gives as the first one, when nothing has been found yet, and that is
what is read without a memory. -/
theorem runAll_eq_map_first (calls : List Call) :
    runAll f calls ∅ = calls.map (fun c => ⟨c, (c.run f ∅).1⟩) ∧
      ∀ c : Call, (c.run f ∅).1 = c.answer f := by
  refine ⟨?_, run_empty f⟩
  rw [runAll_of_sound f calls .empty]
  exact List.map_congr_left fun c _ => by rw [run_empty]

end Call
end Dalvik
