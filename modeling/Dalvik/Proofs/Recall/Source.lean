import Dalvik.Recall.Classes
import Dalvik.Proofs.Recall.Value

/-!
# Entries are read the same with a memory

What a key leads to is what is read without a memory. An entry is checked for, looked up and found
in this order, so it does not matter whether it has been found before. No entry leads back to one of
its own kind, and the lemmas follow the order in which they lead to each other.
-/
namespace Dalvik

/-- What every key leads to, as it is read without a memory. -/
def DexFile.answer (f : DexFile) : Answers
  | .string index => f.string index
  | .type index => f.type index
  | .proto index => f.proto index
  | .field index => f.field index
  | .method index => f.method index
  | .methodHandle index => f.methodHandle index
  | .callSite index => f.callSite index
  | .typeList offset => f.typeList offset
  | .annotationSet offset => f.annotationSet offset

namespace Recall
variable (f : DexFile)

/-- An entry that without a memory is found from the item of a section. -/
theorem entry_agrees {β : Type} {key : Key} {s : IdSection} {d : Decoder β} {index : UInt32}
    {find : β → Recall key.Value} {found : β → Result key.Value}
    (hkey : f.answer key = f.item s d index >>= found)
    (h : ∀ b, (find b).Agrees f.answer (found b)) :
    (entry f key s d index find).Agrees f.answer (f.item s d index >>= found) := by
  unfold entry
  rw [DexFile.item] at hkey ⊢
  cases hposition : s.position index with
  | error e => exact .result _
  | ok position =>
    cases hcell : Access.entry index.toNat s.size with
    | error e => exact .result _
    | ok cell =>
      have hfound : f.answer key = d.valueAt f.bytes position >>= found := by
        rw [hkey, hposition, hcell]
        rfl
      change (remembered key _).Agrees f.answer (d.valueAt f.bytes position >>= found)
      rw [← hfound]
      exact .remembered (hfound ▸ .result_bind h)

theorem string_agrees (index : UInt32) : (string f index).Agrees f.answer (f.string index) :=
  entry_agrees f rfl fun _ => .result _

theorem type_agrees (index : UInt32) : (type f index).Agrees f.answer (f.type index) :=
  entry_agrees f rfl fun descriptor => (string_agrees f descriptor).bind fun _ => .pure _

theorem decodeTypes_agrees : (decodeTypes f).Agrees f.answer f.decodeTypes := by
  have htype : RecallDecoder.Agrees f.answer (do type f (← Decoder.u2).toUInt32)
      (do f.type (← Decoder.u2).toUInt32) :=
    .decoder_bind fun index => .lifted (type_agrees f index.toUInt32)
  refine .decoder_bind fun start => .decoder_bind fun size => .decoder_bind fun _ => .guard ?_
  exact htype.repeated size.toNat

theorem typeList_agrees (offset : UInt32) :
    (typeList f offset).Agrees f.answer (f.typeList offset) :=
  .remembered_unless rfl (.pure []) ((decodeTypes_agrees f).valueAt f.data offset.toNat)

theorem proto_agrees (index : UInt32) : (proto f index).Agrees f.answer (f.proto index) :=
  entry_agrees f rfl fun p => (type_agrees f p.returnType).bind fun _ =>
    (typeList_agrees f p.parameters).bind fun _ => .pure _

theorem field_agrees (index : UInt32) : (field f index).Agrees f.answer (f.field index) :=
  entry_agrees f rfl fun m => (type_agrees f m.declaringClass.toUInt32).bind fun _ =>
    (type_agrees f m.signature.toUInt32).bind fun _ => (string_agrees f m.name).bind fun _ =>
      .pure _

theorem method_agrees (index : UInt32) : (method f index).Agrees f.answer (f.method index) :=
  entry_agrees f rfl fun m => (type_agrees f m.declaringClass.toUInt32).bind fun _ =>
    (proto_agrees f m.signature.toUInt32).bind fun _ => (string_agrees f m.name).bind fun _ =>
      .pure _

theorem methodHandle_agrees (index : UInt32) :
    (methodHandle f index).Agrees f.answer (f.methodHandle index) := by
  refine entry_agrees f rfl fun h => .result_bind fun kind => .ite ?_ ?_
  · exact (method_agrees f h.member.toUInt32).bind fun _ => .pure _
  · exact (field_agrees f h.member.toUInt32).bind fun _ => .pure _

theorem valueSource_agrees : (valueSource f).Agrees f.answer f.valueSource where
  string := string_agrees f
  type := type_agrees f
  proto := proto_agrees f
  field := field_agrees f
  method := method_agrees f
  methodHandle := methodHandle_agrees f
  callSite _ := .result _

theorem callSite_agrees (index : UInt32) : (callSite f index).Agrees f.answer (f.callSite index) :=
  entry_agrees f rfl fun offset =>
    ((valueSource_agrees f).decodeArray.valueAt f.data offset.toNat |>.within _).bind fun _ =>
      .result _

theorem source_agrees : (source f).Agrees f.answer f.source :=
  { valueSource_agrees f with callSite := callSite_agrees f }

end Recall
end Dalvik
