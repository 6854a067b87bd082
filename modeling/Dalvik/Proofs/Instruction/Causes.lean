import Dalvik.Instruction.Encode
import Dalvik.Proofs.Causes

/-!
# What writing an instruction fails with

An operand does not fit its place, the target does not have the opcode, or the index of a reference
is not found. What the last one fails with is up to the resolver.
-/
namespace Dalvik
open Result

/-- The index of the reference is found, or looking for it fails with one of the causes. -/
def Resolver.FailsWith (r : Resolver) (P : Cause → Prop) : Reference → Prop
  | .string s => (r.string s).FailsWith P
  | .type t => (r.type t).FailsWith P
  | .field f => (r.field f).FailsWith P
  | .method m => (r.method m).FailsWith P
  | .proto p => (r.proto p).FailsWith P
  | .callSite c => (r.callSite c).FailsWith P
  | .methodHandle h => (r.methodHandle h).FailsWith P
  | .raw _ => True

/-- The causes that an encoder may have of its own: a missing opcode, or any violation but that a
size was foretold wrongly. -/
structure Cause.Own (P : Cause → Prop) : Prop where
  unsupported : ∀ reason, P (.unsupported reason)
  violation : ∀ reason, (∀ expected written, reason ≠ .writtenUnits expected written) →
    P (.violation reason)

namespace Instruction

variable {P : Cause → Prop} {r : Resolver}

section
variable (hP : Cause.Own P)
include hP

theorem failsWith_fitUnsigned (width n : Nat) : (fitUnsigned width n).FailsWith P :=
  failsWith_ite (fun _ => trivial) fun _ => hP.violation _ nofun

theorem failsWith_fitSigned (width : Nat) (n : Int32) : (fitSigned width n).FailsWith P :=
  failsWith_ite (fun _ => trivial) fun _ => hP.violation _ nofun

theorem failsWith_fitTop32 (n : Int32) : (fitTop32 n).FailsWith P :=
  failsWith_ite (fun _ => trivial) fun _ => hP.violation _ nofun

theorem failsWith_fitTop64 (n : Int64) : (fitTop64 n).FailsWith P :=
  failsWith_ite (fun _ => trivial) fun _ => hP.violation _ nofun

theorem failsWith_fitPair (a b : UInt8) : (fitPair a b).FailsWith P :=
  (failsWith_fitUnsigned hP _ _).bind fun _ _ =>
    (failsWith_fitUnsigned hP _ _).bind fun _ _ => trivial

theorem failsWith_firstUnit (opcode : UInt16) (argument : Nat) :
    (firstUnit opcode argument).FailsWith P :=
  failsWith_guard (hP.violation _ nofun) fun _ =>
    (failsWith_fitUnsigned hP _ _).bind fun _ _ => trivial

theorem failsWith_referenceIndex {x : Reference} (kind : ReferenceKind) (h : r.FailsWith P x) :
    (referenceIndex r kind x).FailsWith P := by
  unfold referenceIndex
  split
  case h_8 => trivial
  case h_9 => exact hP.violation _ nofun
  all_goals exact h

theorem failsWith_shortIndex {x : Reference} (kind : ReferenceKind) (h : r.FailsWith P x) :
    (shortIndex r kind x).FailsWith P :=
  (failsWith_referenceIndex hP kind h).bind fun _ _ =>
    (failsWith_fitUnsigned hP _ _).bind fun _ _ => trivial

theorem failsWith_packRegisters (o : Opcode) (registers : List UInt8) :
    (packRegisters o registers).FailsWith P :=
  failsWith_guard (hP.violation _ nofun) fun _ =>
    (failsWith_mapM fun _ _ => failsWith_fitUnsigned hP _ _).bind fun _ _ => trivial

theorem failsWith_checkAlignment (position : Nat) : (checkAlignment position).FailsWith P :=
  failsWith_ite (fun _ => trivial) fun _ => hP.violation _ nofun

theorem failsWith_switchHead (position : Nat) (opcode : UInt16) (size : Nat) :
    (switchHead position opcode size).FailsWith P :=
  (failsWith_checkAlignment hP _).bind fun _ _ =>
    failsWith_guard (hP.violation _ nofun) fun _ => trivial

theorem failsWith_elementBytes (width : UInt16) (element : Int64) :
    (elementBytes width element).FailsWith P :=
  failsWith_ite (fun _ => hP.violation _ nofun) fun _ =>
    failsWith_ite (fun _ => trivial) fun _ => hP.violation _ nofun

theorem failsWith_value (table : OpcodeTable) (o : Opcode) : (table.value o).FailsWith P := by
  unfold OpcodeTable.value
  split
  · trivial
  · exact hP.unsupported _

/-- A first unit with something that may fail behind it. -/
theorem failsWith_firstUnit_bind {opcode : UInt16} {argument : Nat} {k : Bytes → Result Bytes}
    (h : ∀ unit, (k unit).FailsWith P) : (firstUnit opcode argument >>= k).FailsWith P :=
  (failsWith_firstUnit hP _ _).bind fun unit _ => h unit

theorem failsWith_encode {table : OpcodeTable} {position : Nat} {i : Instruction}
    (h : ∀ x ∈ i.references, r.FailsWith P x) : (i.encode table r position).FailsWith P := by
  obtain ⟨o, operands⟩ := i
  refine (failsWith_value hP table o).bind fun op _ => ?_
  cases operands with
  | f10x => exact failsWith_firstUnit hP _ _
  | f12x a b => exact (failsWith_fitPair hP a b).bind fun _ _ => failsWith_firstUnit hP _ _
  | f11n a literal =>
    exact (failsWith_fitUnsigned hP _ _).bind fun _ _ => (failsWith_fitSigned hP _ _).bind fun _ _ =>
      failsWith_firstUnit hP _ _
  | f11x a => exact failsWith_firstUnit hP _ _
  | f10t offset => exact (failsWith_fitSigned hP _ _).bind fun _ _ => failsWith_firstUnit hP _ _
  | f22x | f30t | f32x | f31i | f31t | f23x | f51l =>
    exact failsWith_firstUnit_bind hP fun _ => trivial
  | f20t | f21t | f21s =>
    exact failsWith_firstUnit_bind hP fun _ => (failsWith_fitSigned hP _ _).bind fun _ _ => trivial
  | f21ih =>
    exact failsWith_firstUnit_bind hP fun _ => (failsWith_fitTop32 hP _).bind fun _ _ => trivial
  | f21lh =>
    exact failsWith_firstUnit_bind hP fun _ => (failsWith_fitTop64 hP _).bind fun _ _ => trivial
  | f22b =>
    exact (failsWith_fitSigned hP _ _).bind fun _ _ =>
      failsWith_firstUnit_bind hP fun _ => trivial
  | f22t | f22s =>
    exact (failsWith_fitPair hP _ _).bind fun _ _ => failsWith_firstUnit_bind hP fun _ =>
      (failsWith_fitSigned hP _ _).bind fun _ _ => trivial
  | f21c a reference =>
    exact (failsWith_shortIndex hP _ (h _ (.head _))).bind fun _ _ =>
      failsWith_firstUnit_bind hP fun _ => trivial
  | f31c a reference =>
    exact (failsWith_referenceIndex hP _ (h _ (.head _))).bind fun _ _ =>
      failsWith_firstUnit_bind hP fun _ => trivial
  | f22c a b reference =>
    exact (failsWith_fitPair hP _ _).bind fun _ _ =>
      (failsWith_shortIndex hP _ (h _ (.head _))).bind fun _ _ =>
        failsWith_firstUnit_bind hP fun _ => trivial
  | f35c registers reference =>
    exact (failsWith_shortIndex hP _ (h _ (.head _))).bind fun _ _ =>
      (failsWith_packRegisters hP _ _).bind fun _ _ => failsWith_firstUnit_bind hP fun _ => trivial
  | f3rc start count reference =>
    exact (failsWith_shortIndex hP _ (h _ (.head _))).bind fun _ _ =>
      failsWith_firstUnit_bind hP fun _ => trivial
  | f45cc registers reference reference2 =>
    exact (failsWith_shortIndex hP _ (h _ (.head _))).bind fun _ _ =>
      (failsWith_shortIndex hP _ (h _ (.tail _ (.head _)))).bind fun _ _ =>
        (failsWith_packRegisters hP _ _).bind fun _ _ =>
          failsWith_firstUnit_bind hP fun _ => trivial
  | f4rcc start count reference reference2 =>
    exact (failsWith_shortIndex hP _ (h _ (.head _))).bind fun _ _ =>
      (failsWith_shortIndex hP _ (h _ (.tail _ (.head _)))).bind fun _ _ =>
        failsWith_firstUnit_bind hP fun _ => trivial
  | packedSwitchPayload => exact (failsWith_switchHead hP _ _ _).bind fun _ _ => trivial
  | sparseSwitchPayload =>
    exact failsWith_guard (hP.violation _ nofun) fun _ =>
      (failsWith_switchHead hP _ _ _).bind fun _ _ => trivial
  | arrayPayload =>
    exact (failsWith_checkAlignment hP _).bind fun _ _ =>
      (failsWith_mapM fun _ _ => failsWith_elementBytes hP _ _).bind fun _ _ => trivial

theorem failsWith_encodeAll {table : OpcodeTable} {start : Nat} {instructions : List Instruction}
    (h : ∀ i ∈ instructions, ∀ x ∈ i.references, r.FailsWith P x) :
    (encodeAll table r start instructions).FailsWith P := by
  refine FailsWith.bind (failsWith_foldlM _ fun out i hi => ?_) fun _ _ => trivial
  exact FailsWith.bind (failsWith_within.mpr (failsWith_encode hP (h i hi))) fun _ _ => trivial

end

end Instruction

end Dalvik
