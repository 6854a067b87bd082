import Dalvik.Recall.Code
import Dalvik.Proofs.Recall.Value

/-!
# Code is read the same with a memory

Instructions, try blocks, code items and debug information, each from the lemmas of its parts; the
loops over the instructions and over the debug program by induction on the steps that are left.
-/
namespace Dalvik.RecallSource.Agrees
variable {answer : Answers} {t : RecallSource} {s : Source}

/-! ## Instructions -/

theorem resolve (h : Agrees answer t s) (kind : ReferenceKind) (index : UInt32) :
    (t.resolve kind index).Agrees answer (Instruction.resolve s kind index) := by
  cases kind
  case none => exact .result _
  case string => exact (h.string index).bind fun _ => .pure _
  case type => exact (h.type index).bind fun _ => .pure _
  case field => exact (h.field index).bind fun _ => .pure _
  case method => exact (h.method index).bind fun _ => .pure _
  case proto => exact (h.proto index).bind fun _ => .pure _
  case callSite => exact (h.callSite index).bind fun _ => .pure _
  case methodHandle => exact (h.methodHandle index).bind fun _ => .pure _
  case raw => exact .pure _

theorem decodeOperands (h : Agrees answer t s) (o : Opcode) (argument : Nat) :
    (t.decodeOperands o argument).Agrees answer (Instruction.decodeOperands s o argument) := by
  have hlast {α : Type} (kind : ReferenceKind) (index : UInt32) (k : Reference → α) :
      RecallDecoder.Agrees answer (do return k (← t.resolve kind index))
        (do return k (← Instruction.resolve s kind index)) :=
    .lifted_bind (h.resolve kind index) fun _ => .pure _
  unfold RecallSource.decodeOperands Instruction.decodeOperands
  generalize o.format = format
  cases format
  case f21c => exact .decoder_bind fun index => hlast _ index _
  case f22c => exact .decoder_bind fun index => hlast _ index _
  case f31c => exact .decoder_bind fun index => hlast _ index _
  case f35c =>
    exact .decoder_bind fun index => .decoder_bind fun _ => .decoder_bind fun _ => hlast _ index _
  case f3rc => exact .decoder_bind fun index => .decoder_bind fun _ => hlast _ index _
  case f45cc =>
    exact .decoder_bind fun index => .decoder_bind fun _ => .decoder_bind fun index2 =>
      .decoder_bind fun _ => .lifted_bind (h.resolve _ index) fun _ => hlast _ index2 _
  case f4rcc =>
    exact .decoder_bind fun index => .decoder_bind fun _ => .decoder_bind fun index2 =>
      .lifted_bind (h.resolve _ index) fun _ => hlast _ index2 _
  all_goals exact .decoder _

theorem decodeInstruction (h : Agrees answer t s) (table : OpcodeTable) :
    (t.decodeInstruction table).Agrees answer (Instruction.decode table s) :=
  .decoder_bind fun _ => .decoder_bind fun o => (h.decodeOperands o _).bind fun _ => .pure _

theorem decodeUpTo (h : Agrees answer t s) (table : OpcodeTable) (start limit room : Nat)
    (found : List Instruction) :
    (t.decodeUpTo table start limit room found).Agrees answer
      (Instruction.decodeUpTo table s start limit room found) := by
  induction room generalizing found with
  | zero => exact .pure _
  | succ room ih =>
    refine .decoder_bind fun position => .ite (.pure _) ?_
    exact ((h.decodeInstruction table).within _).bind fun i => ih (i :: found)

theorem decodeInstructions (h : Agrees answer t s) (table : OpcodeTable) (count : Nat) :
    (t.decodeInstructions table count).Agrees answer (Instruction.decodeAll table s count) := by
  refine .decoder_bind fun start => .decoder_bind fun bytes => .guard ?_
  exact ((h.decodeUpTo table start _ count []).upTo _).bind fun instructions =>
    .decoder_bind fun after => .guard (.pure _)

/-! ## Try blocks -/

theorem decodeHandler (h : Agrees answer t s) :
    t.decodeHandler.Agrees answer (CatchHandler.decode s) := by
  refine .decoder_bind fun size => .decoder_bind fun _ => .guard ?_
  have hhandler : RecallDecoder.Agrees answer
      (do return ⟨← t.type (← Decoder.uleb), ← Decoder.uleb⟩)
      (do return ⟨← s.type (← Decoder.uleb), ← Decoder.uleb⟩ : Decoder ExceptionHandler) :=
    .decoder_bind fun index => .lifted_bind (h.type index) fun _ => .decoder_bind fun _ => .pure _
  refine (hhandler.repeated _).bind fun handlers => .ite ?_ (.pure _)
  exact .decoder_bind fun _ => .pure _

theorem decodeHandlers (h : Agrees answer t s) (base count : Nat) :
    (t.decodeHandlers base count).Agrees answer (CatchHandler.decodeFrom s base count) := by
  refine .repeated ?_ count
  exact .decoder_bind fun _ => h.decodeHandler.bind fun _ => .pure _

theorem decodeTries (h : Agrees answer t s) (item count : Nat) :
    (t.decodeTries item count).Agrees answer (TryBlock.decodeAll s item count) := by
  refine .ite (.pure _) (.decoder_bind fun start => .decoder_bind fun _ => ?_)
  refine .decoder_bind fun handlerCount => .decoder_bind fun _ => .guard ?_
  refine (h.decodeHandlers _ _).bind fun handlers => ?_
  exact .decoder_bind fun _ => .decoder_bind fun _ => .decoder_bind fun _ => .decoder_bind fun _ =>
    .pure _

/-! ## Code items -/

theorem decodeCode (h : Agrees answer t s) (compact : Bool) (table : OpcodeTable) :
    (t.decodeCode compact table).Agrees answer (CodeItem.decode compact table s) := by
  have hbody (start : Nat) (c : CodeHeader) :=
    (h.decodeInstructions table c.units.toNat).bind fun instructions =>
      (h.decodeTries start c.tries).bind fun tries =>
        .pure (CodeItem.mk c.registers c.incoming c.outgoing c.debugOffset instructions tries)
  refine .decoder_bind fun start => ?_
  cases compact
  case true => exact .decoder_bind fun c => hbody start c
  case false => exact .decoder_bind fun c => hbody start c

/-! ## Debug information -/

theorem optionalAt {α : Type} {fetch : UInt32 → Recall α} {fetch' : UInt32 → Result α}
    (h : ∀ i, (fetch i).Agrees answer (fetch' i)) (index : Int32) :
    (RecallSource.optionalAt fetch index).Agrees answer (Dalvik.optionalAt fetch' index) := by
  unfold RecallSource.optionalAt Dalvik.optionalAt
  split
  · exact .pure none
  · exact (h index.toUInt32).bind fun a => .pure (some a)

theorem optionalString (h : Agrees answer t s) : RecallDecoder.Agrees answer
    (do RecallSource.optionalAt t.string (← Decoder.ulebPlusOne))
    (do Dalvik.optionalAt s.string (← Decoder.ulebPlusOne)) :=
  .decoder_bind fun index => .lifted (optionalAt h.string index)

theorem step (h : Agrees answer t s) (m : DebugItem.Machine) (op : UInt8) :
    (t.step m op).Agrees answer (DebugItem.step s m op) := by
  have hstring := h.optionalString
  unfold RecallSource.step DebugItem.step
  generalize op.toNat = code
  dsimp only
  split
  · exact .decoder_bind fun _ => .pure _
  · exact .decoder_bind fun _ => .pure _
  · exact .decoder_bind fun _ => hstring.bind fun _ => .decoder_bind fun index =>
      .lifted_bind (optionalAt h.type index) fun _ => .pure _
  · exact .decoder_bind fun _ => hstring.bind fun _ => .decoder_bind fun index =>
      .lifted_bind (optionalAt h.type index) fun _ => hstring.bind fun _ => .pure _
  · exact .decoder_bind fun _ => .pure _
  · exact .decoder_bind fun _ => .pure _
  · exact .pure _
  · exact .pure _
  · exact hstring.bind fun _ => .pure _
  -- none of the instructions above, whichever of the two is looked at
  · simpa only using RecallDecoder.Agrees.pure _

theorem run (h : Agrees answer t s) (room : Nat) (m : DebugItem.Machine)
    (found : List DebugItem) :
    (t.run room m found).Agrees answer (DebugItem.run s room m found) := by
  induction room generalizing m found with
  | zero => exact .pure _
  | succ room ih =>
    refine .decoder_bind fun op => .ite (.pure _) ?_
    exact (h.step m op).bind fun (items, m) => ih m (items.reverse ++ found)

theorem decodeItems (h : Agrees answer t s) (lineStart : Int32) :
    (t.decodeItems lineStart).Agrees answer (DebugItem.decodeAll s lineStart) :=
  .decoder_bind fun room => h.run (room + 1) _ []

theorem decodeDebug (h : Agrees answer t s) :
    t.decodeDebug.Agrees answer (DebugInfo.decode s) := by
  refine .decoder_bind fun start => .decoder_bind fun lineStart => .decoder_bind fun count => ?_
  refine .decoder_bind fun _ => .guard ?_
  exact (h.optionalString.repeated _).bind fun _ => (h.decodeItems _).bind fun _ => .pure _

end Dalvik.RecallSource.Agrees
