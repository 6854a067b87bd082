import Dalvik.Proofs.Code.RoundTrip
import Dalvik.Proofs.Instruction.Counted

/-!
# Code items that can be counted

The number of typed handlers is a signed word, which is not above 0 if there is an address for all
other exceptions. So a reader may find as many of them as the least word says, but these cannot have
been written: that word has no negative.
-/
namespace Dalvik
open Result

variable {compact : Bool} {table : OpcodeTable} {r : Resolver} {s : Source}

namespace CatchHandler

variable {h : CatchHandler}

/-- The typed handlers are not more than a signed count can say. -/
def Countable (h : CatchHandler) : Prop :=
  h.Counted ∨ h.handlers.length = 2 ^ 31 ∧ h.catchAll.isSome

theorem decode_yields_countable (s : Source) : Decoder.Yields (decode s) Countable := by
  refine .behind fun size => .behind fun room => .guard fun _ => ?_
  refine (Decoder.Yields.repeated (P := fun _ => True) (fun _ _ _ _ _ => trivial) _).bind
    fun handlers hhandlers => ?_
  have hlength := hhandlers.1
  have hlow := size.le_toInt
  have hhigh := size.toInt_lt
  unfold Countable Counted
  split
  next hle =>
    refine .behind fun address => .pure ?_
    simp only [Option.isSome_some, and_true]
    omega
  next hlt =>
    rw [Int32.le_iff_toInt_le, Int32.toInt_zero] at hlt
    refine .pure (.inl ?_)
    dsimp only
    omega

/-- The count of a handler that has been written is below the least word. -/
theorem Countable.counted {part : Bytes} (h' : h.Countable) (he : h.encode r = .ok part) :
    h.Counted := by
  refine h'.resolve_right fun ⟨hlength, hall⟩ => ?_
  obtain ⟨-, count, -, hcount, -⟩ := encode_eq_ok he
  unfold signedCount at hcount
  rw [hlength] at hcount
  simp only [hall] at hcount
  cases hcount

end CatchHandler

namespace TryBlock

theorem decode_yields {P : CatchHandler → Prop} {handlers : List (Nat × CatchHandler)}
    (h : ∀ e ∈ handlers, P e.2) : Decoder.Yields (decode handlers) fun t => P t.handler := by
  refine .behind fun start => .behind fun units => .behind fun offset => ?_
  dsimp only
  split
  next handler hfound => exact .pure (h _ (mem_of_lookup hfound))
  · exact .fail _

theorem decodeAll_yields_countable (s : Source) (item count : Nat) :
    Decoder.Yields (decodeAll s item count) fun tries => ∀ t ∈ tries, t.handler.Countable := by
  have handler (base : Nat) : Decoder.Yields
      (do return ((← Decoder.position) - base, ← CatchHandler.decode s) :
        Decoder (Nat × CatchHandler)) fun e => e.2.Countable :=
    .behind fun position => (CatchHandler.decode_yields_countable s).bind fun h hh => .pure hh
  unfold decodeAll
  split
  · exact .pure (List.forall_mem_nil _)
  · refine .behind fun position => .behind fun _ => .behind fun handlerCount =>
      .behind fun room => .guard fun _ => ?_
    refine ((handler _).repeated _).bind fun handlers hhandlers => ?_
    refine .behind fun after => .behind fun _ => ?_
    refine ((decode_yields hhandlers.2).repeated _).bind fun tries htries => ?_
    exact .behind fun _ => .pure htries.2

end TryBlock

namespace CodeItem

variable {i : CodeItem} {placed : Placed} {position : Nat}

theorem decode_yields_countable (compact : Bool) (table : OpcodeTable) (s : Source) :
    Decoder.Yields (decode compact table s) fun i =>
      (∀ x ∈ i.instructions, x.Counted) ∧ ∀ t ∈ i.tries, t.handler.Countable := by
  refine .behind fun start => ?_
  cases compact <;>
    exact .behind fun h => (Instruction.decodeAll_yields_counted table s _).bind fun is his =>
      (TryBlock.decodeAll_yields_countable s _ _).bind fun tries htries => .pure ⟨his, htries⟩

end CodeItem

end Dalvik
