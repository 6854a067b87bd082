import Dalvik.Code.Item
import Dalvik.Proofs.Code.Handlers
import Dalvik.Proofs.Instruction.Causes
import Dalvik.Proofs.Instruction.RoundTrip

/-!
# The size of code is foretold

The header of a code item says how many units its instructions have, and they are written behind it.
That the two agree is checked, but the check never fails: every instruction takes the units it is
counted for, whatever its opcode and wherever it stands.
-/
namespace Dalvik
open Result

/-- Any cause but that the written code has another size than was foretold. -/
def Cause.Measured (c : Cause) : Prop :=
  ∀ expected written, c ≠ .violation (.writtenUnits expected written)

theorem Cause.own_measured : Cause.Own Cause.Measured where
  unsupported := nofun
  violation _ h expected written heq := h expected written (Cause.violation.inj heq)

variable {r : Resolver}

/-! ## Handlers -/

section
variable (hr : ∀ x, r.FailsWith Cause.Measured x)
include hr

theorem CatchHandler.measured_encode (h : CatchHandler) : (h.encode r).FailsWith Cause.Measured := by
  refine failsWith_guard nofun fun _ => ?_
  refine (h.failsWith_signedCount nofun).bind fun count _ => ?_
  refine FailsWith.bind (failsWith_mapM fun e _ => ?_) fun _ _ => trivial
  have htype : (r.type e.type).FailsWith Cause.Measured := hr (.type e.type)
  exact htype.bind fun _ _ => trivial

theorem CatchHandler.measured_encodeFrom (offset : Nat) (hs : List CatchHandler) :
    (encodeFrom r offset hs).FailsWith Cause.Measured := by
  induction hs generalizing offset with
  | nil => trivial
  | cons h hs ih =>
    refine failsWith_guard nofun fun _ => ?_
    exact (measured_encode hr h).bind fun part _ => (ih _).bind fun _ _ => trivial

theorem TryBlock.measured_encodeAll (tries : List TryBlock) :
    (encodeAll r tries).FailsWith Cause.Measured := by
  refine failsWith_ite (fun _ => trivial) fun _ => ?_
  refine (CatchHandler.measured_encodeFrom hr _ _).bind fun handlers _ => ?_
  refine (failsWith_mapM fun t _ => ?_).bind fun _ _ => trivial
  split
  · trivial
  · exact nofun

end

/-! ## Code items -/

theorem TryBlock.measured_sorted (tries : List TryBlock) :
    (sorted tries).FailsWith Cause.Measured := by
  unfold sorted
  dsimp only
  split
  · exact nofun
  · trivial

namespace CodeItem

theorem measured_encodeHeader (compact : Bool) (position : Nat) (i : CodeItem)
    (tries : List TryBlock) :
    (i.encodeHeader compact position tries).FailsWith Cause.Measured := by
  have hheader : (i.header tries).FailsWith Cause.Measured :=
    failsWith_guard nofun fun _ => failsWith_guard nofun fun _ => trivial
  refine hheader.bind fun h _ => failsWith_ite (fun _ => ?_) fun _ => trivial
  exact failsWith_ite (fun _ => nofun) fun _ => trivial

/-- The check behind the instructions finds what it expects. -/
theorem measured_encode (hr : ∀ x, r.FailsWith Cause.Measured x) (compact : Bool)
    (table : OpcodeTable) (position : Nat) (i : CodeItem) :
    (i.encode compact table r position).FailsWith Cause.Measured := by
  refine (TryBlock.measured_sorted i.tries).bind fun tries _ => ?_
  refine (measured_encodeHeader _ _ i tries).bind fun (front, header) _ => ?_
  refine FailsWith.bind (Instruction.failsWith_encodeAll Cause.own_measured fun _ _ x _ => hr x)
    fun code hcode => ?_
  have hsize := Instruction.length_encodeAll hcode
  refine failsWith_ite (fun hne => absurd hsize hne) fun _ => ?_
  exact (TryBlock.measured_encodeAll hr tries).bind fun _ _ => trivial

end CodeItem

/-- Where the index of a value is missing, that is what is reported. -/
theorem Pools.resolver_measured (p : Pools) (x : Reference) :
    p.resolver.FailsWith Cause.Measured x := by
  have hlookup {α : Type} [BEq α] [Hashable α] {cmp : α → α → Ordering} {set : ItemSet α}
      {kind : PoolKind} {text : String} {a : α} :
      (lookup cmp set kind text a).FailsWith Cause.Measured := by
    unfold lookup
    split
    · trivial
    · exact nofun
  cases x with
  | raw index => trivial
  | _ => exact hlookup

/-- Instructions of any opcodes and operands take two bytes for each of their units, wherever they are
written. So no code item is refused because its code has another size than was foretold, unless the
resolver itself says so; that of a file never does. -/
theorem CodeItem.size_foretold (table : OpcodeTable) (r : Resolver) :
    (∀ start is out, Instruction.encodeAll table r start is = .ok out →
      out.length = 2 * Instruction.unitsOf is) ∧
    ((∀ x, r.FailsWith Cause.Measured x) → ∀ compact position i e,
      CodeItem.encode compact table r position i = .error e →
        ∀ expected written, e.cause ≠ .violation (.writtenUnits expected written)) ∧
    ∀ (p : Pools) x, p.resolver.FailsWith Cause.Measured x := by
  refine ⟨fun start is out h => Instruction.length_encodeAll h, fun hr compact position i e h => ?_,
    Pools.resolver_measured⟩
  exact failsWith_iff.mp (measured_encode hr compact table position i) e h

/-- A register that its four bits cannot hold. -/
def wideRegister : CodeItem := ⟨17, 0, 0, 0, [⟨⟨1, by decide⟩, .f12x 16 0⟩], []⟩

/-- An array takes the units that its elements ask for, and the register is what is refused. -/
theorem CodeItem.size_foretold_cases :
    Instruction.encodeAll (.ofTarget (WriteOptions.target {})) twoNames 2 Instruction.arrayCode =
      .ok [0x12, 0xf1, 0, 3, 1, 0, 3, 0, 0, 0, 5, 128, 127, 0, 26, 0, 1, 0] ∧
    [0x12, 0xf1, 0, 3, 1, 0, 3, 0, 0, 0, 5, 128, 127, 0, 26, 0, 1, 0].length =
      2 * Instruction.unitsOf Instruction.arrayCode ∧
    ∃ e, wideRegister.encode false (.ofTarget (WriteOptions.target {})) (Pools.resolver {}) 0 =
      .error e ∧ ∀ expected written, e.cause ≠ .violation (.writtenUnits expected written) := by
  have h : Instruction.encodeAll (.ofTarget (WriteOptions.target {})) twoNames 2
      Instruction.arrayCode =
        .ok [0x12, 0xf1, 0, 3, 1, 0, 3, 0, 0, 0, 5, 128, 127, 0, 26, 0, 1, 0] := by decide +kernel
  have herror : wideRegister.encode false (.ofTarget (WriteOptions.target {})) (Pools.resolver {}) 0 =
      .error ⟨.violation (.unsignedOperand 16 4), ["move at unit 0"]⟩ := by decide +kernel
  have hforetold := CodeItem.size_foretold (.ofTarget (WriteOptions.target {}))
  refine ⟨h, (hforetold twoNames).1 _ _ _ h, _, herror, ?_⟩
  obtain ⟨-, hnever, hmeasured⟩ := hforetold (Pools.resolver {})
  exact hnever (hmeasured {}) _ _ _ _ herror

end Dalvik
