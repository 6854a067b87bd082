import Dalvik.Proofs.Code.Header
import Dalvik.Proofs.Code.RoundTrip
import Dalvik.Proofs.Faultless.Decoders
import Dalvik.Proofs.Instruction.Taken

/-!
# The counts that a compact header states

Each count is the sum of what the header holds of it and of the units before the header that are its
own. All these sums but one fit a word of 32 bits, whatever the bytes are, and what is too much for a
word of 16 bits is refused. The count of code units has two units for its own; together with the bits
in the header it may come to 2 ^ 32 and more, and then reading ends in a fault.
-/
namespace Dalvik
open Decoder

namespace CodeHeader

/-- The counts as whole numbers. -/
structure Counts where
  /-- The registers but for those that the arguments arrive in. -/
  registers : Nat
  incoming : Nat
  outgoing : Nat
  tries : Nat
  units : Nat
  deriving DecidableEq, Repr

/-- The number that units hold together, the low one first. -/
def number : List UInt16 → Nat
  | [] => 0
  | unit :: units => unit.toNat + 0x10000 * number units

/-- A count comes to `n`: it has `low` in the header, and if its flag is set the `count` units before
`place` are its own, the nearest of them the low one. Where they begin is `left`. -/
def Extends (bytes : ByteArray) (place count : Nat) (flag : Bool) (low n left : Nat) : Prop :=
  ∃ units : List UInt16, units.length = (if flag then count else 0) ∧
    Before bytes place units.reverse ∧ n = low + number units ∧ left = place - 2 * units.length

/-- The header at `start` states `n` code units, with the units before it. -/
def StatesUnits (bytes : ByteArray) (start n : Nat) : Prop :=
  ∃ (fields flags : UInt16) (left : Nat),
    Bytes.Stands (Bytes.u2 fields ++ Bytes.u2 flags) bytes start ∧
    Extends bytes start 2 (flags.toNat.testBit unitsFlag) (flags.toNat >>> flagBits) n left

/-- The header at `start` states the counts, with the units before it. -/
inductive Stated (bytes : ByteArray) (start : Nat) : Counts → Prop
  | intro (fields flags : UInt16) {c : Counts} {units registers incoming outgoing tries : Nat}
    (header : Bytes.Stands (Bytes.u2 fields ++ Bytes.u2 flags) bytes start)
    (hunits : Extends bytes start 2 (flags.toNat.testBit unitsFlag) (flags.toNat >>> flagBits) c.units
      units)
    (hregisters : Extends bytes units 1 (flags.toNat.testBit registersFlag) (fields.toNat / 0x1000)
      c.registers registers)
    (hincoming : Extends bytes registers 1 (flags.toNat.testBit incomingFlag)
      (fields.toNat / 0x100 % 16) c.incoming incoming)
    (houtgoing : Extends bytes incoming 1 (flags.toNat.testBit outgoingFlag)
      (fields.toNat / 0x10 % 16) c.outgoing outgoing)
    (htries : Extends bytes outgoing 1 (flags.toNat.testBit triesFlag) (fields.toNat % 16) c.tries
      tries) : Stated bytes start c

/-- Some count of registers is more than a word of 16 bits holds. -/
def Counts.Wide (c : Counts) : Prop :=
  0xffff < c.registers + c.incoming ∨ 0xffff < c.incoming ∨ 0xffff < c.outgoing

instance (c : Counts) : Decidable c.Wide := inferInstanceAs (Decidable (_ ∨ _))

/-- The header with the counts as words. -/
def Counts.header (c : Counts) : CodeHeader where
  registers := (c.registers + c.incoming).toUInt16
  incoming := c.incoming.toUInt16
  outgoing := c.outgoing.toUInt16
  tries := c.tries
  units := UInt32.ofNat c.units
  debugOffset := 0

variable {bytes : ByteArray} {place start cursor after left n low : Nat} {units : List UInt16}
  {unit : UInt16} {c : Counts}

/-! ## Units before a place -/

theorem before_nil : Before bytes place [] := ⟨place, rfl, Bytes.Stands.nil⟩

theorem before_append_singleton : Before bytes place (units ++ [unit]) ↔
    Before bytes place [unit] ∧ Before bytes (place - 2) units := by
  constructor
  · rintro ⟨start, hplace, hs⟩
    rw [List.length_append, List.length_singleton] at hplace
    rw [List.flatMap_append] at hs
    have hlast := hs.right
    rw [Bytes.length_flatMap_u2] at hlast
    exact ⟨⟨_, by rw [List.length_singleton]; omega, hlast⟩, start, by omega, hs.left⟩
  · rintro ⟨⟨last, hplace, hlast⟩, start, hstart, hs⟩
    rw [List.length_singleton] at hplace
    refine ⟨start, ?_, ?_⟩
    · rw [List.length_append, List.length_singleton]
      omega
    · rw [List.flatMap_append]
      refine hs.append ?_
      rwa [Bytes.length_flatMap_u2, show start + 2 * units.length = last by omega]

theorem unitBefore_eq_ok : unitBefore place bytes cursor = .ok (unit, left) after ↔
    Before bytes place [unit] ∧ left = place - 2 ∧ cursor = after := by
  constructor
  · intro h
    unfold unitBefore at h
    split at h
    · cases h
    next hplace =>
      change (position >>= _ : Decoder (UInt16 × Nat)) bytes cursor = _ at h
      rw [position_bind, seek_bind] at h
      obtain ⟨unit', between, hunit, h⟩ := bind_eq_ok.mp h
      obtain ⟨hs, rfl⟩ := u2_eq_ok hunit
      rw [seek_bind] at h
      obtain ⟨heq, rfl⟩ := pure_eq_ok.mp h
      obtain ⟨rfl, rfl⟩ := Prod.mk.inj heq
      exact ⟨⟨place - 2, by rw [List.length_singleton]; omega, by simpa using hs⟩, rfl, rfl⟩
  · rintro ⟨h, rfl, rfl⟩
    have htake : Before bytes place ([] ++ [unit]) := h
    exact htake.take.1 _

/-! ## Counts -/

theorem extends_false {count : Nat} : Extends bytes place count false low n left ↔
    n = low ∧ left = place := by
  constructor
  · rintro ⟨units, hlength, -, rfl, rfl⟩
    obtain rfl := List.length_eq_zero_iff.mp hlength
    exact ⟨rfl, rfl⟩
  · rintro ⟨rfl, rfl⟩
    exact ⟨[], rfl, before_nil, rfl, rfl⟩

theorem extends_one : Extends bytes place 1 true low n left ↔
    ∃ unit, Before bytes place [unit] ∧ n = low + unit.toNat ∧ left = place - 2 := by
  constructor
  · rintro ⟨units, hlength, hbefore, rfl, rfl⟩
    obtain ⟨unit, rfl⟩ := List.length_eq_one_iff.mp hlength
    exact ⟨unit, hbefore, rfl, rfl⟩
  · rintro ⟨unit, hbefore, rfl, rfl⟩
    exact ⟨[unit], rfl, hbefore, rfl, rfl⟩

theorem extends_two : Extends bytes place 2 true low n left ↔
    ∃ first second, Before bytes place [first] ∧ Before bytes (place - 2) [second] ∧
      n = low + (first.toNat + 0x10000 * second.toNat) ∧ left = place - 2 - 2 := by
  constructor
  · rintro ⟨units, hlength, hbefore, rfl, rfl⟩
    obtain ⟨first, second, rfl⟩ := List.length_eq_two.mp hlength
    rw [List.reverse_cons, before_append_singleton] at hbefore
    obtain ⟨hfirst, hsecond⟩ := hbefore
    exact ⟨first, second, hfirst, hsecond, rfl, Nat.sub_add_eq place 2 2⟩
  · rintro ⟨first, second, hfirst, hsecond, rfl, rfl⟩
    refine ⟨[first, second], rfl, ?_, rfl, (Nat.sub_add_eq place 2 2).symm⟩
    rw [List.reverse_cons, before_append_singleton]
    exact ⟨hfirst, hsecond⟩

theorem extended_eq_ok {flags flag : Nat} :
    extended flags flag place low bytes cursor = .ok (n, left) after ↔
      Extends bytes place 1 (flags.testBit flag) low n left ∧ cursor = after := by
  unfold extended
  cases flags.testBit flag with
  | false =>
    rw [if_neg Bool.false_ne_true, pure_eq_ok, Prod.mk.injEq, extends_false]
    simp only [eq_comm]
  | true =>
    rw [if_pos rfl, bind_eq_ok, extends_one]
    constructor
    · rintro ⟨⟨unit, between⟩, at_, hunit, h⟩
      obtain ⟨hbefore, rfl, rfl⟩ := unitBefore_eq_ok.mp hunit
      obtain ⟨heq, rfl⟩ := pure_eq_ok.mp h
      obtain ⟨rfl, rfl⟩ := Prod.mk.inj heq
      exact ⟨⟨unit, hbefore, rfl, rfl⟩, rfl⟩
    · rintro ⟨⟨unit, hbefore, rfl, rfl⟩, rfl⟩
      exact ⟨(unit, place - 2), _, unitBefore_eq_ok.mpr ⟨hbefore, rfl, rfl⟩, rfl⟩

/-- The two units of the code as one word. -/
theorem toNat_units (first second : UInt16) :
    (first.toUInt32 + second.toUInt32 <<< 16).toNat = first.toNat + 0x10000 * second.toNat := by
  have hfirst := first.toNat_lt
  have hsecond := second.toNat_lt
  simp [Nat.shiftLeft_eq]
  omega

/-- The count of code units is found if it fits a word, and else adding to it fails. -/
theorem extendedUnits_of_extends (hlow : low < 2 ^ 32) {flags : Nat}
    (h : Extends bytes place 2 (flags.testBit unitsFlag) low n left) (cursor : Nat) :
    extendedUnits flags place (UInt32.ofNat low) bytes cursor =
      if n < 2 ^ 32 then .ok (UInt32.ofNat n, left) cursor
      else .error (.ofCause (.fault (.overflow .add))) cursor := by
  unfold extendedUnits
  cases hflag : flags.testBit unitsFlag with
  | false =>
    rw [hflag] at h
    obtain ⟨rfl, rfl⟩ := extends_false.mp h
    rw [if_neg Bool.false_ne_true, if_pos hlow]
    rfl
  | true =>
    rw [hflag] at h
    obtain ⟨first, second, hfirst, hsecond, rfl, rfl⟩ := extends_two.mp h
    rw [if_pos rfl, bind_of_ok (unitBefore_eq_ok.mpr ⟨hfirst, rfl, rfl⟩)]
    dsimp only
    rw [bind_of_ok (unitBefore_eq_ok.mpr ⟨hsecond, rfl, rfl⟩)]
    dsimp only
    have hcount : (UInt32.ofNat low).toNat = low := UInt32.toNat_ofNat_of_lt' hlow
    have hsum : (UInt32.ofNat low).toNat + (first.toUInt32 + second.toUInt32 <<< 16).toNat =
        low + (first.toNat + 0x10000 * second.toNat) := by
      rw [hcount, toNat_units]
    split
    next hlt =>
      have hword : UInt32.ofNat low + (first.toUInt32 + second.toUInt32 <<< 16) =
          UInt32.ofNat (low + (first.toNat + 0x10000 * second.toNat)) := by
        apply UInt32.toNat_inj.mp
        rw [UInt32.toNat_add, hsum, UInt32.toNat_ofNat']
      rw [Arithmetic.add32_eq_ok (hsum.trans_lt hlt), hword]
      rfl
    next hlarge =>
      rw [Arithmetic.add32_eq_overflow (hsum.ge.trans' (Nat.not_lt.mp hlarge))]
      rfl

theorem exists_extends_of_extendedUnits {flags : Nat} {count : UInt32}
    (h : extendedUnits flags place (UInt32.ofNat low) bytes cursor = .ok (count, left) after) :
    ∃ n, Extends bytes place 2 (flags.testBit unitsFlag) low n left := by
  unfold extendedUnits at h
  cases hflag : flags.testBit unitsFlag with
  | false =>
    rw [hflag, if_neg Bool.false_ne_true] at h
    obtain ⟨heq, -⟩ := pure_eq_ok.mp h
    exact ⟨low, extends_false.mpr ⟨rfl, (Prod.mk.inj heq).2.symm⟩⟩
  | true =>
    rw [hflag, if_pos rfl] at h
    obtain ⟨⟨first, between⟩, _, hrun, h⟩ := bind_eq_ok.mp h
    obtain ⟨hfirst, rfl, rfl⟩ := unitBefore_eq_ok.mp hrun
    obtain ⟨⟨second, between⟩, _, hrun, h⟩ := bind_eq_ok.mp h
    obtain ⟨hsecond, rfl, rfl⟩ := unitBefore_eq_ok.mp hrun
    obtain ⟨sum, -, h⟩ := lift_bind_eq_ok.mp h
    obtain ⟨heq, -⟩ := pure_eq_ok.mp h
    exact ⟨_, extends_two.mpr ⟨first, second, hfirst, hsecond, rfl, (Prod.mk.inj heq).2.symm⟩⟩

theorem extendedUnits_eq_ok (hlow : low < 2 ^ 32) {flags : Nat} {count : UInt32} :
    extendedUnits flags place (UInt32.ofNat low) bytes cursor = .ok (count, left) after ↔
      ∃ n < 2 ^ 32, Extends bytes place 2 (flags.testBit unitsFlag) low n left ∧
        count = UInt32.ofNat n ∧ cursor = after := by
  constructor
  · intro h
    obtain ⟨n, hextends⟩ := exists_extends_of_extendedUnits h
    rw [extendedUnits_of_extends hlow hextends] at h
    split at h
    next hlt =>
      cases h
      exact ⟨n, hlt, hextends, rfl, rfl⟩
    · cases h
  · rintro ⟨n, hlt, hextends, rfl, rfl⟩
    rw [extendedUnits_of_extends hlow hextends, if_pos hlt]

/-- The walk before a header finds what the header states. -/
theorem walk_eq_ok {fields flags : Nat} (hflags : flags < 2 ^ 32) {s : Small} {count : UInt32} :
    walk fields flags start bytes cursor = .ok (s, count, left) after ↔
      ∃ n units registers incoming outgoing, n < 2 ^ 32 ∧
        Extends bytes start 2 (flags.testBit unitsFlag) (flags >>> flagBits) n units ∧
        Extends bytes units 1 (flags.testBit registersFlag) (fields / 0x1000) s.registers registers ∧
        Extends bytes registers 1 (flags.testBit incomingFlag) (fields / 0x100 % 16) s.incoming
          incoming ∧
        Extends bytes incoming 1 (flags.testBit outgoingFlag) (fields / 0x10 % 16) s.outgoing
          outgoing ∧
        Extends bytes outgoing 1 (flags.testBit triesFlag) (fields % 16) s.tries left ∧
        count = UInt32.ofNat n ∧ cursor = after := by
  have hlow : flags >>> flagBits < 2 ^ 32 := Nat.lt_of_le_of_lt (Nat.shiftRight_le flags _) hflags
  unfold walk
  constructor
  · intro h
    obtain ⟨⟨_, units⟩, _, hfirst, h⟩ := bind_eq_ok.mp h
    obtain ⟨n, hlt, hunits, rfl, rfl⟩ := (extendedUnits_eq_ok hlow).mp hfirst
    obtain ⟨⟨_, registers⟩, _, hsecond, h⟩ := bind_eq_ok.mp h
    obtain ⟨hregisters, rfl⟩ := extended_eq_ok.mp hsecond
    obtain ⟨⟨_, incoming⟩, _, hthird, h⟩ := bind_eq_ok.mp h
    obtain ⟨hincoming, rfl⟩ := extended_eq_ok.mp hthird
    obtain ⟨⟨_, outgoing⟩, _, hfourth, h⟩ := bind_eq_ok.mp h
    obtain ⟨houtgoing, rfl⟩ := extended_eq_ok.mp hfourth
    obtain ⟨⟨_, tries⟩, _, hfifth, h⟩ := bind_eq_ok.mp h
    obtain ⟨htries, rfl⟩ := extended_eq_ok.mp hfifth
    obtain ⟨heq, rfl⟩ := pure_eq_ok.mp h
    cases heq
    exact ⟨n, units, registers, incoming, outgoing, hlt, hunits, hregisters, hincoming, houtgoing,
      htries, rfl, rfl⟩
  · rintro ⟨n, units, registers, incoming, outgoing, hlt, hunits, hregisters, hincoming, houtgoing,
      htries, rfl, rfl⟩
    refine bind_eq_ok.mpr ⟨_, _, (extendedUnits_eq_ok hlow).mpr ⟨n, hlt, hunits, rfl, rfl⟩, ?_⟩
    refine bind_eq_ok.mpr ⟨_, _, extended_eq_ok.mpr ⟨hregisters, rfl⟩, ?_⟩
    refine bind_eq_ok.mpr ⟨_, _, extended_eq_ok.mpr ⟨hincoming, rfl⟩, ?_⟩
    refine bind_eq_ok.mpr ⟨_, _, extended_eq_ok.mpr ⟨houtgoing, rfl⟩, ?_⟩
    exact bind_eq_ok.mpr ⟨_, _, extended_eq_ok.mpr ⟨htries, rfl⟩, rfl⟩

/-! ## The header -/

theorem toNat_flags_lt (flags : UInt16) : flags.toNat < 2 ^ 32 :=
  flags.toNat_lt.trans (by decide)

theorem Stated.statesUnits (h : Stated bytes start c) : StatesUnits bytes start c.units := by
  obtain ⟨fields, flags, header, hunits, -⟩ := h
  exact ⟨fields, flags, _, header, hunits⟩

/-- If too many code units are stated, then adding them up fails before the other counts are seen. -/
theorem decodeCompact_of_overlong (h : StatesUnits bytes start n) (hn : 2 ^ 32 ≤ n) :
    decodeCompact bytes start = .error (.ofCause (.fault (.overflow .add))) (start + 4) := by
  obtain ⟨fields, flags, left, header, hunits⟩ := h
  have hlow : flags.toNat >>> flagBits < 2 ^ 32 :=
    Nat.lt_of_le_of_lt (Nat.shiftRight_le _ _) (toNat_flags_lt flags)
  have hextended := extendedUnits_of_extends hlow hunits (start + 2 + 2)
  rw [if_neg (Nat.not_lt.mpr hn)] at hextended
  unfold decodeCompact walk
  rw [position_bind, bind_of_ok (u2_reads fields header.left), bind_of_ok (u2_reads flags header.right),
    Bytes.length_u2, Bytes.length_u2, bind_assoc, bind_eq, hextended]

/-- What the header states is read, unless a count of registers is too much. -/
theorem decodeCompact_of_stated (h : Stated bytes start c) (hlt : c.units < 2 ^ 32) :
    decodeCompact bytes start =
      if c.Wide then .error (.ofCause (.malformed (.codeRegisters start))) (start + 4)
      else .ok c.header (start + 4) := by
  obtain ⟨fields, flags, header, hunits, hregisters, hincoming, houtgoing, htries⟩ := h
  have hwalk := (walk_eq_ok (toNat_flags_lt flags)
    (s := ⟨c.registers, c.incoming, c.outgoing, c.tries⟩)).mpr
      ⟨_, _, _, _, _, hlt, hunits, hregisters, hincoming, houtgoing, htries, rfl,
        Eq.refl (start + 2 + 2)⟩
  unfold decodeCompact
  rw [position_bind, bind_of_ok (u2_reads fields header.left), bind_of_ok (u2_reads flags header.right),
    Bytes.length_u2, Bytes.length_u2, bind_of_ok hwalk]
  dsimp only
  by_cases hwide : c.Wide
  · rw [if_pos hwide]
    exact congrFun (congrFun (if_pos hwide) bytes) (start + 4)
  · rw [if_neg hwide]
    exact congrFun (congrFun (if_neg hwide) bytes) (start + 4)

theorem stated_of_decodeCompact {e : CodeHeader} (h : decodeCompact bytes start = .ok e after) :
    ∃ c, Stated bytes start c := by
  unfold decodeCompact at h
  rw [position_bind] at h
  obtain ⟨fields, _, hfirst, h⟩ := bind_eq_ok.mp h
  obtain ⟨hfields, rfl⟩ := u2_eq_ok hfirst
  obtain ⟨flags, _, hsecond, h⟩ := bind_eq_ok.mp h
  obtain ⟨hflags, rfl⟩ := u2_eq_ok hsecond
  obtain ⟨⟨s, count, left⟩, _, hwalk, -⟩ := bind_eq_ok.mp h
  obtain ⟨n, _, _, _, _, -, hunits, hregisters, hincoming, houtgoing, htries, -⟩ :=
    (walk_eq_ok (toNat_flags_lt flags)).mp hwalk
  exact ⟨⟨s.registers, s.incoming, s.outgoing, s.tries, n⟩,
    .intro fields flags (hfields.append hflags) hunits hregisters hincoming houtgoing htries⟩

theorem faultless_extendedUnits_at {flags : Nat}
    (h : ∀ n left, Extends bytes place 2 (flags.testBit unitsFlag) low n left → n < 2 ^ 32)
    (cursor : Nat) : ((extendedUnits flags place (UInt32.ofNat low)).valueAt bytes cursor).Faultless
      Operation.never := by
  unfold extendedUnits
  cases hflag : flags.testBit unitsFlag with
  | false => exact faultless_pure _ bytes cursor
  | true =>
    rw [hflag] at h
    rw [if_pos rfl]
    refine faultless_bind_at (faultless_unitBefore place bytes cursor) ?_
    rintro ⟨first, _⟩ _ hrun
    obtain ⟨hfirst, rfl, rfl⟩ := unitBefore_eq_ok.mp hrun
    dsimp only
    refine faultless_bind_at (faultless_unitBefore (place - 2) bytes cursor) ?_
    rintro ⟨second, left⟩ after hrun
    have hsecond := (unitBefore_eq_ok.mp hrun).1
    have hlt := h _ _ (extends_two.mpr ⟨first, second, hfirst, hsecond, rfl, rfl⟩)
    have hcount : (UInt32.ofNat low).toNat ≤ low := (UInt32.toNat_ofNat' ..).trans_le (Nat.mod_le _ _)
    have hsum : (UInt32.ofNat low).toNat + (first.toUInt32 + second.toUInt32 <<< 16).toNat <
        2 ^ 32 := by
      rw [toNat_units]
      omega
    dsimp only
    rw [Arithmetic.add32_eq_ok hsum]
    trivial

/-- Unless too many code units are stated, there is no fault. -/
theorem faultless_decodeCompact_at (h : ∀ n, StatesUnits bytes start n → n < 2 ^ 32) :
    (decodeCompact.valueAt bytes start).Faultless Operation.never := by
  refine faultless_bind_at (faultless_position bytes start) fun _ _ hposition => ?_
  cases hposition
  refine faultless_bind_at (faultless_u2 bytes start) fun fields _ hrun => ?_
  obtain ⟨hfields, rfl⟩ := u2_eq_ok hrun
  refine faultless_bind_at (faultless_u2 bytes _) fun flags _ hrun => ?_
  obtain ⟨hflags, rfl⟩ := u2_eq_ok hrun
  refine faultless_bind_at (faultless_walk_at (faultless_extendedUnits_at ?_ _)) fun _ after _ => ?_
  · exact fun n left hunits => h n ⟨fields, flags, left, hfields.append hflags, hunits⟩
  · exact faultless_guard (fun _ => faultless_pure _) bytes after

/-- Reading a compact header ends in a fault if, and only if, too many code units are stated. -/
theorem decodeCompact_eq_overflow_iff : decodeCompact.valueAt bytes start = Arithmetic.overflow .add ↔
    ∃ n, StatesUnits bytes start n ∧ 2 ^ 32 ≤ n := by
  constructor
  · intro hfault
    by_contra hnone
    push Not at hnone
    have hfaultless := faultless_decodeCompact_at hnone
    rw [hfault] at hfaultless
    exact Arithmetic.faultless_overflow.mp hfaultless
  · rintro ⟨n, hunits, hn⟩
    rw [Decoder.valueAt, decodeCompact_of_overlong hunits hn]
    rfl

/-! ## What fits a word -/

theorem number_lt (units : List UInt16) : number units < 0x10000 ^ units.length := by
  induction units with
  | nil => exact Nat.one_pos
  | cons unit units ih =>
    have hunit := unit.toNat_lt
    rw [number, List.length_cons, Nat.pow_succ]
    omega

theorem Extends.lt {count : Nat} {flag : Bool} (h : Extends bytes place count flag low n left) :
    n < low + 0x10000 ^ count := by
  obtain ⟨units, hlength, -, rfl, -⟩ := h
  have hle : units.length ≤ count := by
    cases flag with
    | false => exact hlength.le.trans (Nat.zero_le count)
    | true => exact hlength.le
  exact Nat.add_lt_add_left
    ((number_lt units).trans_le (Nat.pow_le_pow_right (by decide) hle)) low

/-- A word of 32 bits holds all counts but that of the code units, which may exceed it by less than
what the header has of it. -/
structure Counts.Bounded (c : Counts) : Prop where
  registers : c.registers + c.incoming < 2 ^ 32
  outgoing : c.outgoing < 2 ^ 32
  tries : c.tries < 2 ^ 32
  units : c.units < 2 ^ 32 + unitsBound

theorem Stated.bounded (h : Stated bytes start c) : c.Bounded := by
  obtain ⟨fields, flags, -, hunits, hregisters, hincoming, houtgoing, htries⟩ := h
  have hfields := fields.toNat_lt
  have hflags := flags.toNat_lt
  have hlow : flags.toNat >>> flagBits < unitsBound := by
    rw [Nat.shiftRight_eq_div_pow]
    simp only [flagBits, unitsBound]
    omega
  have hunits := hunits.lt
  have hregisters := hregisters.lt
  have hincoming := hincoming.lt
  have houtgoing := houtgoing.lt
  have htries := htries.lt
  constructor <;> omega

end CodeHeader

/-! ## The item -/

theorem Instruction.unitsOf_of_decodeAll {table : OpcodeTable} {s : Source} {count : Nat}
    {bytes : ByteArray} {index after : Nat} {is : List Instruction}
    (h : decodeAll table s count bytes index = .ok is after) : unitsOf is = count := by
  obtain ⟨-, hafter, hstream⟩ := decodeAll_eq_ok_iff.mp h
  have hsize := hstream.size
  omega

theorem TryBlock.length_of_decodeAll {s : Source} {item count : Nat} {bytes : ByteArray}
    {index after : Nat} {tries : List TryBlock}
    (h : decodeAll s item count bytes index = .ok tries after) : tries.length = count := by
  unfold decodeAll at h
  split at h
  next hzero =>
    obtain ⟨rfl, -⟩ := pure_eq_ok.mp h
    exact hzero.symm
  · rw [position_bind, seek_bind] at h
    obtain ⟨handlerCount, _, -, h⟩ := bind_eq_ok.mp h
    obtain ⟨left, _, -, h⟩ := bind_eq_ok.mp h
    split at h
    · cases h
    · obtain ⟨handlers, _, -, h⟩ := bind_eq_ok.mp h
      rw [position_bind, seek_bind] at h
      obtain ⟨found, _, hfound, h⟩ := bind_eq_ok.mp h
      rw [seek_bind] at h
      obtain ⟨rfl, -⟩ := pure_eq_ok.mp h
      exact length_of_repeated hfound

namespace CodeItem
open CodeHeader
variable {table : OpcodeTable} {s : Source} {bytes : ByteArray} {start after : Nat} {i : CodeItem}
  {c : Counts}

/-- The item has the counts. -/
structure Has (i : CodeItem) (c : Counts) : Prop where
  registers : i.registers.toNat = c.registers + c.incoming
  incoming : i.incoming.toNat = c.incoming
  outgoing : i.outgoing.toNat = c.outgoing
  tries : i.tries.length = c.tries
  units : Instruction.unitsOf i.instructions = c.units

theorem exists_stated_of_decode (h : decode true table s bytes start = .ok i after) :
    ∃ c, Stated bytes start c := by
  rw [decode_bind, if_pos rfl] at h
  obtain ⟨e, _, hheader, -⟩ := bind_eq_ok.mp h
  exact stated_of_decodeCompact hheader

theorem decode_of_overlong {n : Nat} (h : StatesUnits bytes start n) (hn : 2 ^ 32 ≤ n) :
    (decode true table s).valueAt bytes start = Arithmetic.overflow .add := by
  unfold Decoder.valueAt
  rw [decode_bind, if_pos rfl, Decoder.bind_eq, decodeCompact_of_overlong h hn]
  rfl

/-- Items are read without a fault, but for compact ones that state too many code units. -/
theorem faultless_decode_iff (hs : s.Faultless Operation.never) {compact : Bool} :
    ((decode compact table s).valueAt bytes start).Faultless Operation.never ↔
      ¬ (compact ∧ ∃ n, StatesUnits bytes start n ∧ 2 ^ 32 ≤ n) := by
  constructor
  · rintro hfaultless ⟨rfl, n, hunits, hn⟩
    rw [decode_of_overlong hunits hn] at hfaultless
    exact Arithmetic.faultless_overflow.mp hfaultless
  · intro hnone
    refine faultless_decode_at hs fun hcompact => faultless_decodeCompact_at fun n hunits => ?_
    by_contra hn
    exact hnone ⟨hcompact, n, hunits, Nat.not_lt.mp hn⟩

theorem has_of_decode (hc : Stated bytes start c)
    (h : decode true table s bytes start = .ok i after) :
    c.units < 2 ^ 32 ∧ ¬ c.Wide ∧ i.Has c := by
  rw [decode_bind, if_pos rfl] at h
  obtain ⟨e, _, hheader, h⟩ := bind_eq_ok.mp h
  obtain ⟨is, _, his, h⟩ := bind_eq_ok.mp h
  obtain ⟨tries, _, htries, h⟩ := bind_eq_ok.mp h
  obtain ⟨rfl, -⟩ := pure_eq_ok.mp h
  have hunits : c.units < 2 ^ 32 := by
    by_contra hlarge
    rw [decodeCompact_of_overlong hc.statesUnits (Nat.not_lt.mp hlarge)] at hheader
    cases hheader
  rw [decodeCompact_of_stated hc hunits] at hheader
  split at hheader
  · cases hheader
  next hwide =>
    cases hheader
    refine ⟨hunits, hwide, ?_⟩
    have hsize : UInt16.size = 0x10000 := rfl
    unfold Counts.Wide at hwide
    exact {
      registers := UInt16.toNat_ofNat_of_lt' (by omega)
      incoming := UInt16.toNat_ofNat_of_lt' (by omega)
      outgoing := UInt16.toNat_ofNat_of_lt' (by omega)
      tries := TryBlock.length_of_decodeAll htries
      units := (Instruction.unitsOf_of_decodeAll his).trans (UInt32.toNat_ofNat_of_lt' hunits) }

/-- The counts of an item that is read are those that its header states with the units before it. All
sums but one fit the words in which they are made, whatever the bytes are, and an item with too many
registers is refused. The count of code units has no such check: if 2 ^ 32 or more are stated, reading
ends in a fault where they are added up. -/
theorem counts_decodeCompact (table : OpcodeTable) (s : Source) (bytes : ByteArray) (start : Nat) :
    (CodeHeader.decodeCompact.valueAt bytes start = Arithmetic.overflow .add ↔
      ∃ n, StatesUnits bytes start n ∧ 2 ^ 32 ≤ n) ∧
    (∀ n, StatesUnits bytes start n → 2 ^ 32 ≤ n →
      (decode true table s).valueAt bytes start = Arithmetic.overflow .add) ∧
    (∀ i, (decode true table s).valueAt bytes start = .ok i → ∃ c, Stated bytes start c) ∧
    ∀ c, Stated bytes start c →
      StatesUnits bytes start c.units ∧ c.Bounded ∧
      (c.units < 2 ^ 32 →
        (c.Wide → (decode true table s).valueAt bytes start =
          Result.malformed (.codeRegisters start)) ∧
        (¬ c.Wide → CodeHeader.decodeCompact.decodeAt bytes start = .ok (c.header, start + 4))) ∧
      ∀ i, (decode true table s).valueAt bytes start = .ok i →
        c.units < 2 ^ 32 ∧ ¬ c.Wide ∧ i.Has c := by
  refine ⟨decodeCompact_eq_overflow_iff, fun n => decode_of_overlong, fun i hi => ?_, fun c hc => ?_⟩
  · obtain ⟨after, hrun⟩ := valueAt_eq_ok.mp hi
    exact exists_stated_of_decode hrun
  refine ⟨hc.statesUnits, hc.bounded, fun hunits => ⟨fun hwide => ?_, fun hwide => ?_⟩, fun i hi => ?_⟩
  · unfold Decoder.valueAt
    rw [decode_bind, if_pos rfl, Decoder.bind_eq, decodeCompact_of_stated hc hunits, if_pos hwide]
    rfl
  · rw [decodeAt_eq_ok, decodeCompact_of_stated hc hunits, if_neg hwide]
  · obtain ⟨after, hrun⟩ := valueAt_eq_ok.mp hi
    exact has_of_decode hc hrun

/-- All five counts have units of their own, and one instruction is behind the header. -/
def extendedBytes : ByteArray :=
  ([0, 0, 0x10, 0, 0x10, 0, 0x20, 0, 0, 0, 0, 0, 0x30, 0x12, 0x3f, 0, 0, 0] : Bytes).toByteArray

theorem stated_extendedBytes : Stated extendedBytes 12 ⟨33, 18, 19, 0, 1⟩ :=
  .intro 0x1230 0x3f ⟨[0, 0], rfl⟩ ⟨[0, 0], rfl, ⟨8, rfl, [0x30, 0x12, 0x3f, 0, 0, 0], rfl⟩, rfl, rfl⟩
    ⟨[0x20], rfl, ⟨6, rfl, [0, 0, 0, 0, 0x30, 0x12, 0x3f, 0, 0, 0], rfl⟩, rfl, rfl⟩
    ⟨[0x10], rfl, ⟨4, rfl, [0x20, 0, 0, 0, 0, 0, 0x30, 0x12, 0x3f, 0, 0, 0], rfl⟩, rfl, rfl⟩
    ⟨[0x10], rfl, ⟨2, rfl, [0x10, 0, 0x20, 0, 0, 0, 0, 0, 0x30, 0x12, 0x3f, 0, 0, 0], rfl⟩, rfl, rfl⟩
    ⟨[0], rfl, ⟨0, rfl, [0x10, 0, 0x10, 0, 0x20, 0, 0, 0, 0, 0, 0x30, 0x12, 0x3f, 0, 0, 0], rfl⟩, rfl,
      rfl⟩

theorem counts_decodeCompact_extended :
    (decode true (.ofTarget (WriteOptions.target {})) twoNamesSource).valueAt extendedBytes 12 =
      .ok ⟨51, 18, 19, 0, [⟨⟨0, by decide⟩, .f10x⟩], []⟩ ∧
    Has ⟨51, 18, 19, 0, [⟨⟨0, by decide⟩, .f10x⟩], []⟩ ⟨33, 18, 19, 0, 1⟩ := by
  have hrun : (decode true (.ofTarget (WriteOptions.target {})) twoNamesSource).valueAt extendedBytes
      12 = .ok ⟨51, 18, 19, 0, [⟨⟨0, by decide⟩, .f10x⟩], []⟩ := by
    have hheader := decodeCompact_of_stated stated_extendedBytes (by decide)
    rw [if_neg (by decide)] at hheader
    have hnop : (⟨⟨0, by decide⟩, .f10x⟩ : Instruction).encode (.ofTarget (WriteOptions.target {}))
        twoNames 16 = .ok [0, 0] := by decide +kernel
    have hs : Bytes.Stands [0, 0] (extendedBytes.extract 0 18) 16 := ⟨[], rfl⟩
    have hnext := Instruction.decode_eq_ok_of_encode (i := ⟨⟨0, by decide⟩, .f10x⟩)
      (WriteOptions.faithful (o := {}) rfl) inverse_twoNames ⟨by decide +kernel, trivial⟩ trivial hnop (.inl rfl) hs (by decide)
    have hcode : Instruction.decodeAll (.ofTarget (WriteOptions.target {})) twoNamesSource 1
        extendedBytes 16 = .ok [⟨⟨0, by decide⟩, .f10x⟩] 18 :=
      Instruction.decodeAll_eq_ok_iff.mpr ⟨by decide, rfl, .next hnext (.done 18)⟩
    refine valueAt_eq_ok.mpr ⟨18, ?_⟩
    rw [decode_bind, if_pos rfl, bind_of_ok hheader]
    exact bind_eq_ok.mpr ⟨_, _, hcode, rfl⟩
  obtain ⟨-, -, -, hstated⟩ := counts_decodeCompact (.ofTarget (WriteOptions.target {}))
    twoNamesSource extendedBytes 12
  obtain ⟨-, -, -, hread⟩ := hstated _ stated_extendedBytes
  exact ⟨hrun, (hread _ hrun).2.2⟩

/-- The code units are stated as one and 2 ^ 32 - 1. -/
def overlongBytes : ByteArray := ([0xff, 0xff, 0xff, 0xff, 0, 0, 0x30, 0] : Bytes).toByteArray

theorem stated_overlongBytes : Stated overlongBytes 4 ⟨0, 0, 0, 0, 2 ^ 32⟩ :=
  .intro 0 0x30 ⟨[], rfl⟩ ⟨[0xffff, 0xffff], rfl, ⟨0, rfl, [0, 0, 0x30, 0], rfl⟩, rfl, rfl⟩
    ⟨[], rfl, before_nil, rfl, rfl⟩ ⟨[], rfl, before_nil, rfl, rfl⟩ ⟨[], rfl, before_nil, rfl, rfl⟩
    ⟨[], rfl, before_nil, rfl, rfl⟩

/-- The item states 2 ^ 32 code units, and is not refused: reading it ends in a fault. -/
theorem decodeCompact_overlong :
    Stated overlongBytes 4 ⟨0, 0, 0, 0, 2 ^ 32⟩ ∧
    (decode true (.ofTarget (WriteOptions.target {})) twoNamesSource).valueAt overlongBytes 4 =
      Arithmetic.overflow .add :=
  ⟨stated_overlongBytes, decode_of_overlong stated_overlongBytes.statesUnits (Nat.le_refl _)⟩

end CodeItem

end Dalvik
