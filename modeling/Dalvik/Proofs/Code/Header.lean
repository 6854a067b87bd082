import Dalvik.Code.Header
import Dalvik.Proofs.Reads
import Dalvik.Proofs.Result

/-!
# The counts in front of code are read back

A compact header is read from its own place: the units before it are taken one by one, the nearest
one first, and each flag says whether one of them belongs to its count.
-/
namespace Dalvik.CodeHeader
open Decoder

/-! ## Standard files -/

theorem decode_reads (h : CodeHeader) (ht : h.tries < 0x10000) : decode.Reads h.encode h := by
  have htries : h.tries.toUInt16.toNat = h.tries := by
    rw [Nat.toUInt16_eq, UInt16.toNat_ofNat', Nat.mod_eq_of_lt ht]
  simp only [encode, List.append_assoc]
  apply (u2_reads h.registers).bind
  apply (u2_reads h.incoming).bind
  apply (u2_reads h.outgoing).bind
  apply (u2_reads h.tries.toUInt16).bind
  apply (u4_reads h.debugOffset).bind
  have hlast := (u4_reads h.units).map (g := fun units =>
    CodeHeader.mk h.registers h.incoming h.outgoing h.tries.toUInt16.toNat units h.debugOffset)
  rw [htries] at hlast ⊢
  exact hlast

/-! ## Compact files -/

/-- The units stand right before a place. -/
def Before (bytes : ByteArray) (place : Nat) (units : List UInt16) : Prop :=
  ∃ start, place = start + 2 * units.length ∧ Bytes.Stands (units.flatMap Bytes.u2) bytes start

variable {bytes : ByteArray} {place : Nat} {units : List UInt16}

theorem Before.take {unit : UInt16} (h : Before bytes place (units ++ [unit])) :
    (∀ cursor, unitBefore place bytes cursor = .ok (unit, place - 2) cursor) ∧
      Before bytes (place - 2) units := by
  obtain ⟨start, hplace, hs⟩ := h
  rw [List.length_append, List.length_singleton] at hplace
  rw [List.flatMap_append, List.flatMap_singleton] at hs
  have hlast := hs.right
  rw [Bytes.length_flatMap_u2] at hlast
  have hstart : place - 2 = start + 2 * units.length := by omega
  constructor
  · intro cursor
    have hread := u2_reads unit hlast
    unfold unitBefore
    rw [if_neg (by omega)]
    change (position >>= _ : Decoder (UInt16 × Nat)) bytes cursor = _
    rw [position_bind, seek_bind, hstart, bind_of_ok hread, seek_bind]
    rfl
  · exact ⟨start, hstart, hs.left⟩

theorem extended_eq {flags flag count : Nat} (hc : count < 0x10000)
    (hflag : flags.testBit flag = decide (rest count ≠ 0))
    (h : Before bytes place (units ++ extension count)) :
    (∀ cursor, extended flags flag place (count % 16) bytes cursor =
      .ok (count, place - 2 * (extension count).length) cursor) ∧
        Before bytes (place - 2 * (extension count).length) units := by
  unfold extension at h ⊢
  unfold extended
  rw [hflag]
  by_cases hr : rest count = 0
  · rw [if_pos hr, List.append_nil] at h
    have hcount : count % 16 = count := by
      have := Nat.mod_le count 16
      unfold rest at hr
      omega
    refine ⟨fun cursor => ?_, by simpa [hr] using h⟩
    simp [hr, hcount]
    rfl
  · rw [if_neg hr] at h
    obtain ⟨hunit, hleft⟩ := h.take
    refine ⟨fun cursor => ?_, by simpa [hr] using hleft⟩
    have hrest : (rest count).toUInt16.toNat = rest count := by
      unfold rest
      rw [Nat.toUInt16_eq, UInt16.toNat_ofNat', Nat.mod_eq_of_lt (by omega)]
    have hsum : count % 16 + rest count = count := by
      unfold rest
      omega
    rw [if_pos (by simpa using hr), if_neg hr, bind_of_ok (hunit cursor)]
    simp only [hrest, hsum]
    rfl

theorem extendedUnits_eq {flags : Nat} {count : UInt32}
    (hflag : flags.testBit unitsFlag = decide (count.toNat - count.toNat % unitsBound ≠ 0))
    (h : Before bytes place (units ++ unitsExtension count.toNat)) :
    (∀ cursor, extendedUnits flags place (UInt32.ofNat (count.toNat % unitsBound)) bytes cursor =
      .ok (count, place - 2 * (unitsExtension count.toNat).length) cursor) ∧
        Before bytes (place - 2 * (unitsExtension count.toNat).length) units := by
  have hlt := count.toNat_lt
  unfold unitsExtension at h ⊢
  unfold extendedUnits
  rw [hflag]
  generalize hhigh : count.toNat - count.toNat % unitsBound = high at *
  dsimp only at h ⊢
  by_cases hr : high = 0
  · rw [if_pos hr, List.append_nil] at h
    have hcount : count.toNat % unitsBound = count.toNat := by
      have := Nat.mod_le count.toNat unitsBound
      omega
    refine ⟨fun cursor => ?_, by simpa [hr] using h⟩
    simp [hr, hcount]
    rfl
  · rw [if_neg hr, List.append_cons] at h
    obtain ⟨hlow, h⟩ := h.take
    obtain ⟨hupper, hleft⟩ := h.take
    refine ⟨fun cursor => ?_, by simpa [hr, Nat.sub_sub] using hleft⟩
    -- the two parts make up a count that is a word, so that their sum is one
    have hexact : (UInt32.ofNat (count.toNat % unitsBound)).toNat +
        (high.toUInt16.toUInt32 + (high >>> 16).toUInt16.toUInt32 <<< 16).toNat = count.toNat := by
      unfold unitsBound at hhigh ⊢
      simp [Nat.shiftRight_eq_div_pow, Nat.shiftLeft_eq]
      omega
    have hsum := Arithmetic.add32_eq_ok (hexact.trans_lt hlt)
    have hcount : UInt32.ofNat (count.toNat % unitsBound) +
        (high.toUInt16.toUInt32 + (high >>> 16).toUInt16.toUInt32 <<< 16) = count :=
      UInt32.toNat_inj.mp ((Arithmetic.toNat_of_add32 hsum).trans hexact)
    rw [hcount] at hsum
    rw [if_pos (by simpa using hr), if_neg hr, bind_of_ok (hlow cursor)]
    dsimp only
    rw [bind_of_ok (hupper cursor)]
    dsimp only
    rw [lift_of_ok hsum]
    rfl

/-! ## The flags -/

/-- A bit that is clear if a condition holds. -/
def flagBit (p : Prop) [Decidable p] (flag : Nat) : Nat := if p then 0 else 1 <<< flag

theorem flagBit_eq (p : Prop) [Decidable p] (flag : Nat) :
    ∃ b, flagBit p flag = b * 2 ^ flag ∧ b < 2 ∧ (¬ p ↔ b = 1) := by
  by_cases hp : p
  · exact ⟨0, by simp [flagBit, hp], by decide, by simp [hp]⟩
  · exact ⟨1, by simp [flagBit, hp, Nat.shiftLeft_eq], by decide, by simp [hp]⟩

/-- Five bits below a number are told apart from each other and from the number. -/
theorem flags_spec (n : Nat) (p q r s t : Prop) [Decidable p] [Decidable q] [Decidable r]
    [Decidable s] [Decidable t] {flags : Nat}
    (h : flags = n <<< 5 + (flagBit p 0 + flagBit q 1 + flagBit r 2 + flagBit s 3 + flagBit t 4)) :
    flags >>> 5 = n ∧ flags.testBit 0 = decide (¬ p) ∧ flags.testBit 1 = decide (¬ q) ∧
      flags.testBit 2 = decide (¬ r) ∧ flags.testBit 3 = decide (¬ s) ∧
        flags.testBit 4 = decide (¬ t) := by
  obtain ⟨p', hp, _, hp'⟩ := flagBit_eq p 0
  obtain ⟨q', hq, _, hq'⟩ := flagBit_eq q 1
  obtain ⟨r', hr, _, hr'⟩ := flagBit_eq r 2
  obtain ⟨s', hs, _, hs'⟩ := flagBit_eq s 3
  obtain ⟨t', ht, _, ht'⟩ := flagBit_eq t 4
  rw [hp, hq, hr, hs, ht, Nat.shiftLeft_eq] at h
  simp only [Nat.testBit_eq_decide_div_mod_eq, Nat.shiftRight_eq_div_pow, decide_eq_decide, hp', hq',
    hr', hs', ht']
  omega

theorem toNat_unit {n : Nat} (h : n < 0x10000) : n.toUInt16.toNat = n := by
  rw [Nat.toUInt16_eq, UInt16.toNat_ofNat', Nat.mod_eq_of_lt h]

/-- The two units of a header hold the low parts of the counts and say which have a high part. -/
theorem Small.header_spec (s : Small) (units : Nat) :
    ∃ fields flags : UInt16, s.header units = [fields, flags] ∧
      fields.toNat / 0x1000 = s.registers % 16 ∧ fields.toNat / 0x100 % 16 = s.incoming % 16 ∧
      fields.toNat / 0x10 % 16 = s.outgoing % 16 ∧ fields.toNat % 16 = s.tries % 16 ∧
      flags.toNat >>> flagBits = units % unitsBound ∧
      flags.toNat.testBit registersFlag = decide (rest s.registers ≠ 0) ∧
      flags.toNat.testBit incomingFlag = decide (rest s.incoming ≠ 0) ∧
      flags.toNat.testBit outgoingFlag = decide (rest s.outgoing ≠ 0) ∧
      flags.toNat.testBit triesFlag = decide (rest s.tries ≠ 0) ∧
      flags.toNat.testBit unitsFlag = decide (units - units % unitsBound ≠ 0) := by
  refine ⟨_, _, rfl, ?_⟩
  rw [toNat_unit (by omega)]
  have hflags := flags_spec (units % unitsBound) (rest s.registers = 0) (rest s.incoming = 0)
    (rest s.outgoing = 0) (rest s.tries = 0) (units - units % unitsBound = 0) rfl
  have hlt : (units % unitsBound) <<< 5 + (flagBit (rest s.registers = 0) 0 +
      flagBit (rest s.incoming = 0) 1 + flagBit (rest s.outgoing = 0) 2 +
      flagBit (rest s.tries = 0) 3 + flagBit (units - units % unitsBound = 0) 4) < 0x10000 := by
    have hunits := Nat.mod_lt units (show 0 < unitsBound by decide)
    have hbit (p : Prop) [Decidable p] (flag : Nat) : flagBit p flag ≤ 2 ^ flag := by
      obtain ⟨b, hb, hlt, -⟩ := flagBit_eq p flag
      rw [hb]
      exact Nat.le_trans (Nat.mul_le_mul_right _ (by omega : b ≤ 1)) (by simp)
    have h0 := hbit (rest s.registers = 0) 0
    have h1 := hbit (rest s.incoming = 0) 1
    have h2 := hbit (rest s.outgoing = 0) 2
    have h3 := hbit (rest s.tries = 0) 3
    have h4 := hbit (units - units % unitsBound = 0) 4
    rw [Nat.shiftLeft_eq]
    unfold unitsBound at *
    omega
  rw [← toNat_unit hlt] at hflags
  refine ⟨by omega, by omega, by omega, by omega, hflags⟩

/-- The units that the writer puts before a header are taken one after another, and what is before
them is left. -/
theorem walk_eq {s : Small} {units : UInt32} {fields flags : UInt16} {pad : List UInt16}
    (hfits : s.registers < 0x10000 ∧ s.incoming < 0x10000 ∧ s.outgoing < 0x10000 ∧
      s.tries < 0x10000)
    (hheader : s.header units.toNat = [fields, flags])
    (h : Before bytes place (pad ++ s.extensions ++ unitsExtension units.toNat)) (cursor : Nat) :
    walk fields.toNat flags.toNat place bytes cursor =
      .ok (s, units, place - 2 * (s.extensions ++ unitsExtension units.toNat).length) cursor := by
  obtain ⟨hregisters, hincoming, houtgoing, htries⟩ := hfits
  obtain ⟨fields', flags', hunits, f1, f2, f3, f4, g0, g1, g2, g3, g4, g5⟩ :=
    s.header_spec units.toNat
  rw [hheader] at hunits
  obtain ⟨rfl, rfl⟩ : fields = fields' ∧ flags = flags' := by simpa using hunits
  obtain ⟨units_eq, h⟩ := extendedUnits_eq g5 h
  simp only [Small.extensions, ← List.append_assoc] at h
  obtain ⟨registers_eq, h⟩ := extended_eq hregisters g1 h
  obtain ⟨incoming_eq, h⟩ := extended_eq hincoming g2 h
  obtain ⟨outgoing_eq, h⟩ := extended_eq houtgoing g3 h
  obtain ⟨tries_eq, -⟩ := extended_eq htries g4 h
  rw [walk, g0, bind_of_ok (units_eq _)]
  dsimp only
  rw [f1, bind_of_ok (registers_eq _)]
  dsimp only
  rw [f2, bind_of_ok (incoming_eq _)]
  dsimp only
  rw [f3, bind_of_ok (outgoing_eq _)]
  dsimp only
  rw [f4, bind_of_ok (tries_eq _)]
  have hplace : place - 2 * (unitsExtension units.toNat).length -
      2 * (extension s.registers).length - 2 * (extension s.incoming).length -
      2 * (extension s.outgoing).length - 2 * (extension s.tries).length =
      place - 2 * (s.extensions ++ unitsExtension units.toNat).length := by
    simp only [Small.extensions, List.length_append]
    omega
  rw [hplace]
  rfl

/-- The counts of four bits, as the writer takes them from a header. -/
def small (h : CodeHeader) : Small :=
  ⟨h.registers.toNat - h.incoming.toNat, h.incoming.toNat, h.outgoing.toNat, h.tries⟩

variable {position : Nat} {hasTables : Bool} {h : CodeHeader} {front header : Bytes}

theorem encodeCompact_eq_ok_iff : h.encodeCompact position hasTables = .ok (front, header) ↔
    h.incoming ≤ h.registers ∧
      front = (h.small.front position hasTables h.units.toNat).flatMap Bytes.u2 ∧
      header = (h.small.header h.units.toNat).flatMap Bytes.u2 := by
  unfold encodeCompact
  rw [Result.violation_ite_eq_ok, UInt16.not_lt, Except.ok.injEq, Prod.mk.injEq, eq_comm,
    eq_comm (a := header)]
  rfl

theorem small_fits (ht : h.tries < 0x10000) : h.small.registers < 0x10000 ∧
    h.small.incoming < 0x10000 ∧ h.small.outgoing < 0x10000 ∧ h.small.tries < 0x10000 :=
  ⟨Nat.lt_of_le_of_lt (Nat.sub_le _ _) h.registers.toNat_lt, h.incoming.toNat_lt,
    h.outgoing.toNat_lt, ht⟩

/-- The compact header is read back from its place, with the units before it. -/
theorem decodeCompact_eq (he : h.encodeCompact position hasTables = .ok (front, header))
    (ht : h.tries < 0x10000) {start : Nat} (hs : (front ++ header).Stands bytes start) :
    decodeCompact bytes (start + front.length) =
      .ok { h with debugOffset := 0 } (start + front.length + header.length) := by
  obtain ⟨hle, rfl, rfl⟩ := encodeCompact_eq_ok_iff.mp he
  obtain ⟨fields, flags, hheader, -⟩ := h.small.header_spec h.units.toNat
  have hbefore : Before bytes
      (start + ((h.small.front position hasTables h.units.toNat).flatMap Bytes.u2).length)
      (h.small.front position hasTables h.units.toNat) :=
    ⟨start, by rw [Bytes.length_flatMap_u2], hs.left⟩
  have hwalk := walk_eq (small_fits ht) hheader hbefore
  have hright := hs.right
  rw [hheader] at hright ⊢
  rw [List.flatMap_cons, List.flatMap_singleton] at hright ⊢
  have hsum : h.small.registers + h.small.incoming = h.registers.toNat :=
    Nat.sub_add_cancel (UInt16.le_iff_toNat_le.mp hle)
  have hregisters := h.registers.toNat_lt
  have hincoming := h.incoming.toNat_lt
  have houtgoing := h.outgoing.toNat_lt
  unfold decodeCompact
  rw [position_bind, bind_of_ok (u2_reads fields hright.left),
    bind_of_ok (u2_reads flags hright.right), bind_of_ok (hwalk _)]
  dsimp only
  rw [hsum, if_neg (by simp only [small]; omega), List.length_append, ← Nat.add_assoc]
  simp [small]
  rfl

/-- What is written is a header that gives all counts back. The walk before it stays in what has been
written: wherever the bytes from some place of the front on stand, and whatever is before them and
behind them, it ends at that place with these counts. -/
theorem decodeCompact_encodeCompact (hle : h.incoming ≤ h.registers) (ht : h.tries ≤ 0xffff)
    (position : Nat) (hasTables : Bool) :
    ∃ front header, h.encodeCompact position hasTables = .ok (front, header) ∧
      ∀ (bytes : ByteArray) (start : Nat), (front ++ header).Stands bytes start →
        decodeCompact.decodeAt bytes (start + front.length) =
            .ok ({ h with debugOffset := 0 }, start + front.length + header.length) ∧
          ∃ (fields flags : UInt16) (left : Nat), header = Bytes.u2 fields ++ Bytes.u2 flags ∧
            start ≤ left ∧ ∀ (others : ByteArray) (cursor : Nat),
              Bytes.Stands (front.drop (left - start)) others left →
                walk fields.toNat flags.toNat (start + front.length) others cursor =
                  .ok (h.small, h.units, left) cursor := by
  have ht := Nat.lt_succ_of_le ht
  refine ⟨_, _, encodeCompact_eq_ok_iff.mpr ⟨hle, rfl, rfl⟩, fun bytes start hs => ?_⟩
  refine ⟨?_, ?_⟩
  · rw [Decoder.decodeAt, decodeCompact_eq (encodeCompact_eq_ok_iff.mpr ⟨hle, rfl, rfl⟩) ht hs]
  obtain ⟨fields, flags, hheader, -⟩ := h.small.header_spec h.units.toNat
  obtain ⟨pad, hfront⟩ : ∃ pad, h.small.front position hasTables h.units.toNat =
      pad ++ (h.small.extensions ++ unitsExtension h.units.toNat) := ⟨_, List.append_assoc _ _ _⟩
  -- The padding is never read: the reader does not know whether there is any.
  refine ⟨fields, flags, start + 2 * pad.length, by simp [hheader], Nat.le_add_right _ _,
    fun others cursor hothers => ?_⟩
  rw [hfront, List.flatMap_append, Nat.add_sub_cancel_left, ← Bytes.length_flatMap_u2 pad,
    List.drop_left, Bytes.length_flatMap_u2] at hothers
  rw [hfront, Bytes.length_flatMap_u2, List.length_append]
  have hbefore : Before others
      (start + 2 * (pad.length + (h.small.extensions ++ unitsExtension h.units.toNat).length))
      ([] ++ h.small.extensions ++ unitsExtension h.units.toNat) :=
    ⟨start + 2 * pad.length, by simp only [List.nil_append]; omega, hothers⟩
  rw [walk_eq (small_fits ht) hheader hbefore]
  congr 3
  omega

/-- Counts that all need units before the header. -/
def wide : CodeHeader :=
  { registers := 40, incoming := 20, outgoing := 17, tries := 20, units := 0x12345, debugOffset := 0 }

def wideFront : Bytes := [0, 0, 16, 0, 16, 0, 16, 0, 16, 0, 1, 0, 0, 0x20]

theorem decodeCompact_wide : wide.incoming ≤ wide.registers ∧ wide.tries ≤ 0xffff ∧
    wide.encodeCompact 2 true = .ok (wideFront, [0x14, 0x44, 0xbf, 0x68]) ∧
      decodeCompact.decodeAt (.mk (wideFront ++ [0x14, 0x44, 0xbf, 0x68]).toArray) 14 =
        .ok (wide, 18) := by
  have he : wide.encodeCompact 2 true = .ok (wideFront, [0x14, 0x44, 0xbf, 0x68]) := by decide
  obtain ⟨front, header, hfront, hread⟩ :=
    decodeCompact_encodeCompact (h := wide) (by decide) (by decide) 2 true
  obtain ⟨rfl, rfl⟩ := Prod.mk.inj (Except.ok.inj (hfront.symm.trans he))
  have hstands : Bytes.Stands (wideFront ++ [0x14, 0x44, 0xbf, 0x68])
      (.mk (wideFront ++ [0x14, 0x44, 0xbf, 0x68]).toArray) 0 := List.prefix_rfl
  exact ⟨by decide, by decide, he, (hread _ 0 hstands).1⟩

end Dalvik.CodeHeader
