import Dalvik.Proofs.Packed
import Dalvik.Proofs.Placement.Decoders

/-!
# The shortest payloads

What is written for a number is read back by the width that the byte in front tells, and whatever bytes
a reader finds, it does not get that number out of fewer of them. A payload bounds the number that is
read from it: integers lie in the range of so many bytes, and a pattern has zeros below its payload.
-/
namespace Dalvik.Packed
open Decoder

/-! ## What a payload can stand for -/

theorem ofBytes_lt (bytes : Bytes) : ofBytes bytes < 2 ^ (8 * bytes.length) := by
  induction bytes with
  | nil => simp [ofBytes]
  | cons b bytes ih =>
    have hb := b.toNat_lt
    rw [ofBytes_cons, List.length_cons, Nat.mul_succ, Nat.pow_add]
    omega

/-- A payload on top of zeros. -/
theorem pattern_lt {part : Bytes} (hl : part.length ≤ 8) :
    ofBytes part <<< (8 * (8 - part.length)) < 2 ^ 64 := by
  have hlt := ofBytes_lt part
  have hsplit : 2 ^ 64 = 2 ^ (8 * part.length) * 2 ^ (8 * (8 - part.length)) := by
    rw [← Nat.pow_add]
    congr 1
    omega
  rw [Nat.shiftLeft_eq, hsplit]
  exact Nat.mul_lt_mul_of_pos_right hlt (Nat.two_pow_pos _)

theorem ofSigned_bounds {bytes : Bytes} (h : 0 < bytes.length) :
    -2 ^ (8 * bytes.length) ≤ 2 * ofSigned bytes ∧ 2 * ofSigned bytes < 2 ^ (8 * bytes.length) := by
  have hlt := ofBytes_lt bytes
  have hp : 2 ^ (8 * bytes.length) = 2 * 2 ^ (8 * bytes.length - 1) := by
    rw [← Nat.pow_succ']
    congr 1
    omega
  have hz : (2 : Int) ^ (8 * bytes.length) = ((2 ^ (8 * bytes.length) : Nat) : Int) := by push_cast; rfl
  simp only [ofSigned, Nat.one_shiftLeft]
  rw [hz]
  generalize 2 ^ (8 * bytes.length) = whole at *
  split <;> omega

/-- As many bytes as before hold another number if one of them is another. -/
theorem ofBytes_inj {bytes bytes' : Bytes} (hl : bytes.length = bytes'.length)
    (h : ofBytes bytes = ofBytes bytes') : bytes = bytes' := by
  induction bytes generalizing bytes' with
  | nil => exact (List.length_eq_zero_iff.mp hl.symm).symm
  | cons b bytes ih =>
    cases bytes' with
    | nil => simp at hl
    | cons b' bytes' =>
      have hb := b.toNat_lt
      have hb' := b'.toNat_lt
      rw [ofBytes_cons, ofBytes_cons] at h
      have hhead : b = b' := UInt8.toNat_inj.mp (by omega)
      rw [hhead, ih (by simpa using hl) (by omega)]

theorem length_dropZeros_le (bytes : Bytes) : (dropZeros bytes).length ≤ bytes.length := by
  obtain ⟨k, hk⟩ := exists_replicate_dropZeros bytes
  have hlen := congrArg List.length hk
  rw [List.length_append] at hlen
  omega

/-- Zeros in front of something go. -/
theorem dropZeros_replicate (k : Nat) {bytes : Bytes} (h : bytes ≠ []) :
    dropZeros (List.replicate k 0 ++ bytes) = dropZeros bytes := by
  obtain ⟨b, rest, rfl⟩ := List.exists_cons_of_ne_nil h
  induction k with
  | zero => rfl
  | succ k ih =>
    cases k with
    | zero => simp [dropZeros]
    | succ k => rw [List.replicate_succ, List.replicate_succ, List.cons_append, List.cons_append,
        dropZeros, if_pos rfl, ← List.cons_append, ← List.replicate_succ, ih]

/-- A pattern that ends with zeros needs no more bytes than there are above them. -/
theorem length_rightExtended_le {bits : UInt64} {part : Bytes} (hp : 0 < part.length)
    (hl : part.length ≤ 8) (h : bits.toNat = ofBytes part <<< (8 * (8 - part.length))) :
    (rightExtended bits).length ≤ part.length := by
  have hbytes : Bytes.u8 bits = List.replicate (8 - part.length) 0 ++ part := by
    apply ofBytes_inj
    · rw [Bytes.length_u8, List.length_append, List.length_replicate]
      omega
    · rw [ofBytes_u8, ofBytes_replicate_zero, h]
  rw [rightExtended, hbytes, dropZeros_replicate _ (List.ne_nil_of_length_pos hp)]
  exact length_dropZeros_le part

theorem length_float_le (bits : UInt32) : (float bits).length ≤ 4 := by
  have hlow : (bits.toUInt64 <<< 32).toNat =
      ofBytes (Bytes.u4 bits) <<< (8 * (8 - (Bytes.u4 bits).length)) := by
    have hlt := bits.toNat_lt
    simp [ofBytes, Bytes.u4, Nat.shiftLeft_eq, Nat.shiftRight_eq_div_pow]
    omega
  exact length_rightExtended_le (by simp) (by simp) hlow

/-! ## Runs of the readers -/

variable {bytes : ByteArray} {index stop : Nat} {width : UInt8}

theorem payload_eq_ok {part : Bytes} (h : payload width bytes index = .ok part stop) :
    width.toNat ≤ 7 ∧ part.length = width.toNat + 1 ∧ stop = index + part.length := by
  unfold payload at h
  split at h
  · cases h
  next hw =>
    have hle : width.toNat ≤ 7 := by simpa [UInt8.lt_iff_toNat_lt] using hw
    obtain ⟨hlen, hstop⟩ := repeated_u1_eq_ok h
    exact ⟨hle, hlen, by rw [hlen, hstop]⟩

theorem readSigned_eq_ok {n : Int64} (h : readSigned width bytes index = .ok n stop) :
    index + (signed n.toInt).length ≤ stop := by
  obtain ⟨part, between, hpart, h⟩ := bind_eq_ok.mp h
  obtain ⟨rfl, rfl⟩ := pure_eq_ok.mp h
  obtain ⟨hw, hlen, rfl⟩ := payload_eq_ok hpart
  have hpos : 0 < part.length := by omega
  obtain ⟨hl, hu⟩ := ofSigned_bounds hpos
  have hpow : (2 : Int) ^ (8 * part.length) ≤ 2 ^ 64 :=
    pow_le_pow_right₀ (by decide) (by omega)
  have hn : (Int64.ofInt (ofSigned part)).toInt = ofSigned part :=
    Int64.toInt_ofInt_of_le (by omega) (by omega)
  rw [hn]
  exact Nat.add_le_add_left (length_signed_le (by omega) hl hu) index

theorem readUnsigned_eq_ok {n : UInt64} (h : readUnsigned width bytes index = .ok n stop) :
    index + (unsigned n.toNat).length ≤ stop := by
  obtain ⟨part, between, hpart, h⟩ := bind_eq_ok.mp h
  obtain ⟨rfl, rfl⟩ := pure_eq_ok.mp h
  obtain ⟨hw, hlen, rfl⟩ := payload_eq_ok hpart
  refine Nat.add_le_add_left (length_unsigned_le (by omega) ?_) index
  rw [UInt64.toNat_ofNat']
  exact Nat.lt_of_le_of_lt (Nat.mod_le _ _) (ofBytes_lt part)

/-- A reader of patterns puts the payload on top of zeros. -/
theorem exists_of_readRightExtended {bits : UInt64}
    (h : readRightExtended width bytes index = .ok bits stop) :
    ∃ part : Bytes, 0 < part.length ∧ part.length ≤ 8 ∧ stop = index + part.length ∧
      bits.toNat = ofBytes part <<< (8 * (8 - part.length)) := by
  obtain ⟨part, between, hpart, h⟩ := bind_eq_ok.mp h
  obtain ⟨rfl, rfl⟩ := pure_eq_ok.mp h
  obtain ⟨hw, hlen, rfl⟩ := payload_eq_ok hpart
  refine ⟨part, by omega, by omega, rfl, ?_⟩
  rw [show 7 - width.toNat = 8 - part.length by omega, UInt64.toNat_ofNat',
    Nat.mod_eq_of_lt (pattern_lt (by omega))]

theorem readRightExtended_eq_ok {bits : UInt64}
    (h : readRightExtended width bytes index = .ok bits stop) :
    index + (rightExtended bits).length ≤ stop := by
  obtain ⟨part, hpos, hle, rfl, hbits⟩ := exists_of_readRightExtended h
  exact Nat.add_le_add_left (length_rightExtended_le hpos hle hbits) index

/-- Fewer than four bytes leave the low half of the pattern empty, so that nothing is lost with it. -/
theorem readFloat_eq_ok {bits : UInt32} (h : readFloat width bytes index = .ok bits stop) :
    index + (float bits).length ≤ stop := by
  obtain ⟨whole, between, hwhole, h⟩ := bind_eq_ok.mp h
  obtain ⟨rfl, rfl⟩ := pure_eq_ok.mp h
  obtain ⟨part, hpos, hle, rfl, hbits⟩ := exists_of_readRightExtended hwhole
  refine Nat.add_le_add_left ?_ index
  by_cases hfour : 4 ≤ part.length
  · exact (length_float_le _).trans hfour
  · have hlow : whole.toNat % 2 ^ 32 = 0 := by
      rw [hbits, Nat.shiftLeft_eq, show 8 * (8 - part.length) = 8 * (4 - part.length) + 32 by omega,
        Nat.pow_add, ← Nat.mul_assoc]
      exact Nat.mul_mod_left _ _
    have hsame : (whole >>> 32).toUInt32.toUInt64 <<< 32 = whole := by
      apply UInt64.toNat_inj.mp
      have hlt := whole.toNat_lt
      simp [Nat.shiftLeft_eq, Nat.shiftRight_eq_div_pow]
      omega
    rw [float, hsame]
    exact length_rightExtended_le hpos hle hbits

/-! ## Numbers of every kind -/

/-- A number behind the byte that tells how many bytes it takes. -/
def behind {α : Type} (reader : UInt8 → Decoder α) : Decoder α := do
  reader ((← u1) >>> argShift)

/-- A payload of one to `most` bytes that is read back as a value, whatever kind of value stands in the
byte in front and whatever is around, and the shortest one that the reader can get that value from. -/
structure Shortest {α : Type} (reader : UInt8 → Decoder α) (most : Nat) (part : Bytes) (a : α) :
    Prop where
  length_pos : 1 ≤ part.length
  length_le : part.length ≤ most
  reads : ∀ type : UInt8, type < 0x20 → ∀ before after : Bytes,
    (behind reader).decodeAt (before ++ framed type part ++ after).toByteArray before.length =
      .ok (a, before.length + 1 + part.length)
  shortest : ∀ width bytes index stop, (reader width).decodeAt bytes index = .ok (a, stop) →
    index + part.length ≤ stop

theorem behind_reads {α : Type} {reader : UInt8 → Decoder α} {type : UInt8} {part : Bytes} {a : α}
    (ht : type < 0x20) (hp : 0 < part.length) (hl : part.length ≤ 8)
    (h : (reader (part.length - 1).toUInt8).Reads part a) :
    (behind reader).Reads (framed type part) a := by
  have ha : (part.length - 1).toUInt8.toNat < 8 := by
    rw [Nat.toUInt8_eq, UInt8.toNat_ofNat', Nat.mod_eq_of_lt (by omega)]
    omega
  refine u1_bind_reads ?_
  rwa [header_shiftRight (UInt8.lt_iff_toNat_lt.mp ht) ha]

/-- Two laws of a reader make a payload of at most eight bytes the shortest one. -/
theorem shortest_of {α : Type} {reader : UInt8 → Decoder α} {most : Nat} {part : Bytes} {a : α}
    (hp : 0 < part.length) (hl : part.length ≤ most) (hmost : most ≤ 8)
    (hreads : (reader (part.length - 1).toUInt8).Reads part a)
    (hleast : ∀ width bytes index stop, reader width bytes index = .ok a stop →
      index + part.length ≤ stop) : Shortest reader most part a where
  length_pos := hp
  length_le := hl
  reads type ht before after := by
    have hread := (behind_reads ht hp (hl.trans hmost) hreads).decodeAt
      (Bytes.stands_toByteArray before (framed type part) after)
    rw [hread, framed, List.length_cons, Nat.add_assoc, Nat.add_comm part.length]
  shortest width bytes index stop h := hleast width bytes index stop (decodeAt_eq_ok.mp h)

theorem shortest_signed (n : Int64) : Shortest readSigned 8 (signed n.toInt) n := by
  have hl := n.le_toInt
  have hu := n.toInt_lt
  exact shortest_of (length_signed_pos n.toInt)
    (length_signed_le (by decide) (by omega) (by omega)) (by decide) (readSigned_reads n)
    fun _ _ _ _ => readSigned_eq_ok

theorem shortest_unsigned (n : UInt64) : Shortest readUnsigned 8 (unsigned n.toNat) n :=
  shortest_of (length_unsigned_pos n.toNat) (length_unsigned_le (by decide) n.toNat_lt) (by decide)
    (readUnsigned_reads n) fun _ _ _ _ => readUnsigned_eq_ok

theorem shortest_rightExtended (bits : UInt64) :
    Shortest readRightExtended 8 (rightExtended bits) bits := by
  obtain ⟨hpos, hle, -⟩ := length_rightExtended bits
  exact shortest_of hpos hle (by decide) (readRightExtended_reads bits)
    fun _ _ _ _ => readRightExtended_eq_ok

theorem shortest_float (bits : UInt32) : Shortest readFloat 4 (float bits) bits := by
  obtain ⟨hpos, -, -⟩ := length_rightExtended (bits.toUInt64 <<< 32)
  exact shortest_of hpos (length_float_le bits) (by decide) (readFloat_reads bits)
    fun _ _ _ _ => readFloat_eq_ok

/-- Integers of 64 bits, signed or not, patterns of 64 bits, and floating-point numbers of both sizes
are read back from behind the byte that tells their width, bit by bit and up to the end of the payload.
The payload takes at most eight bytes, that of a float four, and no fewer bytes give the number, whichever
they are. -/
theorem payloads_shortest :
    (∀ n, Shortest readSigned 8 (signed n.toInt) n) ∧
      (∀ n, Shortest readUnsigned 8 (unsigned n.toNat) n) ∧
      (∀ bits, Shortest readRightExtended 8 (rightExtended bits) bits) ∧
      (∀ bits, Shortest readFloat 4 (float bits) bits) ∧
      ∀ bits, Shortest readDouble 8 (double bits) bits :=
  ⟨shortest_signed, shortest_unsigned, shortest_rightExtended, shortest_float,
    shortest_rightExtended⟩

end Dalvik.Packed
