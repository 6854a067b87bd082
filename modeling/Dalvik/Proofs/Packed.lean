import Dalvik.Packed
import Dalvik.Proofs.Reads

/-!
# Packed numbers are read back

The payload of a number takes at most eight bytes, the byte in front tells how many, and the
extension rule of the reader undoes what the writer left out.
-/
namespace Dalvik.Packed

/-! ## The byte in front -/

theorem header_and {type argument : UInt8} (ht : type.toNat < 32) (ha : argument.toNat < 8) :
    header type argument &&& 0x1f = type := by
  have h : ∀ t < 32, ∀ a < 8,
      header (UInt8.ofNat t) (UInt8.ofNat a) &&& 0x1f = UInt8.ofNat t := by decide
  simpa using h _ ht _ ha

theorem header_shiftRight {type argument : UInt8} (ht : type.toNat < 32) (ha : argument.toNat < 8) :
    header type argument >>> argShift = argument := by
  have h : ∀ t < 32, ∀ a < 8,
      header (UInt8.ofNat t) (UInt8.ofNat a) >>> argShift = UInt8.ofNat a := by decide
  simpa using h _ ht _ ha

/-! ## The number of a payload -/

theorem ofBytes_cons (b : UInt8) (bytes : Bytes) :
    ofBytes (b :: bytes) = b.toNat + 256 * ofBytes bytes := rfl

theorem ofBytes_unsigned (n : Nat) : ofBytes (unsigned n) = n := by
  induction n using unsigned.induct with
  | case1 n h =>
    rw [unsigned, if_pos h]
    simpa [ofBytes] using h
  | case2 n h ih =>
    rw [unsigned, if_neg h, ofBytes_cons, ih, Nat.toUInt8_eq, UInt8.toNat_ofNat']
    omega

theorem length_unsigned_pos (n : Nat) : 0 < (unsigned n).length := by
  rw [unsigned]
  split <;> simp

theorem length_unsigned_le {n k : Nat} (hk : 0 < k) (hn : n < 2 ^ (8 * k)) :
    (unsigned n).length ≤ k := by
  induction n using unsigned.induct generalizing k with
  | case1 n h =>
    rw [unsigned, if_pos h]
    exact hk
  | case2 n h ih =>
    obtain _ | _ | k := k
    · omega
    · omega
    · have hp : 2 ^ (8 * (k + 1 + 1)) = 2 ^ (8 * (k + 1)) * 256 := by
        rw [show 8 * (k + 1 + 1) = 8 * (k + 1) + 8 by omega, Nat.pow_add]
      have := ih (k := k + 1) (by omega) (by omega)
      rw [unsigned, if_neg h, List.length_cons]
      omega

theorem length_signed_pos (n : Int) : 0 < (signed n).length := by
  rw [signed]
  split <;> simp

/-- The payload of a signed number is its two's complement form, in which the number fits. -/
theorem ofBytes_signed (n : Int) :
    (ofBytes (signed n) : Int) = (if 0 ≤ n then n else n + 2 ^ (8 * (signed n).length)) ∧
      -2 ^ (8 * (signed n).length) ≤ 2 * n ∧ 2 * n < 2 ^ (8 * (signed n).length) := by
  induction n using signed.induct with
  | case1 n h =>
    have hb : ((n % 256).toNat.toUInt8.toNat : Int) = n % 256 := by
      rw [Nat.toUInt8_eq, UInt8.toNat_ofNat']
      omega
    rw [signed, if_pos h]
    simp only [ofBytes, List.foldr_cons, List.foldr_nil, List.length_singleton]
    omega
  | case2 n h ih =>
    have hb : ((n % 256).toNat.toUInt8.toNat : Int) = n % 256 := by
      rw [Nat.toUInt8_eq, UInt8.toNat_ofNat']
      omega
    obtain ⟨hv, hl, hu⟩ := ih
    rw [signed, if_neg h]
    rw [ofBytes_cons, List.length_cons, Int.natCast_add, Int.natCast_mul, hv, hb]
    rw [show 8 * ((signed (n / 256)).length + 1) = 8 * (signed (n / 256)).length + 8 by omega,
      Int.pow_add]
    have heven : (2 : Int) ^ (8 * (signed (n / 256)).length) =
        2 ^ (8 * (signed (n / 256)).length - 1) * 2 := by
      have := length_signed_pos (n / 256)
      rw [← Int.pow_succ]
      congr 1
      omega
    generalize (2 : Int) ^ (8 * (signed (n / 256)).length) = m at *
    refine ⟨?_, by omega, by omega⟩
    by_cases hn : 0 ≤ n
    · rw [if_pos hn, if_pos (by omega)]
      omega
    · rw [if_neg hn, if_neg (by omega)]
      omega

theorem length_signed_le {n : Int} {k : Nat} (hk : 0 < k) (hl : -2 ^ (8 * k) ≤ 2 * n)
    (hu : 2 * n < 2 ^ (8 * k)) : (signed n).length ≤ k := by
  induction n using signed.induct generalizing k with
  | case1 n h =>
    rw [signed, if_pos h]
    exact hk
  | case2 n h ih =>
    obtain _ | _ | k := k
    · omega
    · omega
    · have hp : (2 : Int) ^ (8 * (k + 1 + 1)) = 2 ^ (8 * (k + 1)) * 256 := by
        rw [show 8 * (k + 1 + 1) = 8 * (k + 1) + 8 by omega, Int.pow_add]
        rfl
      have he : (2 : Int) ^ (8 * (k + 1)) = 2 ^ (8 * k + 7) * 2 := by
        rw [← Int.pow_succ]
        rfl
      have := ih (k := k + 1) (by omega) (by omega) (by omega)
      rw [signed, if_neg h, List.length_cons]
      omega

theorem ofSigned_signed (n : Int) : ofSigned (signed n) = n := by
  obtain ⟨hv, hl, hu⟩ := ofBytes_signed n
  have hpos := length_signed_pos n
  have hp : 2 ^ (8 * (signed n).length) = 2 * 2 ^ (8 * (signed n).length - 1) := by
    rw [← Nat.pow_succ']
    congr 1
    omega
  have hz : (2 : Int) ^ (8 * (signed n).length) = 2 * ((2 ^ (8 * (signed n).length - 1) : Nat) : Int) := by
    exact_mod_cast hp
  simp only [ofSigned, Nat.one_shiftLeft]
  rw [hz] at hv hl hu
  rw [hp]
  generalize 2 ^ (8 * (signed n).length - 1) = m at *
  by_cases hn : 0 ≤ n
  · rw [if_pos hn] at hv
    rw [if_pos (by omega), hv]
  · rw [if_neg hn] at hv
    rw [if_neg (by omega), hv]
    omega

/-! ## Numbers without their low zeros -/

theorem dropZeros_ne_nil {bytes : Bytes} (h : bytes ≠ []) : dropZeros bytes ≠ [] := by
  fun_induction dropZeros bytes with
  | case1 => exact h
  | case2 => simp
  | case3 c rest ih => exact ih (by simp)
  | case4 => simp

theorem exists_replicate_dropZeros (bytes : Bytes) :
    ∃ k, bytes = List.replicate k 0 ++ dropZeros bytes := by
  fun_induction dropZeros bytes with
  | case1 => exact ⟨0, rfl⟩
  | case2 b => exact ⟨0, rfl⟩
  | case3 c rest ih =>
    obtain ⟨k, hk⟩ := ih
    exact ⟨k + 1, by rw [List.replicate_succ, List.cons_append, ← hk]⟩
  | case4 b c rest hb => exact ⟨0, rfl⟩

theorem ofBytes_replicate_zero (k : Nat) (bytes : Bytes) :
    ofBytes (List.replicate k 0 ++ bytes) = ofBytes bytes <<< (8 * k) := by
  induction k with
  | zero => simp
  | succ k ih =>
    rw [List.replicate_succ, List.cons_append, ofBytes_cons, ih, Nat.shiftLeft_eq, Nat.shiftLeft_eq,
      show 8 * (k + 1) = 8 * k + 8 by omega, Nat.pow_add]
    simp only [UInt8.toNat_zero]
    ring

theorem ofBytes_u8 (v : UInt64) : ofBytes (Bytes.u8 v) = v.toNat := by
  have := v.toNat_lt
  simp [ofBytes, Bytes.u8, Bytes.u4, Nat.shiftRight_eq_div_pow]
  omega

theorem ofBytes_take (bytes : Bytes) (k : Nat) :
    ofBytes (bytes.take k) = ofBytes bytes % 2 ^ (8 * k) := by
  induction bytes generalizing k with
  | nil => simp [ofBytes]
  | cons b bytes ih =>
    cases k with
    | zero => simp [ofBytes, Nat.mod_one]
    | succ k =>
      have hb := b.toNat_lt
      have hmod : (b.toNat + 256 * ofBytes bytes) % 256 = b.toNat := by omega
      have hdiv : (b.toNat + 256 * ofBytes bytes) / 256 = ofBytes bytes := by omega
      rw [List.take_succ_cons, ofBytes_cons, ofBytes_cons, ih,
        show 8 * (k + 1) = 8 + 8 * k by omega, Nat.pow_add, Nat.mod_mul, hmod, hdiv]

theorem length_rightExtended (bits : UInt64) :
    0 < (rightExtended bits).length ∧ (rightExtended bits).length ≤ 8 ∧
      ofBytes (rightExtended bits) <<< (8 * (8 - (rightExtended bits).length)) = bits.toNat := by
  have hne : dropZeros (Bytes.u8 bits) ≠ [] := dropZeros_ne_nil (by simp [Bytes.u8, Bytes.u4])
  obtain ⟨k, hk⟩ := exists_replicate_dropZeros (Bytes.u8 bits)
  have hlen := congrArg List.length hk
  simp only [Bytes.length_u8, List.length_append, List.length_replicate] at hlen
  refine ⟨List.length_pos_of_ne_nil hne, by rw [rightExtended]; omega, ?_⟩
  rw [rightExtended, show 8 - (dropZeros (Bytes.u8 bits)).length = k by omega,
    ← ofBytes_replicate_zero, ← hk, ofBytes_u8]

/-! ## At a cursor -/

open Decoder

theorem payload_reads {part : Bytes} (hp : 0 < part.length) (hl : part.length ≤ 8) :
    (payload (part.length - 1).toUInt8).Reads part part := by
  have hw : (part.length - 1).toUInt8.toNat = part.length - 1 := by
    rw [Nat.toUInt8_eq, UInt8.toNat_ofNat', Nat.mod_eq_of_lt (by omega)]
  have hok : ¬ 7 < (part.length - 1).toUInt8 := by
    rw [UInt8.lt_iff_toNat_lt, hw]
    simp only [UInt8.toNat_ofNat]
    omega
  have h := Reads.repeated_map (d := u1) Bytes.u1 id part fun b _ => u1_reads b
  rw [payload, if_neg hok, hw, Nat.sub_add_cancel hp]
  rwa [show part.flatMap Bytes.u1 = part from List.flatMap_singleton' part, List.map_id] at h

theorem readSigned_reads (n : Int64) :
    (readSigned ((signed n.toInt).length - 1).toUInt8).Reads (signed n.toInt) n := by
  have hl := n.le_toInt
  have hu := n.toInt_lt
  have hlen : (signed n.toInt).length ≤ 8 := length_signed_le (by omega) (by omega) (by omega)
  have h : (readSigned _).Reads (signed n.toInt) (Int64.ofInt (ofSigned (signed n.toInt))) :=
    (payload_reads (length_signed_pos n.toInt) hlen).map
  rwa [ofSigned_signed, Int64.ofInt_toInt] at h

theorem readUnsigned_reads (n : UInt64) :
    (readUnsigned ((unsigned n.toNat).length - 1).toUInt8).Reads (unsigned n.toNat) n := by
  have hn := n.toNat_lt
  have hlen : (unsigned n.toNat).length ≤ 8 := length_unsigned_le (by omega) (by omega)
  have h : (readUnsigned _).Reads (unsigned n.toNat) (UInt64.ofNat (ofBytes (unsigned n.toNat))) :=
    (payload_reads (length_unsigned_pos n.toNat) hlen).map
  rwa [ofBytes_unsigned, UInt64.ofNat_toNat] at h

/-- Any payload is read as the pattern that has it on top. -/
theorem readRightExtended_part_reads {part : Bytes} (hp : 0 < part.length) (hl : part.length ≤ 8) :
    (readRightExtended (part.length - 1).toUInt8).Reads part
      (UInt64.ofNat (ofBytes part <<< (8 * (8 - part.length)))) := by
  have hw : (part.length - 1).toUInt8.toNat = part.length - 1 := by
    rw [Nat.toUInt8_eq, UInt8.toNat_ofNat', Nat.mod_eq_of_lt (by omega)]
  have h : (readRightExtended _).Reads part
      (UInt64.ofNat (ofBytes part <<< (8 * (7 - (part.length - 1).toUInt8.toNat)))) :=
    (payload_reads hp hl).map
  rwa [hw, show 7 - (part.length - 1) = 8 - part.length by omega] at h

theorem readRightExtended_reads (bits : UInt64) :
    (readRightExtended ((rightExtended bits).length - 1).toUInt8).Reads (rightExtended bits)
      bits := by
  obtain ⟨hpos, hlen, hv⟩ := length_rightExtended bits
  have h := readRightExtended_part_reads hpos hlen
  rwa [hv, UInt64.ofNat_toNat] at h

theorem readFloat_reads (bits : UInt32) :
    (readFloat ((float bits).length - 1).toUInt8).Reads (float bits) bits := by
  have h : (readFloat _).Reads (float bits) ((bits.toUInt64 <<< 32) >>> 32).toUInt32 :=
    (readRightExtended_reads (bits.toUInt64 <<< 32)).map
  have hb : ((bits.toUInt64 <<< 32) >>> 32).toUInt32 = bits := by
    apply UInt32.toNat_inj.mp
    have := bits.toNat_lt
    simp [Nat.shiftLeft_eq, Nat.shiftRight_eq_div_pow]
    omega
  rwa [hb] at h

theorem readDouble_reads (bits : UInt64) :
    (readDouble ((double bits).length - 1).toUInt8).Reads (double bits) bits :=
  readRightExtended_reads bits

end Dalvik.Packed
