import Dalvik.Proofs.Leb128.Groups
import Dalvik.Proofs.Reads
import Dalvik.Proofs.Result

/-!
# LEB128 numbers are read back

Decoding finds the number of the groups up to the first byte that does not continue. Encoding gives
the groups of a number, so what is written for a number of 64 bits is read as that number, and
reading stops behind it.
-/
namespace Dalvik.Leb128
variable {b : UInt8} {groups bytes : Bytes} {count k n : Nat} {value : UInt64}

/-! ## Decoding -/

theorem Ended.ne_nil (h : Ended groups) : groups ≠ [] := by
  cases h <;> exact List.cons_ne_nil _ _

theorem Ended.length_pos (h : Ended groups) : 0 < groups.length := List.length_pos_of_ne_nil h.ne_nil

theorem Ended.exists_cons (h : Ended groups) (hfront : groups <+: b :: bytes) :
    ∃ rest, groups = b :: rest := by
  obtain ⟨a, rest, rfl⟩ := List.exists_cons_of_ne_nil h.ne_nil
  exact ⟨rest, by rw [(List.cons_prefix_cons.mp hfront).1]⟩

section
variable {P : Bytes → Prop}

theorem not_exists_ended_nil : ¬ ∃ groups, Ended groups ∧ groups <+: [] ∧ P groups := by
  rintro ⟨groups, hended, hfront, -⟩
  exact hended.ne_nil (List.prefix_nil.mp hfront)

/-- Behind the greatest number of groups there is no place for another one. -/
theorem not_exists_ended_of_le (hcount : maxLength ≤ count) :
    ¬ ∃ groups, Ended groups ∧ groups <+: bytes ∧ n = count + groups.length ∧ n ≤ maxLength ∧
      P groups := by
  rintro ⟨groups, hended, -, rfl, hle, -⟩
  have := hended.length_pos
  omega

/-- The bytes of a number end with the first one that does not continue. -/
theorem exists_ended_last (h : continues b = false) :
    (∃ groups, Ended groups ∧ groups <+: b :: bytes ∧ P groups) ↔ P [b] := by
  constructor
  · rintro ⟨groups, hended, hfront, hp⟩
    obtain ⟨rest, rfl⟩ := hended.exists_cons hfront
    cases hended with
    | last => exact hp
    | more hmore => cases h.symm.trans hmore
  · intro hp
    exact ⟨[b], .last h, List.prefix_append [b] bytes, hp⟩

theorem exists_ended_more (h : continues b = true) :
    (∃ groups, Ended groups ∧ groups <+: b :: bytes ∧ P groups) ↔
      ∃ groups, Ended groups ∧ groups <+: bytes ∧ P (b :: groups) := by
  constructor
  · rintro ⟨groups, hended, hfront, hp⟩
    obtain ⟨rest, rfl⟩ := hended.exists_cons hfront
    cases hended with
    | last hlast => cases h.symm.trans hlast
    | more _ hrest => exact ⟨rest, hrest, (List.cons_prefix_cons.mp hfront).2, hp⟩
  · rintro ⟨groups, hended, hfront, hp⟩
    exact ⟨b :: groups, .more h hended, List.cons_prefix_cons.mpr ⟨rfl, hfront⟩, hp⟩

end

theorem decodeUnsignedFrom_eq_ok_iff {v : UInt64} (hv : value.toNat < 2 ^ (7 * count)) :
    decodeUnsignedFrom count value bytes = .ok (v, n) ↔
      ∃ groups, Ended groups ∧ groups <+: bytes ∧ n = count + groups.length ∧ n ≤ maxLength ∧
        v.toNat = value.toNat + 2 ^ (7 * count) * number groups := by
  induction bytes generalizing count value with
  | nil => exact iff_of_false nofun not_exists_ended_nil
  | cons b bytes ih =>
    rw [decodeUnsignedFrom]
    split
    next hcount => exact iff_of_false nofun (not_exists_ended_of_le hcount)
    next hcount =>
      have hc : count ≤ 9 := Nat.le_of_lt_succ (Nat.lt_of_not_le hcount)
      split
      next hover =>
        -- the first group alone is too much
        refine iff_of_false (fun h => nomatch h) ?_
        rintro ⟨groups, hended, hfront, -, -, hsum⟩
        obtain ⟨rest, rfl⟩ := hended.exists_cons hfront
        have := (overflow_iff hc hv).mp hover
        have := v.toNat_lt
        rw [number, Nat.mul_add] at hsum
        omega
      next hfit =>
        rw [overflow_iff hc hv, Nat.not_le] at hfit
        have hword := toNat_addGroup b hc hv
        rw [Nat.mod_eq_of_lt hfit] at hword
        cases hmore : continues b with
        | true =>
          rw [exists_ended_more hmore, if_pos rfl, ih (addGroup_lt b hc hv), hword, pow_succ_groups]
          simp only [number, List.length_cons, Nat.mul_add, Nat.mul_assoc, Nat.add_assoc,
            Nat.add_comm 1]
        | false =>
          rw [exists_ended_last hmore, if_neg Bool.false_ne_true, Except.ok.injEq, Prod.mk.injEq,
            ← UInt64.toNat_inj, hword]
          simp only [number, List.length_singleton, Nat.mul_zero, Nat.add_zero]
          constructor
          · rintro ⟨hsum, rfl⟩
            exact ⟨rfl, Nat.lt_of_not_le hcount, hsum.symm⟩
          · rintro ⟨rfl, -, hsum⟩
            exact ⟨hsum.symm, rfl⟩

/-- Decoding finds the sum of the groups up to the first byte that does not continue, if there are at
most ten of them and the sum is a number of 64 bits. -/
theorem decodeUnsigned_eq_ok_iff {v : UInt64} :
    decodeUnsigned bytes = .ok (v, n) ↔
      ∃ groups, Ended groups ∧ groups <+: bytes ∧ n = groups.length ∧ n ≤ maxLength ∧
        v.toNat = number groups := by
  rw [decodeUnsigned, decodeUnsignedFrom_eq_ok_iff (by decide)]
  simp

theorem bmod_toNat_addGroup (b : UInt8) (x : Int) (hc : count ≤ 9)
    (hv : value.toNat < 2 ^ (7 * count)) :
    ((addGroup count value b).toNat + x).bmod (2 ^ 64) =
      (value.toNat + 2 ^ (7 * count) * (group b).toNat + x).bmod (2 ^ 64) := by
  rw [toNat_addGroup b hc hv, Int.natCast_mod, Int.emod_add_bmod]
  push_cast
  rfl

/-- With the sign extended the word is right up to multiples of 2^64: bits of the tenth group that fall
off, the sign among them, weigh as much or more. -/
theorem toInt_extendSign (hc : count ≤ 9) (hv : value.toNat < 2 ^ (7 * count)) :
    (extendSign (count + 1) (addGroup count value b) b).toInt64.toInt =
      (value.toNat + 2 ^ (7 * count) * signedNumber [b]).bmod (2 ^ 64) := by
  rw [toInt_toInt64, signedNumber_last, extendSign]
  split
  next h =>
    obtain ⟨hsign, hroom⟩ := h
    rw [toNat_or_shiftLeft _ hroom (addGroup_lt b hc hv), Int.natCast_mod, Int.emod_bmod,
      Int.natCast_add, bmod_toNat_addGroup b _ hc hv, if_pos hsign, pow_succ_groups,
      show (-1 : UInt64).toNat = 2 ^ 64 - 1 from rfl]
    have hshift : (value.toNat : Int) + 2 ^ (7 * count) * (group b).toNat +
        (2 ^ (7 * count) * 2 ^ 7 * (2 ^ 64 - 1) : Nat) =
        value.toNat + 2 ^ (7 * count) * ((group b).toNat - 2 ^ 7) +
          2 ^ (7 * count) * 2 ^ 7 * (2 ^ 64 : Nat) := by
      push_cast
      ring
    rw [hshift, Int.add_mul_bmod_self_right]
  next h =>
    have hword := bmod_toNat_addGroup b 0 hc hv
    rw [Int.add_zero, Int.add_zero] at hword
    rw [hword]
    by_cases hsign : b &&& 0x40 ≠ 0
    · -- the sign of the tenth group is a multiple of 2^64
      obtain rfl : count = 9 := by
        have : ¬ 7 * (count + 1) < 64 := fun hroom => h ⟨hsign, hroom⟩
        omega
      have hshift : (value.toNat : Int) + 2 ^ (7 * 9) * (group b).toNat =
          value.toNat + 2 ^ (7 * 9) * ((group b).toNat - 2 ^ 7) + 2 ^ 6 * (2 ^ 64 : Nat) := by
        push_cast
        ring
      rw [if_pos hsign, hshift, Int.add_mul_bmod_self_right]
    · rw [if_neg hsign, Int.sub_zero]

theorem decodeSignedFrom_eq_ok_iff {v : Int64} (hv : value.toNat < 2 ^ (7 * count)) :
    decodeSignedFrom count value bytes = .ok (v, n) ↔
      ∃ groups, Ended groups ∧ groups <+: bytes ∧ n = count + groups.length ∧ n ≤ maxLength ∧
        v.toInt = (value.toNat + 2 ^ (7 * count) * signedNumber groups).bmod (2 ^ 64) := by
  induction bytes generalizing count value with
  | nil => exact iff_of_false nofun not_exists_ended_nil
  | cons b bytes ih =>
    rw [decodeSignedFrom]
    split
    next hcount => exact iff_of_false nofun (not_exists_ended_of_le hcount)
    next hcount =>
      have hc : count ≤ 9 := Nat.le_of_lt_succ (Nat.lt_of_not_le hcount)
      cases hmore : continues b with
      | true =>
        rw [exists_ended_more hmore, if_pos rfl, ih (addGroup_lt b hc hv)]
        refine exists_congr fun groups => and_congr_right fun hended => ?_
        rw [signedNumber_cons b hended.ne_nil, bmod_toNat_addGroup b _ hc hv, List.length_cons,
          Nat.add_assoc, Nat.add_comm 1, Int.mul_add, ← Int.mul_assoc, ← Int.add_assoc]
        have hpow : (2 : Int) ^ (7 * (count + 1)) = 2 ^ (7 * count) * 2 ^ 7 :=
          congrArg Nat.cast (pow_succ_groups count)
        rw [hpow]
      | false =>
        rw [exists_ended_last hmore, if_neg Bool.false_ne_true, Except.ok.injEq, Prod.mk.injEq,
          ← Int64.toInt_inj, toInt_extendSign hc hv, List.length_singleton]
        constructor
        · rintro ⟨hsum, rfl⟩
          exact ⟨rfl, Nat.lt_of_not_le hcount, hsum.symm⟩
        · rintro ⟨rfl, -, hsum⟩
          exact ⟨hsum.symm, rfl⟩

/-- Decoding finds the two's complement number of the groups up to the first byte that does not
continue, if there are at most ten of them, but only modulo 2^64. -/
theorem decodeSigned_eq_ok_iff {v : Int64} :
    decodeSigned bytes = .ok (v, n) ↔
      ∃ groups, Ended groups ∧ groups <+: bytes ∧ n = groups.length ∧ n ≤ maxLength ∧
        v.toInt = (signedNumber groups).bmod (2 ^ 64) := by
  rw [decodeSigned, decodeSignedFrom_eq_ok_iff (by decide)]
  simp

/-! ## Encoding -/

theorem not_continues_of_lt (h : b.toNat < 128) : continues b = false := by
  rw [← Bool.not_eq_true, continues_iff]
  omega

theorem continues_or_80 (h : b.toNat < 128) : continues (b ||| 0x80) = true := by
  rw [continues_iff, toNat_or_80 h]
  omega

theorem toNat_group_or_80 (h : b.toNat < 128) : (group (b ||| 0x80)).toNat = b.toNat := by
  rw [toNat_group, toNat_or_80 h]
  omega

theorem low_lt (n : UInt64) : (n &&& 0x7F).toUInt8.toNat < 128 := by
  rw [toNat_low]
  omega

theorem ended_encodeUnsigned (n : UInt64) : Ended (encodeUnsigned n) := by
  fun_induction encodeUnsigned n with
  | case1 n low h => exact .last (not_continues_of_lt (low_lt n))
  | case2 n low h ih => exact .more (continues_or_80 (low_lt n)) ih

theorem number_encodeUnsigned (n : UInt64) : number (encodeUnsigned n) = n.toNat := by
  fun_induction encodeUnsigned n with
  | case1 n low h =>
    have hlow : low.toNat = n.toNat % 128 := toNat_low n
    have hrest := toNat_shiftRight7 n
    rw [h, show (0 : UInt64).toNat = 0 from rfl] at hrest
    rw [number, number, toNat_group]
    omega
  | case2 n low h ih =>
    have hlow := toNat_low n
    rw [number, toNat_group_or_80 (low_lt n), ih, toNat_shiftRight7]
    omega

/-- A number of `k` groups takes no more than `k` bytes. -/
theorem length_encodeUnsigned_le {n : UInt64} (hk : 0 < k) (hn : n.toNat < 2 ^ (7 * k)) :
    (encodeUnsigned n).length ≤ k := by
  induction k generalizing n with
  | zero => cases hk
  | succ k ih =>
    rw [encodeUnsigned]
    split
    next => exact Nat.le_add_left 1 k
    next h =>
      have hrest := toNat_shiftRight7 n
      have hne : (n >>> 7).toNat ≠ 0 := fun heq => h (UInt64.toNat_inj.mp heq)
      rw [pow_succ_groups] at hn
      have hpos : 0 < k := by
        rcases Nat.eq_zero_or_pos k with rfl | hpos
        · omega
        · exact hpos
      exact Nat.succ_le_succ (ih hpos (by omega))

theorem signedLow_lt (n : Int64) : (n &&& 0x7F).toUInt64.toUInt8.toNat < 128 := by
  have := toNat_signedLow n
  omega

/-- The number whose bits above the low seven are all alike. -/
theorem stops_iff {n : Int64} {low : UInt8} (hlow : (low.toNat : Int) = n.toInt % 128) :
    n >>> 7 = 0 ∧ low &&& 0x40 = 0 ∨ n >>> 7 = -1 ∧ low &&& 0x40 ≠ 0 ↔
      -64 ≤ n.toInt ∧ n.toInt < 64 := by
  have hrest := toInt_shiftRight7 n
  rw [← Int64.toInt_inj, ← Int64.toInt_inj, hrest, show (0 : Int64).toInt = 0 from rfl,
    show (-1 : Int64).toInt = -1 from rfl, sign_iff,
    show low &&& 0x40 = 0 ↔ ¬ 64 ≤ low.toNat % 128 from not_iff_not.mp (by rw [← sign_iff, not_not])]
  omega

theorem ended_encodeSigned (n : Int64) : Ended (encodeSigned n) := by
  fun_induction encodeSigned n with
  | case1 n low h => exact .last (not_continues_of_lt (signedLow_lt n))
  | case2 n low h ih => exact .more (continues_or_80 (signedLow_lt n)) ih

theorem signedNumber_encodeSigned (n : Int64) : signedNumber (encodeSigned n) = n.toInt := by
  fun_induction encodeSigned n with
  | case1 n low h =>
    have hlow : (low.toNat : Int) = n.toInt % 128 := toNat_signedLow n
    rw [stops_iff hlow] at h
    rw [signedNumber_last, toNat_group]
    simp only [sign_iff]
    split <;> omega
  | case2 n low h ih =>
    have hlow := toNat_signedLow n
    rw [signedNumber_cons _ (ended_encodeSigned _).ne_nil, toNat_group_or_80 (signedLow_lt n), ih,
      toInt_shiftRight7]
    omega

theorem length_encodeSigned_le {n : Int64} (hk : 0 < k) (hl : -2 ^ (7 * k) ≤ 2 * n.toInt)
    (hu : 2 * n.toInt < 2 ^ (7 * k)) : (encodeSigned n).length ≤ k := by
  induction k generalizing n with
  | zero => cases hk
  | succ k ih =>
    rw [encodeSigned]
    split
    next => exact Nat.le_add_left 1 k
    next h =>
      rw [stops_iff (toNat_signedLow n)] at h
      have hrest := toInt_shiftRight7 n
      have hpow : (2 : Int) ^ (7 * (k + 1)) = 2 ^ (7 * k) * 2 ^ 7 :=
        congrArg Nat.cast (pow_succ_groups k)
      rw [hpow] at hl hu
      obtain ⟨k, rfl⟩ : ∃ j, k = j + 1 := by
        refine Nat.exists_eq_succ_of_ne_zero ?_
        rintro rfl
        omega
      have heven : (2 : Int) ^ (7 * (k + 1)) = 2 ^ (7 * k) * 2 ^ 7 :=
        congrArg Nat.cast (pow_succ_groups k)
      rw [heven] at hl hu
      refine Nat.succ_le_succ (ih (Nat.succ_pos k) ?_ ?_) <;> rw [heven] <;> omega

/-! ## Reading back -/

theorem length_encodeUnsigned_le_max (n : UInt64) : (encodeUnsigned n).length ≤ maxLength :=
  length_encodeUnsigned_le (by decide) (Nat.lt_trans n.toNat_lt (by decide))

theorem length_encodeSigned_le_max (n : Int64) : (encodeSigned n).length ≤ maxLength := by
  have hl := n.le_toInt
  have hu := n.toInt_lt
  refine length_encodeSigned_le (by decide) ?_ ?_ <;> simp only [maxLength] <;> omega

theorem decodeUnsigned_encodeUnsigned (n : UInt64) (rest : Bytes) :
    decodeUnsigned (encodeUnsigned n ++ rest) = .ok (n, (encodeUnsigned n).length) :=
  decodeUnsigned_eq_ok_iff.mpr ⟨encodeUnsigned n, ended_encodeUnsigned n, List.prefix_append _ _, rfl,
    length_encodeUnsigned_le_max n, (number_encodeUnsigned n).symm⟩

theorem decodeSigned_encodeSigned (n : Int64) (rest : Bytes) :
    decodeSigned (encodeSigned n ++ rest) = .ok (n, (encodeSigned n).length) := by
  refine decodeSigned_eq_ok_iff.mpr ⟨encodeSigned n, ended_encodeSigned n, List.prefix_append _ _, rfl,
    length_encodeSigned_le_max n, ?_⟩
  rw [signedNumber_encodeSigned]
  exact n.toInt_bmod.symm

theorem decodePlusOne_eq_ok_iff {p : Int32} :
    decodePlusOne bytes = .ok (p, n) ↔
      ∃ v, decodeUnsigned bytes = .ok (v, n) ∧ v.toUInt32 = p.toUInt32 + 1 := by
  rw [decodePlusOne, Result.bind_eq_ok]
  constructor
  · rintro ⟨⟨v, m⟩, hv, h⟩
    cases h
    exact ⟨v, hv, by rw [UInt32.toUInt32_toInt32, UInt32.sub_add_cancel]⟩
  · rintro ⟨v, hv, hp⟩
    refine ⟨(v, n), hv, ?_⟩
    dsimp only
    rw [hp, UInt32.add_sub_cancel, Int32.toInt32_toUInt32]

theorem decodePlusOne_encodePlusOne (n : Int32) (rest : Bytes) :
    decodePlusOne (encodePlusOne n ++ rest) = .ok (n, (encodePlusOne n).length) :=
  decodePlusOne_eq_ok_iff.mpr
    ⟨_, decodeUnsigned_encodeUnsigned _ rest, UInt32.toUInt32_toUInt64 _⟩

end Dalvik.Leb128

namespace Dalvik

/-! ## At a cursor -/

namespace Decoder
open Leb128

/-- The window on the bytes holds the whole of a number. -/
theorem lebWindow_eq {part : Bytes} {bytes : ByteArray} {index : Nat} (hs : part.Stands bytes index)
    (hp : part ≠ []) (hl : part.length ≤ maxLength) :
    ∃ rest, lebWindow bytes index = .ok (part ++ rest) index := by
  have hle := hs.length_le
  have := List.length_pos_of_ne_nil hp
  obtain ⟨after, hs⟩ := hs
  refine ⟨after.take (maxLength - part.length), ?_⟩
  rw [lebWindow, if_pos (by omega), toList_byteArray, ByteArray.data_extract, Array.toList_extract,
    List.extract_eq_take_drop, ← hs, Nat.add_sub_cancel_left, List.take_append,
    List.take_of_length_le hl]

theorem stands_of_lebWindow {window : Bytes} {bytes : ByteArray} {index after : Nat}
    (h : lebWindow bytes index = .ok window after) : after = index ∧ window.Stands bytes index := by
  unfold lebWindow at h
  split at h
  · injection h with hwindow hafter
    refine ⟨hafter.symm, ?_⟩
    rw [← hwindow, toList_byteArray, ByteArray.data_extract, Array.toList_extract,
      List.extract_eq_take_drop]
    exact List.take_prefix _ _
  · cases h

theorem uleb_reads (n : UInt32) : uleb.Reads (Bytes.uleb n) n := by
  intro bytes index hs
  obtain ⟨rest, hw⟩ := lebWindow_eq hs (ended_encodeUnsigned _).ne_nil (length_encodeUnsigned_le_max _)
  have hd : decodeUnsigned (Bytes.uleb n ++ rest) = .ok (n.toUInt64, (Bytes.uleb n).length) :=
    decodeUnsigned_encodeUnsigned n.toUInt64 rest
  rw [uleb, bind_of_ok hw, lift_of_ok hd]
  simp only [UInt32.toNat_toUInt64, n.toNat_lt_size, if_true, UInt32.toUInt32_toUInt64]
  rfl

theorem sleb_reads (n : Int32) : sleb.Reads (Bytes.sleb n) n := by
  intro bytes index hs
  obtain ⟨rest, hw⟩ := lebWindow_eq hs (ended_encodeSigned _).ne_nil (length_encodeSigned_le_max _)
  have hd : decodeSigned (Bytes.sleb n ++ rest) = .ok (n.toInt64, (Bytes.sleb n).length) :=
    decodeSigned_encodeSigned n.toInt64 rest
  rw [sleb, bind_of_ok hw, lift_of_ok hd]
  have hfit : Int32.minValue.toInt ≤ n.toInt64.toInt ∧ n.toInt64.toInt ≤ Int32.maxValue.toInt := by
    rw [Int32.toInt_toInt64]
    exact ⟨n.minValue_le_toInt, n.toInt_le⟩
  simp only [hfit, and_self, if_true, Int32.toInt32_toInt64]
  rfl

theorem ulebPlusOne_reads (n : Int32) : ulebPlusOne.Reads (Bytes.ulebPlusOne n) n := by
  intro bytes index hs
  obtain ⟨rest, hw⟩ := lebWindow_eq hs (ended_encodeUnsigned _).ne_nil (length_encodeUnsigned_le_max _)
  have hd : decodePlusOne (Bytes.ulebPlusOne n ++ rest) = .ok (n, (Bytes.ulebPlusOne n).length) :=
    decodePlusOne_encodePlusOne n rest
  rw [ulebPlusOne, bind_of_ok hw, lift_of_ok hd]
  rfl

end Decoder

theorem Bytes.uleb_ne_nil (n : UInt32) : Bytes.uleb n ≠ [] :=
  (Leb128.ended_encodeUnsigned _).ne_nil

theorem Bytes.length_uleb_le (n : UInt32) : (Bytes.uleb n).length ≤ 5 :=
  Leb128.length_encodeUnsigned_le (by decide) (Nat.lt_trans n.toNat_lt (by decide))

theorem Bytes.length_uleb_pos (n : UInt32) : 0 < (Bytes.uleb n).length :=
  (Leb128.ended_encodeUnsigned _).length_pos

end Dalvik
