import Dalvik.Leb128
import Mathlib

/-!
# Groups of seven bits

A number is the sum of its groups, low group first; read as two's complement its sign is bit 6 of the
last group. In a word of 64 bits every group but the tenth has its full width, so only there can bits
be lost.
-/
namespace Dalvik.Leb128
variable {b : UInt8} {groups rest : Bytes} {count k : Nat} {value : UInt64}

/-! ## Bytes of a number -/

theorem toNat_and_7F (b : UInt8) : (b &&& 0x7F).toNat = b.toNat % 128 := by
  rw [UInt8.toNat_and]
  exact Nat.and_two_pow_sub_one_eq_mod b.toNat 7

theorem toNat_group (b : UInt8) : (group b).toNat = b.toNat % 128 := by
  rw [group, UInt8.toNat_toUInt64, toNat_and_7F]

/-- A single bit of a byte. -/
theorem and_ne_zero_iff {mask : UInt8} {i : Nat} (hm : mask.toNat = 2 ^ i) :
    b &&& mask ≠ 0 ↔ b.toNat / 2 ^ i % 2 = 1 := by
  rw [Ne, ← UInt8.toNat_inj, UInt8.toNat_and, hm, Nat.and_two_pow, Nat.testBit_eq_decide_div_mod_eq]
  by_cases h : b.toNat / 2 ^ i % 2 = 1 <;> simp [h]

theorem continues_iff : continues b = true ↔ 128 ≤ b.toNat := by
  have hb := b.toNat_lt
  rw [continues, bne_iff_ne, and_ne_zero_iff (show (0x80 : UInt8).toNat = 2 ^ 7 from rfl)]
  omega

theorem sign_iff : b &&& 0x40 ≠ 0 ↔ 64 ≤ b.toNat % 128 := by
  rw [and_ne_zero_iff (show (0x40 : UInt8).toNat = 2 ^ 6 from rfl)]
  omega

theorem toNat_or_80 (h : b.toNat < 128) : (b ||| 0x80).toNat = b.toNat + 128 := by
  rw [UInt8.toNat_or, Nat.or_comm, show (0x80 : UInt8).toNat = 2 ^ 7 * 1 from rfl,
    ← Nat.two_pow_add_eq_or_of_lt h]
  omega

theorem toNat_low (n : UInt64) : (n &&& 0x7F).toUInt8.toNat = n.toNat % 128 := by
  have hmask : (n &&& 0x7F).toNat = n.toNat % 128 := by
    rw [UInt64.toNat_and]
    exact Nat.and_two_pow_sub_one_eq_mod n.toNat 7
  rw [UInt64.toNat_toUInt8, hmask]
  omega

/-- Both ways to read a word as a number have the same low bits. -/
theorem toInt_emod_128 (n : Int64) : n.toInt % 128 = (n.toUInt64.toNat : Int) % 128 := by
  rw [← Int64.toInt_toBitVec, BitVec.toInt_eq_toNat_bmod]
  change ((n.toUInt64.toNat : Int).bmod (2 ^ 64)) % 128 = _
  rw [Int.bmod_def]
  have := n.toUInt64.toNat_lt
  split <;> omega

theorem toNat_signedLow (n : Int64) :
    ((n &&& 0x7F).toUInt64.toUInt8.toNat : Int) = n.toInt % 128 := by
  rw [Int64.toUInt64_and]
  have h := toNat_low n.toUInt64
  rw [toInt_emod_128]
  change ((n.toUInt64 &&& 0x7F).toUInt8.toNat : Int) = _
  rw [h]
  rfl

/-! ## Words put together -/

/-- A word behind the low bits of another one, as far as there is room for it. -/
theorem toNat_or_shiftLeft (x : UInt64) (hk : k < 64) (hv : value.toNat < 2 ^ k) :
    (value ||| x <<< k.toUInt64).toNat = (value.toNat + 2 ^ k * x.toNat) % 2 ^ 64 := by
  have hsplit : (2 : Nat) ^ 64 = 2 ^ k * 2 ^ (64 - k) := by
    rw [← Nat.pow_add, Nat.add_sub_cancel' (Nat.le_of_lt hk)]
  have hshift : k.toUInt64.toNat % 64 = k := by
    rw [Nat.toUInt64_eq, UInt64.toNat_ofNat']
    omega
  rw [UInt64.toNat_or, UInt64.toNat_shiftLeft, hshift, Nat.shiftLeft_eq, Nat.mul_comm, hsplit,
    Nat.mul_mod_mul_left, Nat.or_comm, ← Nat.two_pow_add_eq_or_of_lt hv, Nat.mod_mul,
    Nat.add_mul_mod_self_left, Nat.mod_eq_of_lt hv, Nat.add_mul_div_left _ _ (Nat.two_pow_pos k),
    Nat.div_eq_of_lt hv, Nat.zero_add, Nat.add_comm]

theorem pow_succ_groups (count : Nat) : 2 ^ (7 * (count + 1)) = 2 ^ (7 * count) * 2 ^ 7 := by
  rw [Nat.mul_add, Nat.pow_add]

/-- Seven more bits. -/
theorem add_group_lt {m : Nat} (b : UInt8) (hm : m < 2 ^ (7 * count)) :
    m + 2 ^ (7 * count) * (group b).toNat < 2 ^ (7 * (count + 1)) := by
  have hg : (group b).toNat ≤ 127 := by
    rw [toNat_group]
    omega
  have := Nat.mul_le_mul_left (2 ^ (7 * count)) hg
  rw [pow_succ_groups]
  omega

theorem toNat_addGroup (b : UInt8) (hc : count ≤ 9) (hv : value.toNat < 2 ^ (7 * count)) :
    (addGroup count value b).toNat =
      (value.toNat + 2 ^ (7 * count) * (group b).toNat) % 2 ^ 64 :=
  toNat_or_shiftLeft _ (by omega) hv

theorem addGroup_lt (b : UInt8) (hc : count ≤ 9) (hv : value.toNat < 2 ^ (7 * count)) :
    (addGroup count value b).toNat < 2 ^ (7 * (count + 1)) := by
  rw [toNat_addGroup b hc hv]
  exact Nat.lt_of_le_of_lt (Nat.mod_le _ _) (add_group_lt b hv)

/-- Bits of the tenth group fall off exactly if the sum does not fit the word. -/
theorem overflow_iff (hc : count ≤ 9) (hv : value.toNat < 2 ^ (7 * count)) :
    7 * count = 63 ∧ 1 < group b ↔ 2 ^ 64 ≤ value.toNat + 2 ^ (7 * count) * (group b).toNat := by
  rw [UInt64.lt_iff_toNat_lt, show (1 : UInt64).toNat = 1 from rfl]
  rcases Nat.lt_or_eq_of_le hc with hlt | rfl
  · have hsum := add_group_lt b hv
    have hle : 2 ^ (7 * (count + 1)) ≤ 2 ^ 63 := Nat.pow_le_pow_right (by decide) (by omega)
    omega
  · omega

theorem toInt_toInt64 (n : UInt64) : n.toInt64.toInt = (n.toNat : Int).bmod (2 ^ 64) := by
  rw [← Int64.toInt_toBitVec, UInt64.toBitVec_toInt64, BitVec.toInt_eq_toNat_bmod]
  rfl

/-! ## The numbers that groups stand for -/

/-- The bytes of one number: all but the last continue. -/
inductive Ended : Bytes → Prop where
  | last {b : UInt8} (h : continues b = false) : Ended [b]
  | more {b : UInt8} {rest : Bytes} (h : continues b = true) (hrest : Ended rest) : Ended (b :: rest)

/-- The sum of the groups, low group first. -/
def number : Bytes → Nat
  | [] => 0
  | b :: rest => (group b).toNat + 2 ^ 7 * number rest

/-- The groups as a two's complement number of as many bits as they have. -/
def signedNumber (groups : Bytes) : Int := (BitVec.ofNat (7 * groups.length) (number groups)).toInt

theorem number_lt (groups : Bytes) : number groups < 2 ^ (7 * groups.length) := by
  induction groups with
  | nil => simp [number]
  | cons b rest ih =>
    have hg : (group b).toNat < 128 := by
      rw [toNat_group]
      omega
    rw [number, List.length_cons, pow_succ_groups]
    omega

/-- Bits put below a number of `k + 1` bits do not change its sign. -/
theorem toInt_ofNat_add {g m : Nat} (hg : g < 2 ^ 7) :
    (BitVec.ofNat (7 + (k + 1)) (g + 2 ^ 7 * m)).toInt =
      g + 2 ^ 7 * (BitVec.ofNat (k + 1) m).toInt := by
  have hpos : 0 < 2 ^ k := Nat.two_pow_pos k
  have hhalf : 2 ^ (k + 1) = 2 * 2 ^ k := by rw [Nat.pow_succ, Nat.mul_comm]
  have hwhole : 2 ^ (7 + (k + 1)) = 2 ^ 8 * 2 ^ k := by
    rw [← Nat.pow_add]
    congr 1
    omega
  rw [BitVec.toInt_ofNat', BitVec.toInt_ofNat', hhalf, hwhole, Int.bmod_eq_iff (by omega)]
  obtain ⟨hl, hu, q, hq⟩ := (Int.bmod_eq_iff (a := (m : Int)) (b := 2 * 2 ^ k) (by omega)).mp rfl
  generalize (m : Int).bmod (2 * 2 ^ k) = x at *
  refine ⟨by omega, by omega, q, ?_⟩
  push_cast at hq ⊢
  linear_combination 2 ^ 7 * hq

/-- The last group has its own sign, in bit 6. -/
theorem signedNumber_last (b : UInt8) : signedNumber [b] =
    (group b).toNat - if b &&& 0x40 ≠ 0 then 2 ^ 7 else 0 := by
  have hg := toNat_group b
  simp only [signedNumber, number, List.length_singleton, sign_iff]
  rw [BitVec.toInt_ofNat', Int.bmod_def]
  split <;> split <;> omega

/-- All other groups are added as they are. -/
theorem signedNumber_cons (b : UInt8) (h : rest ≠ []) :
    signedNumber (b :: rest) = (group b).toNat + 2 ^ 7 * signedNumber rest := by
  have hg : (group b).toNat < 2 ^ 7 := by
    rw [toNat_group]
    omega
  obtain ⟨k, hk⟩ : ∃ k, 7 * rest.length = k + 1 :=
    ⟨7 * rest.length - 1, by have := List.length_pos_of_ne_nil h; omega⟩
  rw [signedNumber, signedNumber, List.length_cons, Nat.mul_add, Nat.add_comm (7 * rest.length), hk,
    number, toInt_ofNat_add hg]

theorem signedNumber_bounds (groups : Bytes) :
    -2 ^ (7 * groups.length) ≤ 2 * signedNumber groups ∧
      2 * signedNumber groups < 2 ^ (7 * groups.length) :=
  ⟨BitVec.le_two_mul_toInt, BitVec.two_mul_toInt_lt⟩

/-- Nine groups always fit. -/
theorem bmod_signedNumber (h : groups.length ≤ 9) :
    (signedNumber groups).bmod (2 ^ 64) = signedNumber groups := by
  obtain ⟨hl, hu⟩ := signedNumber_bounds groups
  have hpow : (2 : Int) ^ (7 * groups.length) ≤ 2 ^ 63 :=
    pow_le_pow_right₀ (by decide) (by omega)
  apply Int.bmod_eq_of_le <;> omega

end Dalvik.Leb128
