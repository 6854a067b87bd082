import Dalvik.Proofs.Leb128
import Dalvik.Proofs.Placement.Decoders

/-!
# Signed numbers of ten groups

A signed number of up to nine groups fits a word. Of a tenth group one bit does, and the others fall
off without a check, as long as an unsigned number is refused: so what is read is the number that
was meant if the tenth group holds nothing but the sign, and otherwise another one.
-/
namespace Dalvik.Leb128
variable {b : UInt8} {groups bytes : Bytes}

/-! ## The tenth group -/

theorem Ended.exists_last (h : Ended groups) :
    ∃ init b, groups = init ++ [b] ∧ continues b = false := by
  induction h with
  | @last b h => exact ⟨[], b, rfl, h⟩
  | @more a _ _ _ ih =>
    obtain ⟨init, b, rfl, hb⟩ := ih
    exact ⟨a :: init, b, rfl, hb⟩

/-- The last group stands above the sum of all others. -/
theorem signedNumber_append (init : Bytes) (b : UInt8) :
    signedNumber (init ++ [b]) = number init + 2 ^ (7 * init.length) * signedNumber [b] := by
  induction init with
  | nil => simp [number]
  | cons a init ih =>
    have hpow : (2 : Int) ^ (7 * (init.length + 1)) = 2 ^ (7 * init.length) * 2 ^ 7 :=
      congrArg Nat.cast (pow_succ_groups init.length)
    rw [List.cons_append, signedNumber_cons a (by simp), ih, number, List.length_cons, hpow]
    push_cast
    ring

/-- The number of the groups is one of 64 bits. -/
def Fits (groups : Bytes) : Prop := -2 ^ 63 ≤ signedNumber groups ∧ signedNumber groups < 2 ^ 63

/-- The number of up to ten groups fits a word if the tenth is all sign. -/
theorem fits_iff (h : Ended groups) (hl : groups.length ≤ maxLength) :
    Fits groups ↔ ∀ b, groups[9]? = some b → b = 0x00 ∨ b = 0x7F := by
  rcases Nat.lt_or_eq_of_le hl with hlt | heq
  · have hnone : groups[9]? = none := List.getElem?_eq_none (Nat.le_of_lt_succ hlt)
    obtain ⟨hlow, hhigh⟩ := signedNumber_bounds groups
    have hpow : (2 : Int) ^ (7 * groups.length) ≤ 2 ^ 63 :=
      pow_le_pow_right₀ (by decide) (by simp only [maxLength] at hlt; omega)
    refine iff_of_true ⟨by omega, by omega⟩ fun b hb => ?_
    rw [hnone] at hb
    cases hb
  · obtain ⟨init, b, rfl, hlast⟩ := h.exists_last
    have hlen : init.length = 9 := by simpa [maxLength] using heq
    have hget : (init ++ [b])[9]? = some b := by rw [← hlen, List.getElem?_concat_length]
    have hb : b.toNat < 128 := by
      rwa [← Bool.not_eq_true, continues_iff, Nat.not_le] at hlast
    have hinit := number_lt init
    have hgroup := toNat_group b
    have hzero : b = 0x00 ↔ b.toNat = 0 := UInt8.toNat_inj.symm
    have hsign : b = 0x7F ↔ b.toNat = 127 := UInt8.toNat_inj.symm
    rw [hlen] at hinit
    rw [Fits, signedNumber_append, signedNumber_last, hlen, hget]
    simp only [Option.some.injEq, forall_eq', sign_iff, hzero, hsign]
    split <;> omega

/-- What a reader that works modulo 2^64 makes of the groups of a number. -/
structure Reduced (groups : Bytes) (n : Int) : Prop where
  eq_bmod : n = (signedNumber groups).bmod (2 ^ 64)
  exact_iff : n = signedNumber groups ↔ Fits groups
  fits_iff : Fits groups ↔ ∀ b, groups[9]? = some b → b = 0x00 ∨ b = 0x7F

theorem reduced (h : Ended groups) (hl : groups.length ≤ maxLength) {n : Int}
    (hn : n = (signedNumber groups).bmod (2 ^ 64)) : Reduced groups n where
  eq_bmod := hn
  fits_iff := fits_iff h hl
  exact_iff := by
    have hself : n = signedNumber groups ↔
        -2 ^ 63 ≤ signedNumber groups ∧ signedNumber groups < 2 ^ 63 := by
      rw [hn, Int.bmod_eq_iff (by decide)]
      omega
    exact hself

/-! ## Reading -/

theorem exists_decodeSigned (h : Ended groups) (hfront : groups <+: bytes)
    (hl : groups.length ≤ maxLength) : ∃ v, decodeSigned bytes = .ok (v, groups.length) :=
  ⟨Int64.ofInt (signedNumber groups),
    decodeSigned_eq_ok_iff.mpr ⟨groups, h, hfront, rfl, hl, Int64.toInt_ofInt⟩⟩

theorem sleb_eq_ok {bytes : ByteArray} {index after : Nat} {n : Int32}
    (h : Decoder.sleb bytes index = .ok n after) :
    ∃ groups, Ended groups ∧ groups.Stands bytes index ∧ groups.length ≤ maxLength ∧
      after = index + groups.length ∧ n.toInt = (signedNumber groups).bmod (2 ^ 64) := by
  obtain ⟨window, between, hwindow, hnumber⟩ := Decoder.bind_eq_ok.mp h
  obtain ⟨rfl, hstands⟩ := Decoder.stands_of_lebWindow hwindow
  obtain ⟨⟨v, size⟩, hdecode, hlast⟩ := Decoder.lift_bind_eq_ok.mp hnumber
  obtain ⟨groups, hended, hfront, rfl, hle, hv⟩ := decodeSigned_eq_ok_iff.mp hdecode
  dsimp only at hlast
  split at hlast
  next hfit =>
    cases hlast
    refine ⟨groups, hended, hfront.trans hstands, hle, rfl, ?_⟩
    rw [Int64.toInt_toInt32, ← hv]
    exact Int.bmod_eq_of_le hfit.1 (Int.lt_add_one_of_le hfit.2)
  · cases hlast

/-- Groups of a signed number are never refused for what they stand for, if there are at most ten
of them. They are read modulo 2^64, so a number comes back exactly if it fits 64 bits, that is, if a
tenth group holds nothing but the sign; and so it does as a number of 32 bits. -/
theorem decodeSigned_reduced (bytes : Bytes) :
    (∀ v n, decodeSigned bytes = .ok (v, n) → Reduced (bytes.take n) v.toInt) ∧
      (∀ groups, Ended groups → groups <+: bytes → groups.length ≤ maxLength →
        ∃ v, decodeSigned bytes = .ok (v, groups.length)) ∧
      ∀ index n after, Decoder.sleb.decodeAt bytes.toByteArray index = .ok (n, after) →
        ∃ groups, groups.Stands bytes.toByteArray index ∧ after = index + groups.length ∧
          Reduced groups n.toInt := by
  refine ⟨fun v n h => ?_, fun _ => exists_decodeSigned, fun index n after h => ?_⟩
  · obtain ⟨groups, hended, hfront, rfl, hle, hv⟩ := decodeSigned_eq_ok_iff.mp h
    rw [← List.prefix_iff_eq_take.mp hfront]
    exact reduced hended hle hv
  · obtain ⟨groups, hended, hstands, hle, hafter, hn⟩ := sleb_eq_ok (Decoder.decodeAt_eq_ok.mp h)
    exact ⟨groups, hstands, hafter, reduced hended hle hn⟩

/-- The groups of 2^64, which takes 66 bits as a signed number. -/
def groupsOfPow64 : Bytes := [0x80, 0x80, 0x80, 0x80, 0x80, 0x80, 0x80, 0x80, 0x80, 0x02]

theorem ended_groupsOfPow64 : Ended groupsOfPow64 := by
  unfold groupsOfPow64
  repeat' constructor

theorem decodeSigned_reduced_pow64 :
    Reduced groupsOfPow64 0 ∧ (∃ v, decodeSigned groupsOfPow64 = .ok (v, 10)) ∧
      ∃ groups, groups.Stands groupsOfPow64.toByteArray 0 ∧ 10 = 0 + groups.length ∧
        Reduced groups (0 : Int32).toInt := by
  have hdecode : decodeSigned groupsOfPow64 = .ok (0, 10) := by decide +kernel
  have hsleb : Decoder.sleb.decodeAt groupsOfPow64.toByteArray 0 = .ok (0, 10) := by decide +kernel
  obtain ⟨hword, hends, hcursor⟩ := decodeSigned_reduced groupsOfPow64
  exact ⟨hword _ _ hdecode, hends _ ended_groupsOfPow64 (List.prefix_refl _) (by decide),
    hcursor _ _ _ hsleb⟩

/-- They are read as 0, by the reader of 32 bits as well. -/
theorem decodeSigned_loses_groups :
    signedNumber groupsOfPow64 = 2 ^ 64 ∧ decodeSigned groupsOfPow64 = .ok (0, 10) ∧
      Decoder.sleb.decodeAt groupsOfPow64.toByteArray 0 = .ok (0, 10) := by
  refine ⟨?_, ?_, ?_⟩ <;> decide +kernel

end Dalvik.Leb128
