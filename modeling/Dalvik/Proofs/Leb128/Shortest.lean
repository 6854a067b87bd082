import Dalvik.Proofs.Leb128

/-!
# The shortest encodings

What is written for a number is read as that number, and no shorter sequence of bytes is. Groups of
zeros behind an unsigned number add nothing to it, and neither do groups of signs behind a signed one,
so the length of a sequence only bounds the number from above.
-/
namespace Dalvik.Leb128

/-- A part that is read as a value whatever follows it, and the shortest one to be read as that. -/
structure Shortest {α : Type} (decode : Bytes → Result (α × Nat)) (part : Bytes) (a : α) : Prop where
  reads : ∀ rest, decode (part ++ rest) = .ok (a, part.length)
  shortest : ∀ bytes n, decode bytes = .ok (a, n) → part.length ≤ n
  length_le : part.length ≤ maxLength

theorem shortest_encodeUnsigned (n : UInt64) : Shortest decodeUnsigned (encodeUnsigned n) n where
  reads := decodeUnsigned_encodeUnsigned n
  length_le := length_encodeUnsigned_le_max n
  shortest bytes size h := by
    obtain ⟨groups, hended, -, rfl, -, hn⟩ := decodeUnsigned_eq_ok_iff.mp h
    exact length_encodeUnsigned_le hended.length_pos (hn ▸ number_lt groups)

theorem shortest_encodeSigned (n : Int64) : Shortest decodeSigned (encodeSigned n) n where
  reads := decodeSigned_encodeSigned n
  length_le := length_encodeSigned_le_max n
  shortest bytes size h := by
    obtain ⟨groups, hended, -, rfl, hle, hn⟩ := decodeSigned_eq_ok_iff.mp h
    rcases Nat.lt_or_eq_of_le hle with hlt | heq
    · rw [bmod_signedNumber (Nat.le_of_lt_succ hlt)] at hn
      obtain ⟨hl, hu⟩ := signedNumber_bounds groups
      exact length_encodeSigned_le hended.length_pos (hn ▸ hl) (hn ▸ hu)
    · rw [heq]
      exact length_encodeSigned_le_max n

theorem shortest_encodePlusOne (n : Int32) : Shortest decodePlusOne (encodePlusOne n) n where
  reads := decodePlusOne_encodePlusOne n
  length_le := length_encodeUnsigned_le_max _
  shortest bytes size h := by
    obtain ⟨v, hv, hn⟩ := decodePlusOne_eq_ok_iff.mp h
    obtain ⟨groups, hended, -, rfl, -, hv⟩ := decodeUnsigned_eq_ok_iff.mp hv
    refine length_encodeUnsigned_le hended.length_pos (Nat.lt_of_le_of_lt ?_ (hv ▸ number_lt groups))
    rw [← hn, UInt32.toNat_toUInt64, UInt64.toNat_toUInt32]
    exact Nat.mod_le _ _

/-- Every number of 64 bits, signed or not, and every number of 32 bits that is stored with one added
is read back from its encoding, whatever follows, and no shorter sequence of bytes is read as that
number. What is read as an unsigned number is the sum of the groups it was read from. -/
theorem encodings_shortest :
    (∀ n, Shortest decodeUnsigned (encodeUnsigned n) n) ∧
      (∀ n, Shortest decodeSigned (encodeSigned n) n) ∧
      (∀ n, Shortest decodePlusOne (encodePlusOne n) n) ∧
      ∀ bytes v n, decodeUnsigned bytes = .ok (v, n) →
        n ≤ bytes.length ∧ v.toNat = number (bytes.take n) := by
  refine ⟨shortest_encodeUnsigned, shortest_encodeSigned, shortest_encodePlusOne, ?_⟩
  intro bytes v n h
  obtain ⟨groups, -, hfront, rfl, -, hn⟩ := decodeUnsigned_eq_ok_iff.mp h
  refine ⟨hfront.length_le, ?_⟩
  rw [← List.prefix_iff_eq_take.mp hfront, hn]

/-- Ten groups of which the last one is empty, and a byte behind them. -/
theorem encodings_shortest_padded :
    decodeUnsigned [0xFF, 0xFF, 0x80, 0x80, 0x80, 0x80, 0x80, 0x80, 0x80, 0x00, 0x01] =
        .ok (16383, 10) ∧
      10 ≤ 11 ∧ (16383 : UInt64).toNat =
        number [0xFF, 0xFF, 0x80, 0x80, 0x80, 0x80, 0x80, 0x80, 0x80, 0x00] := by
  have h : decodeUnsigned [0xFF, 0xFF, 0x80, 0x80, 0x80, 0x80, 0x80, 0x80, 0x80, 0x00, 0x01] =
      .ok (16383, 10) := by rfl
  exact ⟨h, encodings_shortest.2.2.2 _ _ _ h⟩

end Dalvik.Leb128
