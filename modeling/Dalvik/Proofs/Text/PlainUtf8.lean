import Dalvik.Proofs.Text.ModifiedUtf8

/-!
# Plain UTF-8

Stored strings may also be plain UTF-8. A character is taken from the front of the bytes exactly if
they begin with its encoding, so bytes are taken as they are exactly if they are plain UTF-8. What is
written for a string is never the plain form of another one.
-/
namespace Dalvik.Text

variable {a b c d : UInt8} {ch : Char} {bytes rest : Bytes}

/-! ## The encodings by their lengths -/

theorem utf8EncodeChar_eq_one_iff :
    String.utf8EncodeChar ch = [a] ↔ ch.toNat < 0x80 ∧ a.toNat = ch.toNat := by
  unfold String.utf8EncodeChar
  rw [show ch.val.toNat = ch.toNat from rfl]
  dsimp only
  split_ifs <;> simp [← UInt8.toNat_inj] <;> omega

theorem utf8EncodeChar_eq_two_iff :
    String.utf8EncodeChar ch = [a, b] ↔ (0x80 ≤ ch.toNat ∧ ch.toNat < 0x800) ∧
      a.toNat = 0xC0 + ch.toNat / 0x40 ∧ b.toNat = 0x80 + ch.toNat % 0x40 := by
  unfold String.utf8EncodeChar
  rw [show ch.val.toNat = ch.toNat from rfl]
  dsimp only
  split_ifs <;> simp [← UInt8.toNat_inj] <;> omega

theorem utf8EncodeChar_eq_three_iff :
    String.utf8EncodeChar ch = [a, b, c] ↔ (0x800 ≤ ch.toNat ∧ ch.toNat < 0x10000) ∧
      a.toNat = 0xE0 + ch.toNat / 0x1000 ∧ b.toNat = 0x80 + ch.toNat / 0x40 % 0x40 ∧
      c.toNat = 0x80 + ch.toNat % 0x40 := by
  unfold String.utf8EncodeChar
  rw [show ch.val.toNat = ch.toNat from rfl]
  dsimp only
  split_ifs <;> simp [← UInt8.toNat_inj] <;> omega

theorem utf8EncodeChar_eq_four_iff :
    String.utf8EncodeChar ch = [a, b, c, d] ↔ 0x10000 ≤ ch.toNat ∧
      a.toNat = 0xF0 + ch.toNat / 0x40000 ∧ b.toNat = 0x80 + ch.toNat / 0x1000 % 0x40 ∧
      c.toNat = 0x80 + ch.toNat / 0x40 % 0x40 ∧ d.toNat = 0x80 + ch.toNat % 0x40 := by
  have := toNat_lt ch
  unfold String.utf8EncodeChar
  rw [show ch.val.toNat = ch.toNat from rfl]
  dsimp only
  split_ifs <;> simp [← UInt8.toNat_inj] <;> omega

theorem utf8EncodeChar_shape (ch : Char) :
    (∃ a, String.utf8EncodeChar ch = [a]) ∨ (∃ a b, String.utf8EncodeChar ch = [a, b]) ∨
      (∃ a b c, String.utf8EncodeChar ch = [a, b, c]) ∨
      ∃ a b c d, String.utf8EncodeChar ch = [a, b, c, d] := by
  unfold String.utf8EncodeChar
  dsimp only
  split_ifs <;> simp

/-! ## Single characters -/

theorem toNat_ofNat {n : Nat} (h : n < 0xD800 ∨ 0xDFFF < n ∧ n < 0x110000) :
    (Char.ofNat n).toNat = n := by
  rw [Char.toNat_ofNat, if_pos h]

theorem continuation?_eq_some {n : Nat} (h : continuation? b = some n) :
    n < 0x40 ∧ b.toNat = 0x80 + n := by
  unfold continuation? at h
  split at h
  next hb =>
    rw [UInt8.le_iff_toNat_le, UInt8.lt_iff_toNat_lt] at hb
    simp at h hb
    omega
  next => cases h

theorem twoByteChar?_eq_some_iff :
    twoByteChar? a b = some ch ↔ String.utf8EncodeChar ch = [a, b] := by
  rw [utf8EncodeChar_eq_two_iff]
  constructor
  · intro h
    unfold twoByteChar? at h
    split at h
    next hlead =>
      obtain ⟨n, hn, hch⟩ := Option.bind_eq_some_iff.mp h
      obtain ⟨hlt, hb⟩ := continuation?_eq_some hn
      rw [UInt8.le_iff_toNat_le, UInt8.lt_iff_toNat_lt] at hlead
      simp at hlead
      cases hch
      rw [toNat_ofNat (by omega)]
      omega
    next => cases h
  · rintro ⟨⟨h1, h2⟩, ha, hb⟩
    rw [twoByteChar?_of ha hb h1 h2, Char.ofNat_toNat]

theorem threeByteChar?_eq_some_iff :
    threeByteChar? a b c = some ch ↔ String.utf8EncodeChar ch = [a, b, c] := by
  rw [utf8EncodeChar_eq_three_iff]
  constructor
  · intro h
    unfold threeByteChar? at h
    split at h
    next hlead =>
      obtain ⟨m, hm, h⟩ := Option.bind_eq_some_iff.mp h
      obtain ⟨n, hn, h⟩ := Option.bind_eq_some_iff.mp h
      obtain ⟨hmlt, hb⟩ := continuation?_eq_some hm
      obtain ⟨hnlt, hc⟩ := continuation?_eq_some hn
      rw [UInt8.le_iff_toNat_le, UInt8.lt_iff_toNat_lt] at hlead
      simp at hlead
      dsimp only at h
      split at h
      next => cases h
      next hvalid =>
        cases h
        rw [toNat_ofNat (by omega)]
        omega
    next => cases h
  · rintro ⟨⟨h1, h2⟩, ha, hb, hc⟩
    rw [threeByteChar?_of ha hb hc h1 h2, if_neg (not_surrogate ch), Char.ofNat_toNat]

theorem fourByteChar?_of {n : Nat} (ha : a.toNat = 0xF0 + n / 0x40000)
    (hb : b.toNat = 0x80 + n / 0x1000 % 0x40) (hc : c.toNat = 0x80 + n / 0x40 % 0x40)
    (hd : d.toNat = 0x80 + n % 0x40) (h1 : 0x10000 ≤ n) (h2 : n < 0x110000) :
    fourByteChar? a b c d = some (Char.ofNat n) := by
  have hlead : 0xF0 ≤ a ∧ a < 0xF5 := by
    simp [UInt8.le_iff_toNat_le, UInt8.lt_iff_toNat_lt, ha]
    omega
  have hsum : (a.toNat - 0xF0) * 0x40000 + n / 0x1000 % 0x40 * 0x1000 + n / 0x40 % 0x40 * 0x40 +
      n % 0x40 = n := by omega
  have hvalid : ¬ (n < 0x10000 ∨ 0x110000 ≤ n) := by omega
  rw [fourByteChar?, if_pos hlead, continuation?_of hb (Nat.mod_lt _ (by decide)),
    continuation?_of hc (Nat.mod_lt _ (by decide)), continuation?_of hd (Nat.mod_lt _ (by decide)),
    Option.bind_eq_bind, Option.bind_some, Option.bind_some, Option.bind_some, hsum, if_neg hvalid]

theorem fourByteChar?_eq_some_iff :
    fourByteChar? a b c d = some ch ↔ String.utf8EncodeChar ch = [a, b, c, d] := by
  rw [utf8EncodeChar_eq_four_iff]
  constructor
  · intro h
    unfold fourByteChar? at h
    split at h
    next hlead =>
      obtain ⟨l, hl, h⟩ := Option.bind_eq_some_iff.mp h
      obtain ⟨m, hm, h⟩ := Option.bind_eq_some_iff.mp h
      obtain ⟨n, hn, h⟩ := Option.bind_eq_some_iff.mp h
      obtain ⟨hllt, hb⟩ := continuation?_eq_some hl
      obtain ⟨hmlt, hc⟩ := continuation?_eq_some hm
      obtain ⟨hnlt, hd⟩ := continuation?_eq_some hn
      rw [UInt8.le_iff_toNat_le, UInt8.lt_iff_toNat_lt] at hlead
      simp at hlead
      dsimp only at h
      split at h
      next => cases h
      next hvalid =>
        cases h
        rw [toNat_ofNat (by omega)]
        omega
    next => cases h
  · rintro ⟨h1, ha, hb, hc, hd⟩
    rw [fourByteChar?_of ha hb hc hd h1 (toNat_lt ch), Char.ofNat_toNat]

theorem map_pair_eq_some {o : Option Char} (h : o.map (·, bytes) = some (ch, rest)) :
    o = some ch ∧ bytes = rest := by
  obtain ⟨x, ho, hx⟩ := Option.map_eq_some_iff.mp h
  cases hx
  exact ⟨ho, rfl⟩

theorem of_takeUtf8_eq_some (h : takeUtf8 bytes = some (ch, rest)) :
    bytes = String.utf8EncodeChar ch ++ rest := by
  cases bytes with
  | nil => cases h
  | cons a bytes =>
    simp only [takeUtf8] at h
    by_cases ha : a < 0x80
    · rw [if_pos ha] at h
      cases h
      rw [UInt8.lt_iff_toNat_lt] at ha
      have hch : (Char.ofNat a.toNat).toNat = a.toNat := toNat_ofNat (by simp at ha; omega)
      rw [utf8EncodeChar_eq_one_iff.mpr ⟨by rwa [hch], hch.symm⟩]
      rfl
    · rw [if_neg ha] at h
      cases bytes with
      | nil => cases h
      | cons b bytes =>
        obtain h | ⟨-, h⟩ := (Option.orElse_eq_some ..).mp h
        · obtain ⟨htwo, rfl⟩ := map_pair_eq_some h
          rw [twoByteChar?_eq_some_iff.mp htwo]
          rfl
        · cases bytes with
          | nil => cases h
          | cons c bytes =>
            obtain h | ⟨-, h⟩ := (Option.orElse_eq_some ..).mp h
            · obtain ⟨hthree, rfl⟩ := map_pair_eq_some h
              rw [threeByteChar?_eq_some_iff.mp hthree]
              rfl
            · cases bytes with
              | nil => cases h
              | cons d bytes =>
                obtain ⟨hfour, rfl⟩ := map_pair_eq_some h
                rw [fourByteChar?_eq_some_iff.mp hfour]
                rfl

theorem threeByteChar?_eq_none (h : 0xF0 ≤ a.toNat) : threeByteChar? a b c = none := by
  have hc : ¬ (0xE0 ≤ a ∧ a < 0xF0) := by
    simp [UInt8.lt_iff_toNat_lt]
    omega
  simp only [threeByteChar?, if_neg hc]

theorem takeUtf8_utf8EncodeChar (ch : Char) (rest : Bytes) :
    takeUtf8 (String.utf8EncodeChar ch ++ rest) = some (ch, rest) := by
  rcases utf8EncodeChar_shape ch with ⟨a, h⟩ | ⟨a, b, h⟩ | ⟨a, b, c, h⟩ | ⟨a, b, c, d, h⟩
  · obtain ⟨hlt, ha⟩ := utf8EncodeChar_eq_one_iff.mp h
    have hlead : a < 0x80 := by simpa [UInt8.lt_iff_toNat_lt, ha] using hlt
    simp [h, takeUtf8, hlead, ha]
  · obtain ⟨hrange, ha, -⟩ := utf8EncodeChar_eq_two_iff.mp h
    have hlead : ¬ a < 0x80 := by
      simp [UInt8.lt_iff_toNat_lt, ha]
      omega
    simp [h, takeUtf8, hlead, twoByteChar?_eq_some_iff.mpr h]
  · obtain ⟨hrange, ha, -⟩ := utf8EncodeChar_eq_three_iff.mp h
    have hlead : ¬ a < 0x80 := by
      simp [UInt8.lt_iff_toNat_lt, ha]
      omega
    simp [h, takeUtf8, hlead, twoByteChar?_eq_none (.inr (by omega : 0xE0 ≤ a.toNat)),
      threeByteChar?_eq_some_iff.mpr h]
  · obtain ⟨hrange, ha, -⟩ := utf8EncodeChar_eq_four_iff.mp h
    have hlead : ¬ a < 0x80 := by
      simp [UInt8.lt_iff_toNat_lt, ha]
      omega
    simp [h, takeUtf8, hlead, twoByteChar?_eq_none (.inr (by omega : 0xE0 ≤ a.toNat)),
      threeByteChar?_eq_none (by omega : 0xF0 ≤ a.toNat), fourByteChar?_eq_some_iff.mpr h]

/-! ## Whole strings -/

theorem decodeWith_takeUtf8_nil {room : Nat} {found chars : List Char} :
    decodeWith takeUtf8 room found [] = some chars ↔
      ∃ tail, chars = found.reverse ++ tail ∧ [] = tail.flatMap String.utf8EncodeChar := by
  rw [decodeWith_nil, Option.some.injEq]
  constructor
  · rintro rfl
    exact ⟨[], (List.append_nil _).symm, rfl⟩
  · rintro ⟨_ | ⟨ch, tail⟩, rfl, htail⟩
    · exact (List.append_nil _).symm
    · simp at htail

theorem decodeWith_takeUtf8_eq_some_iff {room : Nat} {found chars : List Char}
    (hl : bytes.length ≤ room) :
    decodeWith takeUtf8 room found bytes = some chars ↔
      ∃ tail, chars = found.reverse ++ tail ∧ bytes = tail.flatMap String.utf8EncodeChar := by
  induction room generalizing found bytes with
  | zero =>
    rw [List.eq_nil_of_length_eq_zero (Nat.le_zero.mp hl)]
    exact decodeWith_takeUtf8_nil
  | succ room ih =>
    cases bytes with
    | nil => exact decodeWith_takeUtf8_nil
    | cons b bytes =>
      have hrest {ch : Char} {rest : Bytes} (h : b :: bytes = String.utf8EncodeChar ch ++ rest) :
          rest.length ≤ room := by
        have hpos := List.length_pos_of_ne_nil (utf8EncodeChar_ne_nil ch)
        have := congrArg List.length h
        rw [List.length_append] at this
        omega
      rw [decodeWith_cons (List.cons_ne_nil b bytes), Option.bind_eq_some_iff]
      constructor
      · rintro ⟨⟨ch, rest⟩, htake, hdecode⟩
        have hbytes := of_takeUtf8_eq_some htake
        obtain ⟨tail, rfl, rfl⟩ := (ih (hrest hbytes)).mp hdecode
        exact ⟨ch :: tail, by simp, hbytes⟩
      · rintro ⟨_ | ⟨ch, tail⟩, rfl, hbytes⟩
        · cases hbytes
        · have hle := hrest hbytes
          rw [hbytes]
          exact ⟨(ch, _), takeUtf8_utf8EncodeChar ch _, (ih hle).mpr ⟨tail, by simp, rfl⟩⟩

/-- Bytes are taken as they are exactly if they are plain UTF-8. -/
theorem decodeWith_takeUtf8_iff {chars : List Char} :
    decodeWith takeUtf8 bytes.length [] bytes = some chars ↔
      bytes = chars.flatMap String.utf8EncodeChar := by
  rw [decodeWith_takeUtf8_eq_some_iff (Nat.le_refl _)]
  simp

theorem decodeModified?_utf8Bytes (s : String) : decodeModified? (utf8Bytes s) = some s := by
  have h : decodeWith takeUtf8 (utf8Bytes s).length [] (utf8Bytes s) = some s.toList :=
    decodeWith_takeUtf8_iff.mpr rfl
  simp [decodeModified?, h]

/-- What is written for a string is not plain UTF-8, or it is that of the same string. -/
theorem eq_of_encodeModified_eq_utf8Bytes {s t : String} (h : encodeModified s = utf8Bytes t) :
    s = t := by
  have hs := decodeModified?_encodeModified s
  rw [h, decodeModified?_utf8Bytes] at hs
  exact (Option.some.inj hs).symm

end Dalvik.Text
