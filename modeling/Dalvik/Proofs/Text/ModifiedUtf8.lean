import Dalvik.Proofs.Leb128
import Dalvik.Proofs.Text.Utf16
import Dalvik.Text.ModifiedUtf8

/-!
# Strings are read back

Reading modified UTF-8 takes the characters one by one. Plain UTF-8, which is tried first, either
takes the same character or stops, so that it cannot mistake the string for another one.
-/
namespace Dalvik.Text

variable {a b c d e f : UInt8} {n : Nat}

/-! ## The bytes of a character -/

theorem toNat_byte (h : n < 256) : n.toUInt8.toNat = n := by
  rw [Nat.toUInt8_eq, UInt8.toNat_ofNat', Nat.mod_eq_of_lt h]

theorem continuation?_of (hb : b.toNat = 0x80 + n) (h : n < 0x40) : continuation? b = some n := by
  have hc : 0x80 ≤ b ∧ b < 0xC0 := by
    simp [UInt8.le_iff_toNat_le, UInt8.lt_iff_toNat_lt, hb]
    omega
  simp [continuation?, hc, hb]

theorem twoByteChar?_of (ha : a.toNat = 0xC0 + n / 0x40) (hb : b.toNat = 0x80 + n % 0x40)
    (h1 : 0x80 ≤ n) (h2 : n < 0x800) : twoByteChar? a b = some (Char.ofNat n) := by
  have hc : 0xC2 ≤ a ∧ a < 0xE0 := by
    simp [UInt8.le_iff_toNat_le, UInt8.lt_iff_toNat_lt, ha]
    omega
  have hsum : (a.toNat - 0xC0) * 0x40 + n % 0x40 = n := by omega
  simp [twoByteChar?, hc, continuation?_of hb (Nat.mod_lt _ (by decide)), hsum]

theorem twoByteChar?_eq_none (h : a.toNat < 0xC2 ∨ 0xE0 ≤ a.toNat) : twoByteChar? a b = none := by
  have hc : ¬ (0xC2 ≤ a ∧ a < 0xE0) := by
    simp [UInt8.le_iff_toNat_le, UInt8.lt_iff_toNat_lt]
    omega
  simp only [twoByteChar?, if_neg hc]

theorem threeByteChar?_of (ha : a.toNat = 0xE0 + n / 0x1000) (hb : b.toNat = 0x80 + n / 0x40 % 0x40)
    (hc : c.toNat = 0x80 + n % 0x40) (h1 : 0x800 ≤ n) (h2 : n < 0x10000) :
    threeByteChar? a b c = if 0xD800 ≤ n ∧ n < 0xE000 then none else some (Char.ofNat n) := by
  have hlead : 0xE0 ≤ a ∧ a < 0xF0 := by
    simp [UInt8.le_iff_toNat_le, UInt8.lt_iff_toNat_lt, ha]
    omega
  have hsum : (a.toNat - 0xE0) * 0x1000 + n / 0x40 % 0x40 * 0x40 + n % 0x40 = n := by omega
  have hlow : ¬ n < 0x800 := by omega
  simp [threeByteChar?, hlead, continuation?_of hb (Nat.mod_lt _ (by decide)),
    continuation?_of hc (Nat.mod_lt _ (by decide)), hsum, hlow]

theorem fourByteChar?_eq_none (h : a.toNat < 0xF0) : fourByteChar? a b c d = none := by
  have hc : ¬ (0xF0 ≤ a ∧ a < 0xF5) := by
    simp [UInt8.le_iff_toNat_le]
    omega
  simp only [fourByteChar?, if_neg hc]

/-- Two surrogates give the supplementary character that they come from. -/
theorem surrogateChar?_of (ha : a.toNat = 0xED) (hb : b.toNat = 0xA0 + (n - 0x10000) / 0x10000)
    (hc : c.toNat = 0x80 + (n - 0x10000) / 0x400 % 0x40) (hd : d.toNat = 0xED)
    (he : e.toNat = 0xB0 + (n - 0x10000) % 0x400 / 0x40) (hf : f.toNat = 0x80 + n % 0x40)
    (h1 : 0x10000 ≤ n) (h2 : n < 0x110000) :
    surrogateChar? a b c d e f = some (Char.ofNat n) := by
  have hlead : a = 0xED ∧ 0xA0 ≤ b ∧ b < 0xB0 ∧ d = 0xED ∧ 0xB0 ≤ e ∧ e < 0xC0 := by
    simp [← UInt8.toNat_inj, UInt8.le_iff_toNat_le, UInt8.lt_iff_toNat_lt, ha, hb, hd, he]
    omega
  have hsum : 0x10000 + ((b.toNat - 0xA0) * 0x40 + (n - 0x10000) / 0x400 % 0x40) * 0x400 +
      (e.toNat - 0xB0) * 0x40 + n % 0x40 = n := by omega
  simp [surrogateChar?, hlead, continuation?_of hc (Nat.mod_lt _ (by decide)),
    continuation?_of hf (Nat.mod_lt _ (by decide)), hsum]

theorem not_surrogate (c : Char) : ¬ (0xD800 ≤ c.toNat ∧ c.toNat < 0xE000) := by
  have h : c.toNat < 0xD800 ∨ 0xDFFF < c.toNat ∧ c.toNat < 0x110000 := c.valid
  omega

/-- The bytes that stand for a character. -/
inductive Form (ch : Char) : Bytes → Prop where
  | zero (h : ch.toNat = 0) : Form ch [0xC0, 0x80]
  | one {x : UInt8} (ha : x.toNat = ch.toNat) (h1 : 0 < ch.toNat) (h2 : ch.toNat < 0x80) :
    Form ch [x]
  | two {x y : UInt8} (ha : x.toNat = 0xC0 + ch.toNat / 0x40) (hb : y.toNat = 0x80 + ch.toNat % 0x40)
      (h1 : 0x80 ≤ ch.toNat) (h2 : ch.toNat < 0x800) : Form ch [x, y]
  | three {x y z : UInt8} (ha : x.toNat = 0xE0 + ch.toNat / 0x1000)
      (hb : y.toNat = 0x80 + ch.toNat / 0x40 % 0x40) (hc : z.toNat = 0x80 + ch.toNat % 0x40)
      (h1 : 0x800 ≤ ch.toNat) (h2 : ch.toNat < 0x10000) : Form ch [x, y, z]
  | six {u v w x y z : UInt8} (ha : u.toNat = 0xED)
      (hb : v.toNat = 0xA0 + (ch.toNat - 0x10000) / 0x10000)
      (hc : w.toNat = 0x80 + (ch.toNat - 0x10000) / 0x400 % 0x40) (hd : x.toNat = 0xED)
      (he : y.toNat = 0xB0 + (ch.toNat - 0x10000) % 0x400 / 0x40)
      (hf : z.toNat = 0x80 + ch.toNat % 0x40) (h1 : 0x10000 ≤ ch.toNat) : Form ch [u, v, w, x, y, z]

theorem form_encodeChar (ch : Char) : Form ch (encodeChar ch) := by
  have hlt := toNat_lt ch
  simp only [encodeChar]
  split_ifs with h0 h1 h2
  · exact .zero h0
  · exact .one (toNat_byte (by omega)) (by omega) h1
  · exact .two (toNat_byte (by omega)) (toNat_byte (by omega)) (by omega) h2
  · simp only [units]
    split_ifs with h3
    · have hu : ch.toNat.toUInt16.toNat = ch.toNat := by
        rw [Nat.toUInt16_eq, UInt16.toNat_ofNat', Nat.mod_eq_of_lt h3]
      simp only [List.flatMap_cons, List.flatMap_nil, List.append_nil, hu]
      exact .three (toNat_byte (by omega)) (toNat_byte (by omega)) (toNat_byte (by omega))
        (by omega) h3
    · have hhigh : (0xD800 + (ch.toNat - 0x10000) / 0x400).toUInt16.toNat =
          0xD800 + (ch.toNat - 0x10000) / 0x400 := by
        rw [Nat.toUInt16_eq, UInt16.toNat_ofNat', Nat.mod_eq_of_lt (by omega)]
      have hlow : (0xDC00 + (ch.toNat - 0x10000) % 0x400).toUInt16.toNat =
          0xDC00 + (ch.toNat - 0x10000) % 0x400 := by
        rw [Nat.toUInt16_eq, UInt16.toNat_ofNat', Nat.mod_eq_of_lt (by omega)]
      simp only [List.flatMap_cons, List.flatMap_nil, List.append_nil, hhigh, hlow, threeBytes,
        List.cons_append, List.nil_append]
      apply Form.six
      · rw [toNat_byte] <;> omega
      · rw [toNat_byte] <;> omega
      · rw [toNat_byte] <;> omega
      · rw [toNat_byte] <;> omega
      · rw [toNat_byte] <;> omega
      · rw [toNat_byte] <;> omega
      · omega

/-! ## Single characters -/

/-- Modified UTF-8 takes every character that has been written. -/
theorem Form.takeModified {ch : Char} {bytes : Bytes} (h : Form ch bytes) (rest : Bytes) :
    takeModified (bytes ++ rest) = some (ch, rest) := by
  have hlt := toNat_lt ch
  have hch := Char.ofNat_toNat ch
  cases h with
  | zero h =>
    rw [h] at hch
    simpa [Text.takeModified] using hch
  | one ha h1 h2 =>
    rename_i a
    have : a < 0x80 := by simp [UInt8.lt_iff_toNat_lt, ha, h2]
    simp [Text.takeModified, this, ha, hch]
  | two ha hb h1 h2 =>
    rename_i a b
    have h80 : ¬ a < 0x80 := by
      simp [UInt8.lt_iff_toNat_lt, ha]
      omega
    have hz : ¬ (a = 0xC0 ∧ b = 0x80) := by
      simp [← UInt8.toNat_inj, ha, hb]
      omega
    simp [Text.takeModified, h80, hz, twoByteChar?_of ha hb h1 h2, hch]
  | three ha hb hc h1 h2 =>
    rename_i a b c
    have h80 : ¬ a < 0x80 := by
      simp [UInt8.lt_iff_toNat_lt, ha]
      omega
    have hz : ¬ (a = 0xC0 ∧ b = 0x80) := by
      simp [← UInt8.toNat_inj, ha]
      omega
    simp [Text.takeModified, h80, hz, twoByteChar?_eq_none (.inr (by omega : 0xE0 ≤ a.toNat)),
      threeByteChar?_of ha hb hc h1 h2, not_surrogate ch, hch]
  | six ha hb hc hd he hf h1 =>
    rename_i a b c d e f
    have h80 : ¬ a < 0x80 := by simp [UInt8.lt_iff_toNat_lt, ha]
    have hz : ¬ (a = 0xC0 ∧ b = 0x80) := by simp [← UInt8.toNat_inj, ha]
    -- the first three bytes alone would be a surrogate
    have hthree : threeByteChar? a b c = none := by
      rw [threeByteChar?_of (n := 0xD800 + (ch.toNat - 0x10000) / 0x400) (by omega) (by omega)
        (by omega) (by omega) (by omega), if_pos (by omega)]
    simp [Text.takeModified, h80, hz, twoByteChar?_eq_none (.inr (by omega : 0xE0 ≤ a.toNat)), hthree,
      surrogateChar?_of ha hb hc hd he hf h1 hlt, hch]

/-- Plain UTF-8 takes no other character than the one that has been written. -/
theorem Form.takeUtf8 {ch : Char} {bytes : Bytes} (h : Form ch bytes) (rest : Bytes) :
    takeUtf8 (bytes ++ rest) = none ∨ takeUtf8 (bytes ++ rest) = some (ch, rest) := by
  have hlt := toNat_lt ch
  have hch := Char.ofNat_toNat ch
  cases h with
  | zero h =>
    left
    have htwo : twoByteChar? 0xC0 0x80 = none := twoByteChar?_eq_none (.inl (by decide))
    have hthree (c : UInt8) : threeByteChar? 0xC0 0x80 c = none := by simp [threeByteChar?]
    have hfour (c d : UInt8) : fourByteChar? 0xC0 0x80 c d = none :=
      fourByteChar?_eq_none (by decide)
    rcases rest with _ | ⟨c, _ | ⟨d, rest⟩⟩ <;> simp [Text.takeUtf8, htwo, hthree, hfour]
  | one ha h1 h2 =>
    right
    rename_i a
    have : a < 0x80 := by simp [UInt8.lt_iff_toNat_lt, ha, h2]
    simp [Text.takeUtf8, this, ha, hch]
  | two ha hb h1 h2 =>
    right
    rename_i a b
    have h80 : ¬ a < 0x80 := by
      simp [UInt8.lt_iff_toNat_lt, ha]
      omega
    simp [Text.takeUtf8, h80, twoByteChar?_of ha hb h1 h2, hch]
  | three ha hb hc h1 h2 =>
    right
    rename_i a b c
    have h80 : ¬ a < 0x80 := by
      simp [UInt8.lt_iff_toNat_lt, ha]
      omega
    simp [Text.takeUtf8, h80, twoByteChar?_eq_none (.inr (by omega : 0xE0 ≤ a.toNat)),
      threeByteChar?_of ha hb hc h1 h2, not_surrogate ch, hch]
  | six ha hb hc hd he hf h1 =>
    left
    rename_i a b c d e f
    have h80 : ¬ a < 0x80 := by simp [UInt8.lt_iff_toNat_lt, ha]
    have hthree : threeByteChar? a b c = none := by
      rw [threeByteChar?_of (n := 0xD800 + (ch.toNat - 0x10000) / 0x400) (by omega) (by omega)
        (by omega) (by omega) (by omega), if_pos (by omega)]
    simp [Text.takeUtf8, h80, twoByteChar?_eq_none (.inr (by omega : 0xE0 ≤ a.toNat)), hthree,
      fourByteChar?_eq_none (by omega : a.toNat < 0xF0)]

theorem encodeChar_ne_nil (ch : Char) : encodeChar ch ≠ [] := by
  intro h
  have hf := form_encodeChar ch
  rw [h] at hf
  cases hf

theorem Form.zero_notMem {ch : Char} {bytes : Bytes} (h : Form ch bytes) : 0 ∉ bytes := by
  have h0 : (0 : UInt8).toNat = 0 := rfl
  cases h <;> simp [← UInt8.toNat_inj] <;> omega

/-! ## Strings -/

theorem decodeWith_nil {take : Bytes → Option (Char × Bytes)} (room : Nat) (found : List Char) :
    decodeWith take room found [] = some found.reverse := by
  cases room <;> rfl

theorem decodeWith_cons {take : Bytes → Option (Char × Bytes)} {room : Nat} {found : List Char}
    {bytes : Bytes} (h : bytes ≠ []) :
    decodeWith take (room + 1) found bytes = (take bytes).bind fun (c, rest) =>
      decodeWith take room (c :: found) rest := by
  cases bytes with
  | nil => exact absurd rfl h
  | cons b bytes => rfl

theorem decodeWith_takeModified (chars : List Char) {room : Nat} (found : List Char)
    (h : chars.length ≤ room) :
    decodeWith takeModified room found (chars.flatMap encodeChar) = some (found.reverse ++ chars) := by
  induction chars generalizing room found with
  | nil => simp [decodeWith_nil]
  | cons ch chars ih =>
    cases room with
    | zero => simp at h
    | succ room =>
      have hne : encodeChar ch ++ chars.flatMap encodeChar ≠ [] := by simp [encodeChar_ne_nil]
      have htake := (form_encodeChar ch).takeModified (chars.flatMap encodeChar)
      have hrest := ih (ch :: found) (Nat.le_of_succ_le_succ h)
      rw [List.flatMap_cons, decodeWith_cons hne, htake]
      simpa using hrest

theorem decodeWith_takeUtf8 (chars : List Char) (room : Nat) (found : List Char) :
    decodeWith takeUtf8 room found (chars.flatMap encodeChar) = none ∨
      decodeWith takeUtf8 room found (chars.flatMap encodeChar) = some (found.reverse ++ chars) := by
  induction chars generalizing room found with
  | nil => simp [decodeWith_nil]
  | cons ch chars ih =>
    have hne : encodeChar ch ++ chars.flatMap encodeChar ≠ [] := by simp [encodeChar_ne_nil]
    cases room with
    | zero =>
      left
      rw [List.flatMap_cons]
      cases hb : encodeChar ch ++ chars.flatMap encodeChar with
      | nil => exact absurd hb hne
      | cons b bytes => rfl
    | succ room =>
      rw [List.flatMap_cons, decodeWith_cons hne]
      rcases (form_encodeChar ch).takeUtf8 (chars.flatMap encodeChar) with h | h
      · simp [h]
      · simpa [h] using ih room (ch :: found)

theorem length_le_length_encodeModified (s : String) : s.toList.length ≤ (encodeModified s).length := by
  unfold encodeModified
  induction s.toList with
  | nil => simp
  | cons ch chars ih =>
    have := List.length_pos_of_ne_nil (encodeChar_ne_nil ch)
    simp only [List.flatMap_cons, List.length_append, List.length_cons]
    omega

theorem decodeModified?_encodeModified (s : String) :
    decodeModified? (encodeModified s) = some s := by
  have hm := decodeWith_takeModified s.toList [] (length_le_length_encodeModified s)
  have hu := decodeWith_takeUtf8 s.toList (encodeModified s).length []
  change decodeWith takeModified _ [] (encodeModified s) = _ at hm
  change decodeWith takeUtf8 _ [] (encodeModified s) = _ ∨
    decodeWith takeUtf8 _ [] (encodeModified s) = _ at hu
  unfold decodeModified?
  rcases hu with h | h
  · simp [h, hm]
  · simp [h]

theorem zero_notMem_encodeModified (s : String) : 0 ∉ encodeModified s := by
  simp only [encodeModified, List.mem_flatMap, not_exists, not_and]
  exact fun ch _ => (form_encodeChar ch).zero_notMem

/-! ## Stored strings -/

theorem length_units_le (ch : Char) : (units ch).length ≤ (encodeChar ch).length := by
  have hform := form_encodeChar ch
  generalize encodeChar ch = bytes at hform
  unfold units
  cases hform <;> split <;> simp
  omega

theorem utf16Length_le_length_encodeModified (s : String) :
    utf16Length s ≤ (encodeModified s).length := by
  rw [← length_utf16Units, utf16Units, encodeModified]
  induction s.toList with
  | nil => exact Nat.le_refl 0
  | cons ch chars ih =>
    rw [List.flatMap_cons, List.flatMap_cons, List.length_append, List.length_append]
    exact Nat.add_le_add (length_units_le ch) ih

/-- The first zero byte from a place on is the one behind the string. -/
theorem findIdx?_of_stands {part : Bytes} {bytes : ByteArray} {index : Nat} (h0 : 0 ∉ part)
    (hs : (part ++ [0]).Stands bytes index) :
    bytes.findIdx? (· == 0) index = some (index + part.length) := by
  unfold ByteArray.findIdx?
  induction part generalizing index with
  | nil =>
    obtain ⟨hlt, hget⟩ := hs.head
    rw [ByteArray.findIdx?.loop, dif_pos hlt, hget]
    rfl
  | cons b part ih =>
    obtain ⟨hlt, hget⟩ := hs.head
    have hb : b ≠ 0 := fun h => h0 (h ▸ List.mem_cons_self)
    have hafter := Bytes.Stands.right (show Bytes.Stands ([b] ++ (part ++ [0])) bytes index from hs)
    have hrest := ih (fun h => h0 (List.mem_cons_of_mem b h)) hafter
    rw [ByteArray.findIdx?.loop, dif_pos hlt, hget, if_neg (by simp [hb])]
    rw [List.length_cons, Nat.add_comm part.length 1, ← Nat.add_assoc]
    exact hrest

/-- Wherever a stored string lies it is read back, unless its length has been cut to 32 bits. -/
theorem decodeStringData_of_stands {s : String} {bytes : ByteArray} {index : Nat}
    (hs : (encodeStringData s).Stands bytes index) :
    decodeStringData bytes index =
      if utf16Length s < UInt32.size then .ok s (index + (encodeStringData s).length)
      else Decoder.fail (.stringLength index (utf16Length s % UInt32.size) (utf16Length s)) bytes
        (index + (Bytes.ulebNat (utf16Length s)).length) := by
  simp only [encodeStringData, List.append_assoc] at hs ⊢
  have hcount : Decoder.uleb bytes index = .ok (UInt32.ofNat (utf16Length s))
      (index + (Bytes.ulebNat (utf16Length s)).length) := Decoder.uleb_reads _ hs.left
  have hlast := findIdx?_of_stands (zero_notMem_encodeModified s) hs.right
  have hpart := hs.right.left.extract
  have hinside := hs.right.inside (by simp)
  rw [List.length_append, ← Nat.add_assoc] at hinside
  have hslice := Access.slice_eq_ok (Nat.le_add_right _ _) (Nat.le_of_succ_le hinside)
  have hfits : utf16Length s = utf16Length s % UInt32.size ↔ utf16Length s < UInt32.size :=
    ⟨fun h => h ▸ Nat.mod_lt _ (by decide), fun h => (Nat.mod_eq_of_lt h).symm⟩
  rw [decodeStringData, Decoder.position_bind, Decoder.bind_of_ok hcount, Decoder.position_bind,
    Decoder.input_bind, hlast]
  dsimp only
  rw [Decoder.lift_of_ok hslice, hpart, decodeModified?_encodeModified]
  dsimp only
  rw [UInt32.toNat_ofNat', if_congr hfits rfl rfl]
  split
  · rw [Decoder.seek_bind]
    simp only [List.length_append, List.length_singleton, ← Nat.add_assoc]
    rfl
  · rfl

theorem decodeStringData_reads {s : String} (hl : (encodeStringData s).length < UInt32.size) :
    decodeStringData.Reads (encodeStringData s) s := by
  intro bytes index hs
  have hlength := utf16Length_le_length_encodeModified s
  rw [decodeStringData_of_stands hs, if_pos]
  simp only [encodeStringData, List.length_append] at hl
  omega

/-! ## Written strings -/

theorem writeStringData_eq (s : String) (before : Bytes) :
    (writeStringData s).run before = ((encodeStringData s).length, before ++ encodeStringData s) := by
  have hrun : (writeStringData s).run before =
      ((Bytes.ulebNat (utf16Length s)).length + (encodeModified s).length + 1,
        before ++ Bytes.ulebNat (utf16Length s) ++ encodeModified s ++ [0]) := rfl
  simp [hrun, encodeStringData, Nat.add_assoc]

/-- Every string is written behind what there is, with the number of its bytes as the answer, and is
read back whatever follows; reading stops where that begins. Behind the length no byte is zero but
the last one. The length is the number of UTF-16 units in 32 bits, so that a string with more of them
is refused for its length and never taken for another string. -/
theorem decodeAt_writeStringData (s : String) (before after : Bytes) :
    ∃ part text, (writeStringData s).run before = (part.length, before ++ part) ∧
      part = Bytes.ulebNat (utf16Units s).length ++ text ++ [0] ∧ 0 ∉ text ∧
      decodeStringData.decodeAt (before ++ part ++ after).toByteArray before.length =
        if (utf16Units s).length < 2 ^ 32 then .ok (s, before.length + part.length)
        else Result.malformed (.stringLength before.length ((utf16Units s).length % 2 ^ 32)
          (utf16Units s).length) := by
  rw [length_utf16Units]
  refine ⟨encodeStringData s, encodeModified s, writeStringData_eq s before, rfl,
    zero_notMem_encodeModified s, ?_⟩
  rw [Decoder.decodeAt, decodeStringData_of_stands (Bytes.stands_toByteArray before _ after)]
  by_cases hl : utf16Length s < UInt32.size
  · rw [if_pos hl]
    exact (if_pos hl).symm
  · rw [if_neg hl]
    exact (if_neg hl).symm

/-- A zero character and a pair of surrogates. -/
example : encodeStringData "a\x00𝄞" =
    [4, 0x61, 0xC0, 0x80, 0xED, 0xA0, 0xB4, 0xED, 0xB4, 0x9E, 0] := by
  cbv

end Dalvik.Text
