import Dalvik.Debug.OffsetTable
import Dalvik.Proofs.Leb128

/-!
# The table of debug information is looked up

The bits below that of a method count the differences before its own, so that adding up so many of
them and one more gives the offset of the method.
-/
namespace Dalvik.DebugTable

variable {bytes : ByteArray} {offset : UInt32}

/-! ## Blocks -/

theorem getElem?_blocks {count i : Nat} {offsets : List UInt32} (hc : offsets.length ≤ count)
    (hi : i * blockSize < offsets.length) :
    (blocks count offsets)[i]? = some ((offsets.drop (i * blockSize)).take blockSize) := by
  induction count generalizing offsets i with
  | zero => omega
  | succ count ih =>
    cases offsets with
    | nil => simp at hi
    | cons o offsets =>
      cases i with
      | zero => simp [blocks]
      | succ i =>
        have hsize : blockSize = 16 := rfl
        have hmul : (i + 1) * blockSize = i * blockSize + blockSize := Nat.succ_mul i blockSize
        have hrest := @ih i ((o :: offsets).drop blockSize)
          (by rw [List.length_drop, List.length_cons] at *; omega)
          (by rw [List.length_drop]; omega)
        rw [List.drop_drop, Nat.add_comm, ← hmul] at hrest
        simpa [blocks] using hrest

theorem mask_lt (block : List UInt32) : mask block < 2 ^ block.length := by
  induction block with
  | nil => simp [mask]
  | cons o block ih =>
    rw [mask, List.length_cons, Nat.pow_succ]
    split <;> omega

theorem testBit_zero_mask (o : UInt32) (block : List UInt32) :
    (mask (o :: block)).testBit 0 = (o != 0) := by
  by_cases h : o = 0 <;> simp [mask, h, Nat.testBit_zero]

theorem mask_div_two (o : UInt32) (block : List UInt32) : mask (o :: block) / 2 = mask block := by
  rw [mask]
  split <;> omega

theorem testBit_mask {block : List UInt32} {i : Nat} (h : block[i]? = some offset) :
    (mask block).testBit i = (offset != 0) := by
  induction block generalizing i with
  | nil => simp at h
  | cons o block ih =>
    cases i with
    | zero =>
      have ho : o = offset := by simpa using h
      rw [testBit_zero_mask, ho]
    | succ i => rw [Nat.testBit_succ, mask_div_two, ih (by simpa using h)]

theorem bitsBelow_succ (bits count : Nat) :
    bitsBelow bits (count + 1) = bitsBelow (bits / 2) count + if bits.testBit 0 then 1 else 0 := by
  simp only [bitsBelow, List.range_succ_eq_map, List.countP_cons, List.countP_map]
  congr 2
  funext i
  exact Nat.testBit_succ bits i

/-- The differences up to that of a method add up to its offset. -/
theorem accumulate_eq {block : List UInt32} {i : Nat} (h : block[i]? = some offset) (hne : offset ≠ 0)
    (previous : UInt32) {index : Nat} (hs : (differences previous block).Stands bytes index) :
    ∃ after, accumulate previous (bitsBelow (mask block) i + 1) bytes index = .ok offset after := by
  induction block generalizing i previous index with
  | nil => simp at h
  | cons o block ih =>
    rw [differences] at hs
    by_cases ho : o = 0
    · rw [if_pos ho] at hs
      cases i with
      | zero =>
        have he : o = offset := by simpa using h
        exact absurd (he ▸ ho) hne
      | succ i =>
        have hrest := ih (by simpa using h) previous hs
        rw [bitsBelow_succ, testBit_zero_mask, mask_div_two]
        simpa [ho] using hrest
    · rw [if_neg ho] at hs
      have hread := Decoder.uleb_reads (o - previous) hs.left
      have hsum : previous + (o - previous) = o := by grind
      cases i with
      | zero =>
        have he : o = offset := by simpa using h
        subst he
        rw [show bitsBelow (mask (o :: block)) 0 = 0 from rfl, accumulate, Decoder.bind_of_ok hread,
          hsum]
        exact ⟨_, rfl⟩
      | succ i =>
        obtain ⟨after, hrest⟩ := ih (by simpa using h) o hs.right
        rw [bitsBelow_succ, testBit_zero_mask, mask_div_two]
        simp only [bne_iff_ne, ne_eq, ho, not_false_eq_true, if_true]
        rw [accumulate, Decoder.bind_of_ok hread, hsum]
        exact ⟨after, hrest⟩

/-! ## The index of the blocks -/

theorem length_starts (base : Nat) (parts : List Bytes) :
    (starts base parts).length = parts.length := by
  induction parts generalizing base with
  | nil => rfl
  | cons p parts ih => simp [starts, ih]

theorem length_index (base : Nat) (parts : List Bytes) :
    ((starts base parts).flatMap Bytes.u4).length = 4 * parts.length := by
  simp [List.length_flatMap, length_starts, Nat.mul_comm]

theorem starts_spec {parts : List Bytes} {table base i : Nat} {part : Bytes}
    (hs : Bytes.Stands parts.flatten bytes (table + base))
    (hfit : base + parts.flatten.length < UInt32.size) (hget : parts[i]? = some part) :
    ∃ start, (starts base parts)[i]? = some start ∧ part.Stands bytes (table + start.toNat) := by
  induction parts generalizing base i with
  | nil => simp at hget
  | cons p parts ih =>
    rw [List.flatten_cons] at hs
    rw [List.flatten_cons, List.length_append] at hfit
    cases i with
    | zero =>
      have hp : p = part := by simpa using hget
      subst hp
      have hnat : (UInt32.ofNat base).toNat = base := UInt32.toNat_ofNat_of_lt' (by omega)
      exact ⟨UInt32.ofNat base, rfl, by rw [hnat]; exact hs.left⟩
    | succ i =>
      have hright := hs.right
      rw [Nat.add_assoc] at hright
      exact ih hright (by omega) (by simpa using hget)

/-- The index leads to every block. -/
theorem exists_block {offsets : List UInt32} {table i : Nat} (hs : (encode offsets).Stands bytes table)
    (hl : (encode offsets).length < UInt32.size) (hi : i * blockSize < offsets.length) :
    ∃ start : UInt32, (Bytes.u4 start).Stands bytes (table + i * 4) ∧
      (encodeBlock (base offsets) ((offsets.drop (i * blockSize)).take blockSize)).Stands bytes
        (table + start.toNat) := by
  have hblock := getElem?_blocks (Nat.le_refl offsets.length) hi
  unfold encode at hs hl
  dsimp only at hs hl
  have hpart : ((blocks offsets.length offsets).map (encodeBlock (base offsets)))[i]? =
      some (encodeBlock (base offsets) ((offsets.drop (i * blockSize)).take blockSize)) := by
    simp [hblock]
  generalize (blocks offsets.length offsets).map (encodeBlock (base offsets)) = parts at hs hl hpart
  have hbody := hs.right
  rw [List.length_append, length_index] at hl
  rw [length_index] at hbody
  obtain ⟨start, hstart, hstands⟩ := starts_spec hbody hl hpart
  have hentries := hs.left
  rw [List.flatMap_def] at hentries
  exact ⟨start, hentries.getElem?_flatten (by simp) (by simp [hstart]), hstands⟩

/-- The offset of a method is found in the table. -/
theorem lookup_eq {offsets : List UInt32} {table : Nat} (htable : 0 < table)
    (hs : (encode offsets).Stands bytes table) (hl : (encode offsets).length < UInt32.size)
    {method : UInt32}
    (hget : offsets[method.toNat]? = some offset) :
    (lookup table 0 (base offsets) offsets.length method).valueAt bytes 0 = .ok offset := by
  have hsize : blockSize = 16 := rfl
  have hmethod : method.toNat < offsets.length := (List.getElem?_eq_some_iff.mp hget).1
  have hdiv : (method / UInt32.ofNat blockSize).toNat = method.toNat / blockSize := by
    rw [UInt32.toNat_div]
    rfl
  generalize hi : method.toNat / blockSize = i at hdiv
  have hle : i * blockSize ≤ method.toNat := hi ▸ Nat.div_mul_le_self _ _
  obtain ⟨start, hentry, hblock⟩ := exists_block hs hl (Nat.lt_of_le_of_lt hle hmethod)
  -- the bits of the block and the one of the method among them
  generalize hb : (offsets.drop (i * blockSize)).take blockSize = block at hblock
  have hbit : block[method.toNat % blockSize]? = some offset := by
    have hmod : i * blockSize + method.toNat % blockSize = method.toNat := by
      rw [← hi, Nat.mul_comm]
      exact Nat.div_add_mod _ _
    rw [← hb, List.getElem?_take_of_lt (Nat.mod_lt _ (by decide)), List.getElem?_drop, hmod, hget]
  have hmask : mask block < 65536 := by
    have hlen : block.length ≤ 16 := hb ▸ List.length_take_le _ _
    exact Nat.lt_of_lt_of_le (mask_lt block) (Nat.pow_le_pow_right (by decide) hlen)
  have hbits : (mask block / 256).toUInt8.toNat * 256 + (mask block).toUInt8.toNat = mask block := by
    simp
    omega
  have hstands : Bytes.Stands (Bytes.u1 (mask block / 256).toUInt8 ++
      (Bytes.u1 (mask block).toUInt8 ++ differences (base offsets) block)) bytes
      (table + start.toNat) := hblock
  have hread := Decoder.u4_reads start hentry
  have hhigh := Decoder.u1_reads _ hstands.left
  have hlow := Decoder.u1_reads _ hstands.right.left
  have hcheck : checkIndex "debug info table" (method / UInt32.ofNat blockSize)
      ((offsets.length + blockSize - 1) / blockSize) = .ok i := by
    rw [checkIndex, hdiv, if_pos (by rw [hsize] at hi ⊢; omega)]
  have hrun : ∃ after, lookup table 0 (base offsets) offsets.length method bytes 0 =
      .ok offset after := by
    rw [lookup, if_neg (by omega), Decoder.lift_of_ok hcheck, Decoder.seek_bind, Nat.add_zero,
      Decoder.bind_of_ok hread, Decoder.seek_bind, Decoder.bind_of_ok hhigh]
    dsimp only
    rw [Decoder.bind_of_ok hlow, hbits, testBit_mask hbit]
    by_cases hzero : offset = 0
    · subst hzero
      exact ⟨_, rfl⟩
    · rw [if_pos (by simpa using hzero)]
      exact accumulate_eq hbit hzero _ hstands.right.right
  obtain ⟨after, hrun⟩ := hrun
  simp only [Decoder.valueAt, hrun]

/-! ## How many bytes the table takes -/

theorem length_differences_le (previous : UInt32) (block : List UInt32) :
    (differences previous block).length ≤ 5 * block.length := by
  induction block generalizing previous with
  | nil => exact Nat.le_refl _
  | cons o block ih =>
    rw [differences, List.length_cons]
    split
    · exact (ih previous).trans (by omega)
    · have hfive := Bytes.length_uleb_le (o - previous)
      have hrest := ih o
      rw [List.length_append]
      omega

/-- Every block takes an entry of the index, its bits and its differences. -/
theorem length_parts_le (base : UInt32) (count : Nat) (offsets : List UInt32) :
    let parts := (blocks count offsets).map (encodeBlock base)
    4 * parts.length + parts.flatten.length ≤
      5 * offsets.length + 6 * ((offsets.length + 15) / 16) := by
  induction count generalizing offsets with
  | zero => simp [blocks]
  | succ count ih =>
    cases offsets with
    | nil => simp [blocks]
    | cons o offsets =>
      have hrest := ih ((o :: offsets).drop blockSize)
      have hfirst := length_differences_le base ((o :: offsets).take blockSize)
      have hsize : blockSize = 16 := rfl
      simp only [blocks, encodeBlock, List.map_cons, List.length_cons, List.flatten_cons,
        List.length_append, List.length_drop, List.length_take] at hrest hfirst ⊢
      omega

theorem length_encode_le (offsets : List UInt32) :
    (encode offsets).length ≤ 5 * offsets.length + 6 * ((offsets.length + 15) / 16) := by
  have h := length_parts_le (base offsets) offsets.length offsets
  dsimp only at h
  rwa [encode, List.length_append, length_index]

/-- In the table for any number of methods, whatever offsets they have or share and in whichever order,
every method finds its own offset, or 0 if it has none. The table stands behind something, as 0 is
nobody's offset, and has a length of 32 bits, as it has for far more methods than a file can hold. -/
theorem lookup_encode (offsets : List UInt32) :
    (offsets.length ≤ 2 ^ 29 → (encode offsets).length < UInt32.size) ∧
      ((encode offsets).length < UInt32.size → ∀ before after : Bytes, before ≠ [] →
        ∀ (method : UInt32) (h : method.toNat < offsets.length),
          (lookup before.length 0 (base offsets) offsets.length method).valueAt
            (before ++ encode offsets ++ after).toByteArray 0 = .ok offsets[method.toNat]) := by
  constructor
  · intro hmany
    have hle := length_encode_le offsets
    have hsize : UInt32.size = 2 ^ 32 := rfl
    omega
  · intro hl before after hbefore method hmethod
    exact lookup_eq (List.length_pos_of_ne_nil hbefore) (Bytes.stands_toByteArray _ _ _) hl
      (List.getElem?_eq_getElem hmethod)

/-- Offsets that are shared and descend, and one method in a second block. -/
def scatteredOffsets : List UInt32 :=
  [0x300, 0, 0x100, 0x300, 0, 0, 0, 0, 0, 0, 0, 0, 0, 0, 0xfffffff0, 0x80, 0x90]

theorem lookup_encode_scattered : scatteredOffsets.length ≤ 2 ^ 29 ∧ ([0xff] : Bytes) ≠ [] ∧
    (15 : UInt32).toNat < scatteredOffsets.length ∧
      (lookup 1 0 (base scatteredOffsets) 17 15).valueAt
        ([0xff] ++ encode scatteredOffsets ++ []).toByteArray 0 = .ok 0x80 := by
  have hmany : scatteredOffsets.length ≤ 2 ^ 29 := by decide
  obtain ⟨hlength, hfind⟩ := lookup_encode scatteredOffsets
  exact ⟨hmany, by decide, by decide, hfind (hlength hmany) [0xff] [] (by decide) 15 (by decide)⟩

end Dalvik.DebugTable
