import Dalvik.Decoder
import Mathlib

/-!
# What a decoder reads

`d.Reads part a` says that wherever the bytes `part` lie, `d` gives `a` and leaves the cursor right
behind them, whatever follows. The law of an encoding is stated in this form, so that the laws of
the parts compose to the law of the whole.
-/
namespace Dalvik

/-! ## Bytes inside a longer sequence -/

theorem toList_byteArray (bytes : ByteArray) : bytes.toList = bytes.data.toList := by
  have loop (i : Nat) (acc : List UInt8) :
      ByteArray.toList.loop bytes i acc = acc.reverse ++ bytes.data.toList.drop i := by
    fun_induction ByteArray.toList.loop bytes i acc with
    | case1 i acc h ih =>
      have hi : i < bytes.data.toList.length := by simpa using h
      rw [ih, List.drop_eq_getElem_cons hi]
      simp [ByteArray.get!, getElem!_pos bytes.data i (by simpa using h)]
    | case2 i acc h => simp [List.drop_eq_nil_of_le (show bytes.data.toList.length ≤ i by
        simpa using h)]
  simpa [ByteArray.toList] using loop 0 []

/-- A position behind the first byte is not taken for a missing offset. -/
theorem ofNat_ne_zero {n : Nat} (hpos : 0 < n) (hn : n < UInt32.size) : UInt32.ofNat n ≠ 0 := by
  intro h
  have hnat : (UInt32.ofNat n).toNat = n := UInt32.toNat_ofNat_of_lt' hn
  rw [h] at hnat
  exact absurd hnat.symm (Nat.ne_of_gt hpos)

theorem alignUp_mod (value k : Nat) : alignUp value (2 ^ k) % 2 ^ k = 0 := by
  have hmod : value + (2 ^ k - 1) &&& 2 ^ k - 1 = (value + (2 ^ k - 1)) % 2 ^ k :=
    Nat.and_two_pow_sub_one_eq_mod _ _
  simp only [alignUp, hmod]
  exact Nat.sub_mod_eq_zero_of_mod_eq (Nat.mod_mod _ _).symm

/-- What replaces a part of the same length leaves the rest in place. -/
theorem overwrite_append {before part after new : Bytes} {position : Nat}
    (hposition : before.length = position) (hlength : new.length = part.length) :
    Bytes.overwrite (before ++ (part ++ after)) position new = before ++ (new ++ after) := by
  subst hposition
  rw [Bytes.overwrite, List.take_left, ← List.drop_drop, List.drop_left, hlength, List.drop_left,
    List.append_assoc]

namespace Bytes.Stands
variable {part rest : Bytes} {bytes : ByteArray} {index : Nat}

theorem left (h : (part ++ rest).Stands bytes index) : part.Stands bytes index :=
  (List.prefix_append part rest).trans h

theorem right (h : (part ++ rest).Stands bytes index) :
    rest.Stands bytes (index + part.length) := by
  obtain ⟨after, h⟩ := h
  refine ⟨after, ?_⟩
  rw [← List.drop_drop, ← h]
  simp

theorem nil : Stands [] bytes index := List.nil_prefix

theorem length_le (h : part.Stands bytes index) : part.length ≤ bytes.size - index := by
  simpa using List.IsPrefix.length_le h

theorem length_lt (h : part.Stands bytes index) {n : Nat} (hn : bytes.size < n) : part.length < n := by
  have hle := h.length_le
  omega

theorem inside (h : part.Stands bytes index) (hne : part ≠ []) :
    index + part.length ≤ bytes.size := by
  have hlen := h.length_le
  have hpos := List.length_pos_of_ne_nil hne
  omega

/-- One of several parts of the same length. -/
theorem getElem?_flatten {parts : List Bytes} {size i : Nat} (hl : ∀ p ∈ parts, p.length = size)
    (h : Stands parts.flatten bytes index) (hi : parts[i]? = some part) :
    part.Stands bytes (index + i * size) := by
  induction parts generalizing index i with
  | nil => simp at hi
  | cons p parts ih =>
    cases i with
    | zero =>
      have hp : p = part := by simpa using hi
      subst hp
      simpa using h.left
    | succ i =>
      have hp : p.length = size := hl p (by simp)
      have hrest := ih (fun q hq => hl q (by simp [hq])) h.right (by simpa using hi)
      rwa [hp, Nat.add_assoc, Nat.add_comm size, ← Nat.succ_mul] at hrest

theorem getElem? (h : part.Stands bytes index) {i : Nat} (hi : i < part.length) :
    bytes[index + i]? = some part[i] := by
  have hle := h.length_le
  have hb : index + i < bytes.size := by omega
  obtain ⟨after, h⟩ := h
  rw [getElem?_pos bytes (index + i) hb, ByteArray.getElem_eq_getElem_data]
  have := congrArg (·[i]?) h
  simp only [List.getElem?_drop, List.getElem?_append_left hi, List.getElem?_eq_getElem hi,
    Array.getElem?_toList] at this
  rw [Array.getElem?_eq_getElem (by simpa using hb)] at this
  simpa using this.symm

theorem head {b : UInt8} (h : Stands (b :: part) bytes index) :
    ∃ hlt : index < bytes.size, bytes[index] = b := by
  have hlen := h.length_le
  have hlt : index < bytes.size := by
    simp at hlen
    omega
  have hget := h.getElem? (i := 0) (by simp)
  rw [Nat.add_zero, getElem?_pos bytes index hlt] at hget
  exact ⟨hlt, Option.some.inj hget⟩

theorem extract (h : part.Stands bytes index) :
    (bytes.extract index (index + part.length)).toList = part := by
  obtain ⟨after, h⟩ := h
  rw [toList_byteArray, ByteArray.data_extract, Array.toList_extract, List.extract_eq_take_drop, ← h]
  simp

/-- What stands behind the first `k` bytes of a part. -/
theorem extract_drop (h : part.Stands bytes index) {k : Nat} (hk : k ≤ part.length) :
    (bytes.extract (index + k) (index + part.length)).toList = part.drop k := by
  have hsplit := List.take_append_drop k part
  rw [← hsplit] at h
  have hrest := h.right.extract
  rw [List.length_take, Nat.min_eq_left hk, List.length_drop, Nat.add_assoc,
    Nat.add_sub_cancel' hk] at hrest
  exact hrest

/-- What stands in the first `limit` bytes. -/
theorem take {limit : Nat} (h : part.Stands bytes index) (hl : index + part.length ≤ limit) :
    part.Stands (bytes.extract 0 limit) index := by
  obtain ⟨after, h⟩ := h
  refine ⟨after.take (limit - index - part.length), ?_⟩
  rw [ByteArray.data_extract, Array.toList_extract, List.extract_eq_take_drop, Nat.sub_zero,
    List.drop_zero, List.drop_take, ← h, List.take_append,
    List.take_of_length_le (Nat.le_sub_of_add_le' hl)]

/-- What stands behind a place, in the bytes from there on. -/
theorem extract_from {start : Nat} (h : part.Stands bytes (start + index)) :
    part.Stands (bytes.extract start bytes.size) index := by
  obtain ⟨after, h⟩ := h
  refine ⟨after, ?_⟩
  rw [ByteArray.data_extract, Array.toList_extract, List.extract_eq_take_drop, List.drop_take,
    List.drop_drop, h, List.take_of_length_le]
  have hlen := congrArg List.length h
  simp at hlen ⊢
  omega

end Bytes.Stands

theorem length_mul_le_length_flatten {parts : List Bytes} {size : Nat}
    (h : ∀ p ∈ parts, size ≤ p.length) : parts.length * size ≤ parts.flatten.length := by
  induction parts with
  | nil => simp
  | cons p parts ih =>
    have hp := h p (by simp)
    have := ih fun q hq => h q (by simp [hq])
    simp only [List.length_cons, List.flatten_cons, List.length_append, Nat.succ_mul]
    omega

/-- Parts that are not empty are not more than the bytes they have together. -/
theorem length_le_length_flatten {parts : List Bytes} (h : ∀ p ∈ parts, p ≠ []) :
    parts.length ≤ parts.flatten.length := by
  simpa using length_mul_le_length_flatten fun p hp => List.length_pos_of_ne_nil (h p hp)

/-- Bytes between others stand where the first ones end. -/
theorem Bytes.stands_toByteArray (before part after : Bytes) :
    part.Stands (before ++ part ++ after).toByteArray before.length := by
  refine ⟨after, ?_⟩
  simp

theorem Bytes.length_le_size_toByteArray (before part after : Bytes) :
    before.length ≤ (before ++ part ++ after).toByteArray.size := by
  rw [List.size_toByteArray, List.length_append, List.length_append]
  omega

namespace Decoder
variable {α β : Type}

/-! ## Single steps -/

theorem bind_eq {d : Decoder α} {f : α → Decoder β} (bytes : ByteArray) (index : Nat) :
    (d >>= f) bytes index =
      match d bytes index with
      | .ok a after => f a bytes after
      | .error e after => .error e after := by
  change EStateM.bind (d bytes) (fun a => f a bytes) index = _
  unfold EStateM.bind
  cases d bytes index <;> rfl

theorem bind_of_ok {d : Decoder α} {f : α → Decoder β} {bytes : ByteArray} {index after : Nat}
    {a : α} (h : d bytes index = .ok a after) : (d >>= f) bytes index = f a bytes after := by
  rw [bind_eq, h]

theorem lift_of_ok {r : Result α} {f : α → Decoder β} {bytes : ByteArray} {index : Nat} {a : α}
    (h : r = .ok a) : (liftM r >>= f) bytes index = f a bytes index := by
  subst h
  rfl

section
variable {f : Nat → Decoder β} {bytes : ByteArray} {index : Nat}

theorem position_bind : (position >>= f) bytes index = f index bytes index := rfl

theorem available_bind : (available >>= f) bytes index = f (bytes.size - index) bytes index := rfl

theorem input_bind {f : ByteArray → Decoder β} : (input >>= f) bytes index = f bytes bytes index :=
  rfl

theorem seek_bind {f : Unit → Decoder β} {place : Nat} :
    (seek place >>= f) bytes index = f () bytes place := rfl

end

/-! ## The relation -/

/-- Wherever `part` lies, the decoder gives `a` and stops behind it. -/
def Reads (d : Decoder α) (part : Bytes) (a : α) : Prop :=
  ∀ ⦃bytes : ByteArray⦄ ⦃index : Nat⦄, part.Stands bytes index →
    d bytes index = .ok a (index + part.length)

namespace Reads
variable {d : Decoder α} {f : α → Decoder β} {part rest : Bytes} {a : α} {b : β}

theorem decodeAt (h : d.Reads part a) {bytes : ByteArray} {index : Nat}
    (hs : part.Stands bytes index) : d.decodeAt bytes index = .ok (a, index + part.length) := by
  simp only [Decoder.decodeAt, h hs]

theorem valueAt (h : d.Reads part a) {bytes : ByteArray} {index : Nat}
    (hs : part.Stands bytes index) : d.valueAt bytes index = .ok a := by
  simp only [Decoder.valueAt, h hs]

theorem pure (a : α) : (Pure.pure a : Decoder α).Reads [] a := fun _ _ _ => rfl

theorem bind (hd : d.Reads part a) (hf : (f a).Reads rest b) :
    (d >>= f).Reads (part ++ rest) b := by
  intro bytes index hs
  rw [bind_of_ok (hd hs.left), hf hs.right, List.length_append, Nat.add_assoc]

/-- A last step that reads nothing. -/
theorem bind_last (hd : d.Reads part a) (hf : (f a).Reads [] b) : (d >>= f).Reads part b := by
  simpa using hd.bind hf

/-- A decoder whose value is changed by a function. -/
theorem map {g : α → β} (hd : d.Reads part a) :
    (d >>= fun a => Pure.pure (g a)).Reads part (g a) := hd.bind_last (Reads.pure (g a))

theorem bind_nil (hd : d.Reads [] a) (hf : (f a).Reads rest b) : (d >>= f).Reads rest b :=
  hd.bind hf

theorem ofResult {r : Result α} (h : r = .ok a) : (Decoder.ofResult r).Reads [] a := by
  subst h
  exact fun _ _ _ => rfl

/-- A result inside of a decoder reads nothing. -/
theorem lift {r : Result α} {f : α → Decoder β} (h : r = .ok a) (hf : (f a).Reads rest b) :
    (liftM r >>= f).Reads rest b :=
  bind_nil (ofResult h) hf

theorem within {place : String} (hd : d.Reads part a) : (d.within place).Reads part a := by
  intro bytes index hs
  simp only [Decoder.within, hd hs]

/-- What depends on the bytes that are left can rely on those that are still to be read. -/
theorem available {f : Nat → Decoder β} (hf : ∀ n, part.length ≤ n → (f n).Reads part b) :
    (Decoder.available >>= f).Reads part b := fun _ _ hs => hf _ hs.length_le hs

theorem position {f : Nat → Decoder β} (hf : ∀ n, (f n).Reads part b) :
    (Decoder.position >>= f).Reads part b := fun _ index hs => hf index hs

theorem upTo {limit : Nat} {bytes : ByteArray} {index : Nat} (hd : d.Reads part a)
    (hs : part.Stands bytes index) (hl : index + part.length ≤ limit) (hb : limit ≤ bytes.size) :
    d.upTo limit bytes index = .ok a (index + part.length) := by
  rw [Decoder.upTo, Access.slice_eq_ok (Nat.zero_le _) hb]
  exact hd (hs.take hl)

end Reads

/-! ## Runs of values -/

theorem repeated_go_reads {d : Decoder α} {parts : List Bytes} {values : List α}
    (h : List.Forall₂ d.Reads parts values) (found : List α) :
    (repeated.go d values.length found).Reads parts.flatten (found.reverse ++ values) := by
  induction h generalizing found with
  | nil => simpa [repeated.go] using Reads.pure found.reverse
  | @cons part value parts values hd _ ih =>
    have := hd.bind (f := fun a => repeated.go d values.length (a :: found)) (ih (value :: found))
    simpa [repeated.go] using this

namespace Reads
variable {d : Decoder α}

theorem repeated {parts : List Bytes} {values : List α} (h : List.Forall₂ d.Reads parts values) :
    (d.repeated values.length).Reads parts.flatten values := by
  simpa [Decoder.repeated] using repeated_go_reads h []

/-- A run of values, each with its own encoding. -/
theorem repeated_map {γ : Type} (encode : γ → Bytes) (value : γ → α) (items : List γ)
    (h : ∀ i ∈ items, d.Reads (encode i) (value i)) :
    (d.repeated items.length).Reads (items.flatMap encode) (items.map value) := by
  have hf : List.Forall₂ d.Reads (items.map encode) (items.map value) := by
    rw [List.forall₂_map_left_iff, List.forall₂_map_right_iff, List.forall₂_same]
    exact h
  simpa [List.flatMap_def] using repeated hf

end Reads

/-- Steps for a list that read nothing. -/
theorem Reads.mapM {step : α → Decoder β} {as : List α} {bs : List β}
    (h : List.Forall₂ (fun a b => (step a).Reads [] b) as bs) : (as.mapM step).Reads [] bs := by
  induction h with
  | nil => exact .pure []
  | cons hab _ ih =>
    rw [List.mapM_cons]
    exact hab.bind_nil (ih.bind_nil (.pure _))

/-! ## Even positions -/

variable {d : Decoder α} {f : α → Decoder β} {part rest : Bytes} {a : α} {b : β}

/-- As `Reads`, for a decoder that has to start at an even position inside the bytes. -/
def ReadsEven (d : Decoder α) (part : Bytes) (a : α) : Prop :=
  ∀ ⦃bytes index⦄, index % 2 = 0 → index ≤ bytes.size → part.Stands bytes index →
    d bytes index = .ok a (index + part.length)

theorem Reads.even (hd : d.Reads part a) : d.ReadsEven part a := fun _ _ _ _ hs => hd hs

theorem Reads.bind_even (hd : d.Reads part a) (hl : part.length % 2 = 0)
    (hf : (f a).ReadsEven rest b) : (d >>= f).ReadsEven (part ++ rest) b := by
  intro bytes index hi hle hs
  have hpart := hs.left.length_le
  rw [bind_of_ok (hd hs.left), hf (by omega) (by omega) hs.right, List.length_append, Nat.add_assoc]

theorem ReadsEven.lift {r : Result α} (h : r = .ok a) (hf : (f a).ReadsEven rest b) :
    (liftM r >>= f).ReadsEven rest b := by
  intro bytes index hi hle hs
  rw [lift_of_ok h, hf hi hle hs]

theorem ReadsEven.map {g : α → β} (hd : d.ReadsEven part a) :
    (d >>= fun a => pure (g a)).ReadsEven part (g a) := by
  intro bytes index hi hle hs
  rw [bind_of_ok (hd hi hle hs)]
  rfl

theorem ReadsEven.available {f : Nat → Decoder β}
    (hf : ∀ n, part.length ≤ n → (f n).ReadsEven part b) :
    (Decoder.available >>= f).ReadsEven part b := fun _ _ hi hle hs => hf _ hs.length_le hi hle hs

/-- A slice of any length that is filled up to an even one. -/
theorem Reads.slice_even (hd : d.Reads part a) {fill : Bytes}
    (hfill : fill.length = part.length % 2) (g : α → β) :
    ReadsEven (do
      let start ← Decoder.position
      let slice ← Access.slice (← Decoder.input) start (start + part.length)
      let a ← d.valueAt slice 0
      Decoder.seek (start + part.length + (start + part.length) % 2)
      return g a) (part ++ fill) (g a) := by
  intro bytes index hi hle hs
  have hinside := hs.left.length_le
  have hslice := Access.slice_eq_ok (Nat.le_add_right index part.length)
    (show index + part.length ≤ bytes.size by omega)
  have hread : d.valueAt (bytes.extract index (index + part.length)) 0 = .ok a := by
    refine hd.valueAt ⟨[], ?_⟩
    rw [← toList_byteArray, hs.left.extract, List.drop_zero, List.append_nil]
  have hafter : index + (part ++ fill).length =
      index + part.length + (index + part.length) % 2 := by
    rw [List.length_append]
    omega
  rw [position_bind, input_bind, lift_of_ok hslice, lift_of_ok hread, hafter]
  rfl

theorem ReadsEven.within {place : String} (hd : d.ReadsEven part a) :
    (d.within place).ReadsEven part a := by
  intro bytes index hi hle hs
  simp only [Decoder.within, hd hi hle hs]

end Decoder

namespace Bytes

/-! ## The bytes of a word -/

theorem toNat_or_shiftLeft16 {low high k : UInt16} (hk : k.toNat < 16)
    (hl : low.toNat < 2 ^ k.toNat) (hh : high.toNat * 2 ^ k.toNat < 2 ^ 16) :
    (low ||| high <<< k).toNat = low.toNat + 2 ^ k.toNat * high.toNat := by
  rw [UInt16.or_comm, UInt16.toNat_or, UInt16.toNat_shiftLeft, Nat.mod_eq_of_lt hk,
    Nat.shiftLeft_eq, Nat.mod_eq_of_lt hh, ← Nat.shiftLeft_eq, ← Nat.shiftLeft_add_eq_or_of_lt hl,
    Nat.shiftLeft_eq, Nat.mul_comm, Nat.add_comm]

theorem toNat_or_shiftLeft32 {low high k : UInt32} (hk : k.toNat < 32)
    (hl : low.toNat < 2 ^ k.toNat) (hh : high.toNat * 2 ^ k.toNat < 2 ^ 32) :
    (low ||| high <<< k).toNat = low.toNat + 2 ^ k.toNat * high.toNat := by
  rw [UInt32.or_comm, UInt32.toNat_or, UInt32.toNat_shiftLeft, Nat.mod_eq_of_lt hk,
    Nat.shiftLeft_eq, Nat.mod_eq_of_lt hh, ← Nat.shiftLeft_eq, ← Nat.shiftLeft_add_eq_or_of_lt hl,
    Nat.shiftLeft_eq, Nat.mul_comm, Nat.add_comm]

theorem toNat_or_shiftLeft64 {low high k : UInt64} (hk : k.toNat < 64)
    (hl : low.toNat < 2 ^ k.toNat) (hh : high.toNat * 2 ^ k.toNat < 2 ^ 64) :
    (low ||| high <<< k).toNat = low.toNat + 2 ^ k.toNat * high.toNat := by
  rw [UInt64.or_comm, UInt64.toNat_or, UInt64.toNat_shiftLeft, Nat.mod_eq_of_lt hk,
    Nat.shiftLeft_eq, Nat.mod_eq_of_lt hh, ← Nat.shiftLeft_eq, ← Nat.shiftLeft_add_eq_or_of_lt hl,
    Nat.shiftLeft_eq, Nat.mul_comm, Nat.add_comm]

theorem toNat_toWord16 (b0 b1 : UInt8) : (toWord16 b0 b1).toNat = b0.toNat + 256 * b1.toNat := by
  have h0 := b0.toNat_lt
  have h1 := b1.toNat_lt
  rw [toWord16, toNat_or_shiftLeft16] <;> simp <;> omega

theorem toNat_toWord32 (b0 b1 b2 b3 : UInt8) : (toWord32 b0 b1 b2 b3).toNat =
    b0.toNat + 256 * b1.toNat + 65536 * b2.toNat + 16777216 * b3.toNat := by
  have h0 := b0.toNat_lt
  have h1 := b1.toNat_lt
  have h2 := b2.toNat_lt
  have h3 := b3.toNat_lt
  have e1 : (b0.toUInt32 ||| b1.toUInt32 <<< 8).toNat = b0.toNat + 256 * b1.toNat := by
    rw [toNat_or_shiftLeft32] <;> simp <;> omega
  have e2 : (b0.toUInt32 ||| b1.toUInt32 <<< 8 ||| b2.toUInt32 <<< 16).toNat =
      b0.toNat + 256 * b1.toNat + 65536 * b2.toNat := by
    rw [toNat_or_shiftLeft32 (by decide) (by rw [e1]; simp; omega) (by simp; omega), e1]
    simp
  rw [toWord32, toNat_or_shiftLeft32 (by decide) (by rw [e2]; simp; omega) (by simp; omega), e2]
  simp

theorem toNat_toWord64 (low high : UInt32) :
    (toWord64 low high).toNat = low.toNat + 4294967296 * high.toNat := by
  have hl := low.toNat_lt
  have hh := high.toNat_lt
  rw [toWord64, toNat_or_shiftLeft64] <;> simp <;> omega

theorem toWord16_bytes (v : UInt16) : toWord16 v.toUInt8 (v >>> 8).toUInt8 = v := by
  apply UInt16.toNat_inj.mp
  have := v.toNat_lt
  simp [toNat_toWord16, Nat.shiftRight_eq_div_pow]
  omega

theorem u2_toWord16 (b0 b1 : UInt8) : Bytes.u2 (toWord16 b0 b1) = [b0, b1] := by
  have h0 := b0.toNat_lt
  have h1 := b1.toNat_lt
  have hlow : (toWord16 b0 b1).toUInt8 = b0 := by
    apply UInt8.toNat_inj.mp
    simp [toNat_toWord16]
  have hhigh : (toWord16 b0 b1 >>> 8).toUInt8 = b1 := by
    apply UInt8.toNat_inj.mp
    simp [toNat_toWord16, Nat.shiftRight_eq_div_pow]
    omega
  rw [Bytes.u2, hlow, hhigh]

theorem length_flatMap_u2 (units : List UInt16) :
    (units.flatMap Bytes.u2).length = 2 * units.length := by
  induction units with
  | nil => rfl
  | cons u units ih =>
    rw [List.flatMap_cons, List.length_append, ih, Bytes.length_u2, List.length_cons]
    omega

theorem flatMap_u2_injective {units others : List UInt16}
    (h : units.flatMap Bytes.u2 = others.flatMap Bytes.u2) : units = others := by
  induction units generalizing others with
  | nil =>
    cases others with
    | nil => rfl
    | cons w others => cases h
  | cons v units ih =>
    cases others with
    | nil => cases h
    | cons w others =>
      rw [List.flatMap_cons, List.flatMap_cons] at h
      obtain ⟨hfirst, hrest⟩ := List.append_inj h rfl
      rw [← toWord16_bytes v, ← toWord16_bytes w, ih hrest]
      simp only [Bytes.u2, List.cons.injEq, and_true] at hfirst
      rw [hfirst.1, hfirst.2]

theorem toWord32_bytes (v : UInt32) :
    toWord32 v.toUInt8 (v >>> 8).toUInt8 (v >>> 16).toUInt8 (v >>> 24).toUInt8 = v := by
  apply UInt32.toNat_inj.mp
  have := v.toNat_lt
  simp [toNat_toWord32, Nat.shiftRight_eq_div_pow]
  omega

theorem toWord64_words (v : UInt64) : toWord64 v.toUInt32 (v >>> 32).toUInt32 = v := by
  apply UInt64.toNat_inj.mp
  have := v.toNat_lt
  simp [toNat_toWord64, Nat.shiftRight_eq_div_pow]
  omega

end Bytes

namespace Decoder

theorem u1_reads (v : UInt8) : u1.Reads (Bytes.u1 v) v := by
  intro bytes index hs
  have hle := hs.inside (by simp [Bytes.u1])
  have h := hs.getElem? (i := 0) (by simp)
  simp only [Nat.add_zero, Bytes.u1, List.getElem_cons_zero] at h
  rw [Bytes.length_u1] at hle ⊢
  simp only [u1, input_bind, position_bind, if_neg (Nat.not_lt.mpr hle)]
  rw [lift_of_ok (Access.byte_eq_ok h), seek_bind]
  rfl

/-- A first byte and what is read behind it. -/
theorem u1_bind_reads {α : Type} {f : UInt8 → Decoder α} {b : UInt8} {rest : Bytes} {a : α}
    (h : (f b).Reads rest a) : (u1 >>= f).Reads (b :: rest) a := (u1_reads b).bind h

theorem u2_reads (v : UInt16) : u2.Reads (Bytes.u2 v) v := by
  intro bytes index hs
  have hle := hs.inside (by simp [Bytes.u2])
  have h0 := hs.getElem? (i := 0) (by simp)
  have h1 := hs.getElem? (i := 1) (by simp)
  simp only [Nat.add_zero, Bytes.u2, List.getElem_cons_zero, List.getElem_cons_succ] at h0 h1
  rw [Bytes.length_u2] at hle ⊢
  simp only [u2, input_bind, position_bind, if_neg (Nat.not_lt.mpr hle)]
  rw [lift_of_ok (Access.byte_eq_ok h1), lift_of_ok (Access.byte_eq_ok h0), seek_bind,
    Bytes.toWord16_bytes]
  rfl

theorem u4_reads (v : UInt32) : u4.Reads (Bytes.u4 v) v := by
  intro bytes index hs
  have hle := hs.inside (by simp [Bytes.u4])
  have h0 := hs.getElem? (i := 0) (by simp)
  have h1 := hs.getElem? (i := 1) (by simp)
  have h2 := hs.getElem? (i := 2) (by simp)
  have h3 := hs.getElem? (i := 3) (by simp)
  simp only [Nat.add_zero, Bytes.u4, List.getElem_cons_zero, List.getElem_cons_succ] at h0 h1 h2 h3
  rw [Bytes.length_u4] at hle ⊢
  simp only [u4, input_bind, position_bind, if_neg (Nat.not_lt.mpr hle)]
  rw [lift_of_ok (Access.byte_eq_ok h3), lift_of_ok (Access.byte_eq_ok h2),
    lift_of_ok (Access.byte_eq_ok h1), lift_of_ok (Access.byte_eq_ok h0), seek_bind,
    Bytes.toWord32_bytes]
  rfl

theorem raw_reads {part : Bytes} (hp : part ≠ []) : (raw part.length).Reads part part := by
  intro bytes index hs
  have hle := hs.inside hp
  simp only [raw, input_bind, position_bind, if_neg (Nat.not_lt.mpr hle)]
  rw [lift_of_ok (Access.slice_eq_ok (Nat.le_add_right _ _) hle), seek_bind, hs.extract]
  rfl

end Decoder

end Dalvik
