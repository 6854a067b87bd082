import Dalvik.Arithmetic
import Dalvik.Leb128
import Dalvik.Proofs.Reads
import Dalvik.Text.ModifiedUtf8

/-!
# Readers without faults

A reader is faultless if nothing it takes directly is missing, and if no result leaves its word but of
the operations that may: wherever it starts in whatever bytes, it ends in a value or in an error that
it gives on purpose. The rules follow the ways in which readers are put together; what is left are the
places with a direct access, each with the check in front of it, and those with an operation.
-/
namespace Dalvik

/-- No operation. -/
def Operation.never (_ : Operation) : Prop := False

/-- The overflow of one of the operations. What is taken directly has to be there in any case. -/
def Fault.OverflowOf (may : Operation → Prop) : Fault → Prop
  | .overflow operation => may operation
  | _ => False

namespace Result
variable {α β : Type} {may : Operation → Prop}

/-- True unless something was taken that is not there, or a result left its word that may not. -/
def Faultless (may : Operation → Prop) : Result α → Prop
  | .ok _ => True
  | .error e => ∀ reason, e.cause = .fault reason → reason.OverflowOf may

theorem Faultless.mono {others : Operation → Prop} {x : Result α} (hx : x.Faultless may)
    (h : ∀ operation, may operation → others operation) : x.Faultless others := by
  cases x with
  | ok a => trivial
  | error e =>
    intro reason hreason
    have hmay := hx reason hreason
    cases reason with
    | overflow operation => exact h operation hmay
    | entry index size => exact hmay
    | slice start stop size => exact hmay

@[simp] theorem faultless_ok (a : α) : Faultless may (.ok a) := trivial

@[simp] theorem faultless_pure (a : α) : Faultless may (pure a : Result α) := trivial

@[simp] theorem faultless_notADex (reason : NotADex) :
    Faultless may (Result.notADex reason : Result α) := nofun

@[simp] theorem faultless_malformed (reason : Malformed) :
    Faultless may (Result.malformed reason : Result α) := nofun

@[simp] theorem faultless_unsupported (reason : Unsupported) :
    Faultless may (Result.unsupported reason : Result α) := nofun

@[simp] theorem faultless_violation (reason : Violation) :
    Faultless may (Result.violation reason : Result α) := nofun

@[simp] theorem faultless_bounds (pool : String) (index size : Nat) :
    Faultless may (.error (.ofCause (.bounds pool index size)) : Result α) := nofun

theorem Faultless.bind {x : Result α} {f : α → Result β} (hx : x.Faultless may)
    (hf : ∀ a, x = .ok a → (f a).Faultless may) : (x >>= f).Faultless may := by
  cases x with
  | ok a => exact hf a rfl
  | error e => exact hx

@[simp] theorem faultless_map {x : Result α} {f : α → β} : (f <$> x).Faultless may ↔ x.Faultless may := by
  cases x <;> rfl

@[simp] theorem faultless_ite {c : Prop} [Decidable c] {x y : Result α} :
    (if c then x else y).Faultless may ↔ (c → x.Faultless may) ∧ (¬ c → y.Faultless may) := by
  split <;> simp [*]

/-- Checks that fail on purpose; what is behind them may rely on them. -/
theorem faultless_guard {c : Prop} [Decidable c] {x : Result α} {f : α → Result β} {y : Result β}
    (hx : x.Faultless may) (hfail : ∀ a, x ≠ .ok a) (hy : ¬ c → y.Faultless may) :
    (if c then x >>= f else y).Faultless may :=
  faultless_ite.mpr ⟨fun _ => hx.bind fun a h => absurd h (hfail a), hy⟩

/-- Two ways to go on with the same. -/
theorem faultless_ite_bind {c : Prop} [Decidable c] {x y : Result α} {f : α → Result β}
    (hx : x.Faultless may) (hy : y.Faultless may) (hf : ∀ a, (f a).Faultless may) :
    (if c then x >>= f else y >>= f).Faultless may :=
  faultless_ite.mpr ⟨fun _ => hx.bind fun a _ => hf a, fun _ => hy.bind fun a _ => hf a⟩

@[simp] theorem faultless_within {x : Result α} {place : String} :
    (x.within place).Faultless may ↔ x.Faultless may := by
  cases x <;> rfl

theorem faultless_mapM {f : α → Result β} {as : List α} (h : ∀ a ∈ as, (f a).Faultless may) :
    (as.mapM f).Faultless may := by
  induction as with
  | nil => rw [List.mapM_nil]; trivial
  | cons a as ih =>
    rw [List.mapM_cons]
    refine (h a List.mem_cons_self).bind fun b _ => ?_
    exact (ih fun x hx => h x (List.mem_cons_of_mem a hx)).bind fun _ _ => trivial

theorem faultless_option_mapM {f : α → Result β} (a : Option α) (h : ∀ a, (f a).Faultless may) :
    (a.mapM f).Faultless may := by
  cases a with
  | none => trivial
  | some a => exact faultless_map.mpr (h a)

end Result

/-! ## Operations -/

namespace Arithmetic
variable {may : Operation → Prop}

@[simp] theorem faultless_overflow {α : Type} {operation : Operation} :
    (overflow operation : Result α).Faultless may ↔ may operation :=
  ⟨fun h => h _ rfl, fun h _ hreason => Cause.fault.inj hreason ▸ h⟩

/-- The sum can be made directly if, and only if, it fits or may leave its word. -/
theorem faultless_add32 {a b : UInt32} :
    (add32 a b).Faultless may ↔ (UInt32.size ≤ a.toNat + b.toNat → may .add) := by
  unfold add32
  simp

theorem faultless_size {operation : Operation} {n : Nat} :
    (size operation n).Faultless may ↔ (UInt64.size ≤ n → may operation) := by
  unfold size
  simp

end Arithmetic

/-! ## Direct accesses -/

namespace Access
variable {bytes : ByteArray} {i start stop size : Nat} {may : Operation → Prop}

/-- An index, a slice or a byte can be taken directly if, and only if, it is there. -/
@[simp] theorem faultless_entry : (entry i size).Faultless may ↔ i < size := by
  unfold entry
  split
  next h => exact iff_of_true trivial h
  next h => exact iff_of_false (fun hfault => hfault _ rfl) h

@[simp] theorem faultless_range :
    (range start stop size).Faultless may ↔ start ≤ stop ∧ stop ≤ size := by
  unfold range
  split
  next h => exact iff_of_true trivial h
  next h => exact iff_of_false (fun hfault => hfault _ rfl) h

@[simp] theorem faultless_byte : (byte bytes i).Faultless may ↔ i < bytes.size := by
  by_cases h : i < bytes.size
  · rw [byte_eq_ok (getElem?_pos bytes i h)]
    exact iff_of_true trivial h
  · rw [byte, getElem?_neg bytes i h]
    exact iff_of_false (fun hfault => hfault _ rfl) h

@[simp] theorem faultless_slice :
    (slice bytes start stop).Faultless may ↔ start ≤ stop ∧ stop ≤ bytes.size :=
  Result.faultless_map.trans faultless_range

end Access

namespace Decoder
variable {α β : Type}

/-- Whatever the bytes are and wherever the cursor is, the decoder ends without a fault. -/
def Faultless (may : Operation → Prop) (d : Decoder α) : Prop :=
  ∀ bytes index, (d.valueAt bytes index).Faultless may

variable {d : Decoder α} {f : α → Decoder β} {may : Operation → Prop}

/-! ## Rules -/

/-- The second decoder may rely on where the first one stops. -/
theorem faultless_bind_at {bytes : ByteArray} {index : Nat} (hd : (d.valueAt bytes index).Faultless may)
    (hf : ∀ a after, d bytes index = .ok a after → ((f a).valueAt bytes after).Faultless may) :
    ((d >>= f).valueAt bytes index).Faultless may := by
  unfold Decoder.valueAt at hd ⊢
  rw [bind_eq]
  cases h : d bytes index with
  | ok a after => exact hf a after h
  | error e after =>
    rw [h] at hd
    exact hd

@[simp] theorem Faultless.bind (hd : d.Faultless may) (hf : ∀ a, (f a).Faultless may) :
    (d >>= f).Faultless may :=
  fun bytes index => faultless_bind_at (hd bytes index) fun a after _ => hf a bytes after

@[simp] theorem faultless_pure (a : α) : (pure a : Decoder α).Faultless may := fun _ _ => trivial

@[simp] theorem faultless_map {g : α → β} : (g <$> d).Faultless may ↔ d.Faultless may := by
  refine forall₂_congr fun bytes index => ?_
  have hmap : (g <$> d) bytes index = _ := bind_eq (f := fun a => pure (g a)) bytes index
  unfold Decoder.valueAt
  rw [hmap]
  cases d bytes index <;> rfl

@[simp] theorem faultless_liftM {r : Result α} :
    (liftM r : Decoder α).Faultless may ↔ r.Faultless may := by
  refine ⟨fun h => ?_, fun h bytes index => ?_⟩
  · have := h .empty 0
    cases r with
    | ok a => trivial
    | error e => exact this
  · cases r with
    | ok a => trivial
    | error e => exact h

theorem faultless_lift {r : Result α} (h : r.Faultless may) : (liftM r : Decoder α).Faultless may :=
  faultless_liftM.mpr h

@[simp] theorem faultless_fail (reason : Malformed) : (fail reason : Decoder α).Faultless may :=
  fun _ _ => Result.faultless_malformed reason

@[simp] theorem faultless_position : position.Faultless may := fun _ _ => trivial

@[simp] theorem faultless_seek (index : Nat) : (seek index).Faultless may := fun _ _ => trivial

@[simp] theorem faultless_input : input.Faultless may := fun _ _ => trivial

@[simp] theorem faultless_available : available.Faultless may := fun _ _ => trivial

@[simp] theorem faultless_advance (size : Nat) : (advance size).Faultless may := fun _ _ => trivial

@[simp] theorem faultless_within {place : String} : (d.within place).Faultless may ↔ d.Faultless may := by
  refine forall₂_congr fun bytes index => ?_
  unfold Decoder.valueAt Decoder.within
  cases d bytes index <;> rfl

@[simp] theorem faultless_ite {c : Prop} [Decidable c] {d e : Decoder α} :
    (if c then d else e).Faultless may ↔ (c → d.Faultless may) ∧ (¬ c → e.Faultless may) := by
  split <;> simp [*]

theorem Faultless.decodeAt (hd : d.Faultless may) (bytes : ByteArray) (index : Nat) :
    (d.decodeAt bytes index).Faultless may := by
  have h := hd bytes index
  unfold Decoder.valueAt at h
  unfold Decoder.decodeAt
  cases hd : d bytes index with
  | ok a after => trivial
  | error e after =>
    rw [hd] at h
    exact h

/-- Behind a failure nothing is read. -/
@[simp] theorem faultless_fail_bind (reason : Malformed) {f : α → Decoder β} :
    (fail reason >>= f).Faultless may :=
  fun _ _ => Result.faultless_malformed reason

/-- A check that fails on purpose; what is behind it may rely on it. -/
theorem faultless_guard {c : Prop} [Decidable c] {reason : Malformed} {f : α → Decoder β}
    {next : Decoder β} (h : ¬ c → next.Faultless may) :
    (if c then fail reason >>= f else next).Faultless may :=
  faultless_ite.mpr ⟨fun _ => faultless_fail_bind reason, h⟩

/-- What is behind an operation may rely on the result. -/
theorem faultless_size_bind {operation : Operation} {n : Nat} {f : Nat → Decoder α}
    (h : UInt64.size ≤ n → may operation) (hf : (f n).Faultless may) :
    (liftM (Arithmetic.size operation n) >>= f).Faultless may := by
  by_cases hn : n < UInt64.size
  · rw [Arithmetic.size_eq_ok hn]
    exact hf
  · have hoverflow := Arithmetic.faultless_size.mpr h
    rw [Arithmetic.size, if_neg hn] at hoverflow ⊢
    exact fun _ _ => hoverflow

/-- Two ways to go on with the same. -/
theorem faultless_ite_bind {c : Prop} [Decidable c] {d e : Decoder α} (hd : d.Faultless may)
    (he : e.Faultless may) (hf : ∀ a, (f a).Faultless may) :
    (if c then d >>= f else e >>= f).Faultless may :=
  faultless_ite.mpr ⟨fun _ => hd.bind hf, fun _ => he.bind hf⟩

theorem faultless_go (hd : d.Faultless may) (count : Nat) (found : List α) :
    (repeated.go d count found).Faultless may := by
  induction count generalizing found with
  | zero => exact faultless_pure _
  | succ n ih => exact hd.bind fun a => ih (a :: found)

@[simp] theorem Faultless.repeated (hd : d.Faultless may) (count : Nat) :
    (d.repeated count).Faultless may := faultless_go hd count []

theorem faultless_mapM {f : α → Decoder β} {as : List α} (h : ∀ a, (f a).Faultless may) :
    (as.mapM f).Faultless may := by
  induction as with
  | nil =>
    rw [List.mapM_nil]
    exact faultless_pure []
  | cons a as ih =>
    rw [List.mapM_cons]
    exact (h a).bind fun _ => ih.bind fun _ => faultless_pure _

/-! ## Words -/

/-- What is taken behind a check of the cursor may rely on it. -/
theorem faultless_checked {reason : Nat → Malformed} {count : Nat}
    {next : ByteArray → Nat → Decoder α}
    (h : ∀ bytes index, index + count ≤ bytes.size → (next bytes index).Faultless may) :
    Faultless may (do
      let bytes ← input
      let index ← position
      if bytes.size < index + count then fail (reason index)
      next bytes index) := by
  intro bytes index
  change (valueAt (if bytes.size < index + count then _ else _) bytes index).Faultless may
  split
  · exact Result.faultless_malformed (reason index)
  next hle => exact h bytes index (Nat.not_lt.mp hle) bytes index

@[simp] theorem faultless_u1 : u1.Faultless may :=
  faultless_checked fun _ _ h =>
    (faultless_lift (Access.faultless_byte.mpr (by omega))).bind fun _ => by simp

@[simp] theorem faultless_u2 : u2.Faultless may :=
  faultless_checked fun _ _ h => (faultless_lift (Access.faultless_byte.mpr (by omega))).bind fun _ =>
    (faultless_lift (Access.faultless_byte.mpr (by omega))).bind fun _ => by simp

@[simp] theorem faultless_u4 : u4.Faultless may :=
  faultless_checked fun _ _ h => (faultless_lift (Access.faultless_byte.mpr (by omega))).bind fun _ =>
    (faultless_lift (Access.faultless_byte.mpr (by omega))).bind fun _ =>
      (faultless_lift (Access.faultless_byte.mpr (by omega))).bind fun _ =>
        (faultless_lift (Access.faultless_byte.mpr (by omega))).bind fun _ => by simp

@[simp] theorem faultless_raw (length : Nat) : (raw length).Faultless may :=
  faultless_checked fun _ index h =>
    (faultless_lift (Access.faultless_slice.mpr ⟨Nat.le_add_right index length, h⟩)).bind
      fun _ => by simp

/-- A word is inside of the bytes if it could be read, and so is the cursor behind it. -/
theorem after_of_u4 {bytes : ByteArray} {index after : Nat} {word : UInt32}
    (h : u4 bytes index = .ok word after) : after = index + 4 ∧ after ≤ bytes.size := by
  change (if bytes.size < index + 4 then _ else _ : Decoder UInt32) bytes index = _ at h
  split at h
  · cases h
  next hle =>
    have hbyte {i : Nat} (hi : i < bytes.size) :=
      Access.byte_eq_ok (getElem?_pos bytes i hi)
    rw [lift_of_ok (hbyte (by omega)), lift_of_ok (hbyte (by omega)),
      lift_of_ok (hbyte (by omega)), lift_of_ok (hbyte (by omega)), seek_bind] at h
    cases h
    exact ⟨rfl, Nat.not_lt.mp hle⟩

/-! ## LEB128 numbers -/

end Decoder

namespace Leb128
variable {may : Operation → Prop}

theorem faultless_decodeUnsignedFrom (bytes : Bytes) (count : Nat) (value : UInt64) :
    (decodeUnsignedFrom count value bytes).Faultless may := by
  fun_induction decodeUnsignedFrom count value bytes with
  | case1 => split <;> simp
  | case2 => simp
  | case3 => simp
  | case4 _ _ _ _ _ _ _ ih => exact ih
  | case5 => trivial

theorem faultless_decodeSignedFrom (bytes : Bytes) (count : Nat) (value : UInt64) :
    (decodeSignedFrom count value bytes).Faultless may := by
  fun_induction decodeSignedFrom count value bytes with
  | case1 => split <;> simp
  | case2 => simp
  | case3 _ _ _ _ _ _ ih => exact ih
  | case4 => trivial

end Leb128

namespace Decoder
variable {may : Operation → Prop}

@[simp] theorem faultless_lebWindow : lebWindow.Faultless may := by
  intro bytes index
  by_cases h : index ≤ bytes.size
  · rw [valueAt, lebWindow, if_pos h]
    trivial
  · rw [valueAt, lebWindow, if_neg h]
    exact Result.faultless_malformed (.pastEnd index)

@[simp] theorem faultless_uleb : uleb.Faultless may := by
  refine faultless_lebWindow.bind fun bytes => ?_
  refine (faultless_lift (Leb128.faultless_decodeUnsignedFrom bytes 0 0)).bind fun n => ?_
  dsimp only
  split <;> simp

@[simp] theorem faultless_sleb : sleb.Faultless may := by
  refine faultless_lebWindow.bind fun bytes => ?_
  refine (faultless_lift (Leb128.faultless_decodeSignedFrom bytes 0 0)).bind fun _ => ?_
  simp

@[simp] theorem faultless_ulebPlusOne : ulebPlusOne.Faultless may := by
  refine faultless_lebWindow.bind fun bytes => ?_
  refine (faultless_lift ?_).bind fun _ => by simp
  exact (Leb128.faultless_decodeUnsignedFrom bytes 0 0).bind fun _ _ => trivial

end Decoder

end Dalvik
