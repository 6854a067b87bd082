import Dalvik.Proofs.Along
import Dalvik.Proofs.Packed.Shortest
import Dalvik.Proofs.Pools
import Dalvik.Proofs.Value.RoundTrip

/-!
# Numbers that do not fit their kind

The byte in front of a number tells its kind and the length of its payload independently, so a byte,
a character or a float can come with up to eight bytes. The reader keeps the low bits of an integer
and the high half of a pattern and drops the rest without a look at it, at any depth. A number comes
back as it was packed if and only if it fits its kind, which every payload does that is no longer
than the kind; no payload is refused for what is in it.
-/
namespace Dalvik

/-- The kinds of numbers with fewer than 64 bits. -/
inductive NarrowKind where
  | byte
  | short
  | char
  | int
  | float
  deriving DecidableEq

namespace NarrowKind

def code : NarrowKind → UInt8
  | byte => 0x00
  | short => 0x02
  | char => 0x03
  | int => 0x04
  | float => 0x10

/-- The number of bytes that a number of the kind takes. -/
def size : NarrowKind → Nat
  | byte => 1
  | short | char => 2
  | int | float => 4

/-- The number packed in a payload: extended on the left by its sign or by zeros, or on the right to
a pattern of 64 bits. -/
def packed : NarrowKind → Bytes → Int
  | byte, part | short, part | int, part => Packed.ofSigned part
  | char, part => Packed.ofBytes part
  | float, part => (Packed.ofBytes part <<< (8 * (8 - part.length)) : Nat)

/-- A number that the kind has; a float is the upper half of its pattern. -/
def Fits (n : Int) : NarrowKind → Prop
  | byte => -2 ^ 7 ≤ n ∧ n < 2 ^ 7
  | short => -2 ^ 15 ≤ n ∧ n < 2 ^ 15
  | char => 0 ≤ n ∧ n < 2 ^ 16
  | int => -2 ^ 31 ≤ n ∧ n < 2 ^ 31
  | float => 2 ^ 32 ∣ n

/-- What is left of a number in the bits of the kind. -/
def reduce (n : Int) : NarrowKind → Int
  | byte => n.bmod (2 ^ 8)
  | short => n.bmod (2 ^ 16)
  | char => n % 2 ^ 16
  | int => n.bmod (2 ^ 32)
  | float => n / 2 ^ 32 * 2 ^ 32

theorem reduce_eq_self_iff (kind : NarrowKind) (n : Int) : kind.reduce n = n ↔ kind.Fits n := by
  cases kind with
  | byte | short | int =>
    simp only [reduce, Fits, Int.bmod_def]
    split <;> omega
  | char =>
    simp only [reduce, Fits]
    omega
  | float =>
    simp only [reduce, Fits]
    omega

theorem fits_of_length_le {kind : NarrowKind} {part : Bytes} (hp : 0 < part.length)
    (h : part.length ≤ kind.size) : kind.Fits (kind.packed part) := by
  obtain ⟨hl, hu⟩ := Packed.ofSigned_bounds hp
  have hlt := Packed.ofBytes_lt part
  have hpow : 2 ^ (8 * part.length) ≤ 2 ^ (8 * kind.size) :=
    Nat.pow_le_pow_right (by decide) (by omega)
  have hz : (2 : Int) ^ (8 * part.length) = ((2 ^ (8 * part.length) : Nat) : Int) := by
    push_cast
    rfl
  rw [hz] at hl hu
  cases kind with
  | byte | short | int | char =>
    simp only [size] at hpow
    simp only [Fits, packed]
    omega
  | float =>
    simp only [size] at h
    have hshift : 8 * (8 - part.length) = 32 + 8 * (4 - part.length) := by omega
    rw [Fits, packed, Nat.shiftLeft_eq, hshift, Nat.pow_add]
    exact Int.natCast_dvd_natCast.mpr (Dvd.dvd.mul_left (Nat.dvd_mul_right _ _) _)

/-- What the reader makes of a payload. -/
def value : NarrowKind → Bytes → Value
  | byte, part => .byte (Int64.ofInt (Packed.ofSigned part)).toInt8
  | short, part => .short (Int64.ofInt (Packed.ofSigned part)).toInt16
  | char, part => .char (UInt64.ofNat (Packed.ofBytes part)).toUInt16
  | int, part => .int (Int64.ofInt (Packed.ofSigned part)).toInt32
  | float, part =>
    .float (UInt64.ofNat (Packed.ofBytes part <<< (8 * (8 - part.length))) >>> 32).toUInt32

end NarrowKind

/-! ## The numbers in a value -/

mutual

/-- The numbers of narrow kinds anywhere inside a value, a float by its pattern of 64 bits. -/
def Value.narrows : Value → List (NarrowKind × Int)
  | .byte n => [(.byte, n.toInt)]
  | .short n => [(.short, n.toInt)]
  | .char unit => [(.char, unit.toNat)]
  | .int n => [(.int, n.toInt)]
  | .float bits => [(.float, bits.toNat * 2 ^ 32)]
  | .array values => Value.narrowsAll values
  | .annotated a => a.narrows
  | _ => []

def Value.narrowsAll : List Value → List (NarrowKind × Int)
  | [] => []
  | v :: vs => v.narrows ++ Value.narrowsAll vs

def AnnotationValue.narrows : AnnotationValue → List (NarrowKind × Int)
  | ⟨_, elements⟩ => Element.narrowsAll elements

def Element.narrowsAll : List Element → List (NarrowKind × Int)
  | [] => []
  | ⟨_, v⟩ :: es => v.narrows ++ Element.narrowsAll es

end

/-- The kinds and the payloads of those numbers in the bytes of the value at the cursor; `room` is
how many more arrays and annotations may enclose a value, as in reading one. -/
def Value.decodePacked : (room : Nat) → Decoder (List (NarrowKind × Bytes))
  | 0 => do Decoder.fail (.valueNesting maxNesting (← Decoder.position))
  | room + 1 => do
    let first ← Decoder.u1
    let payload := Packed.payload (first >>> Packed.argShift)
    match (first &&& 0x1f).toNat with
    | 0x00 => return [(.byte, ← payload)]
    | 0x02 => return [(.short, ← payload)]
    | 0x03 => return [(.char, ← payload)]
    | 0x04 => return [(.int, ← payload)]
    | 0x10 => return [(.float, ← payload)]
    | 0x1c => return (← counted (Value.decodePacked room)).flatten
    | 0x1d => do
      let _ ← Decoder.uleb
      return (← counted (do
        let _ ← Decoder.uleb
        Value.decodePacked room)).flatten
    | 0x1e | 0x1f => return []
    | _ => do
      let _ ← payload
      return []

namespace NarrowKind

/-- A number that is read is what is left of the packed one, and the packed one itself if that fits
its kind. -/
structure Held (held : NarrowKind × Int) (part : NarrowKind × Bytes) : Prop where
  kind : held.1 = part.1
  eq_reduce : held.2 = part.1.reduce (part.1.packed part.2)
  exact_iff : held.2 = part.1.packed part.2 ↔ part.1.Fits (part.1.packed part.2)
  fits_of_short : part.2.length ≤ part.1.size → part.1.Fits (part.1.packed part.2)

theorem held (kind : NarrowKind) {part : Bytes} (hp : 0 < part.length) :
    Held (kind, kind.reduce (kind.packed part)) (kind, part) where
  kind := rfl
  eq_reduce := rfl
  exact_iff := kind.reduce_eq_self_iff _
  fits_of_short := fits_of_length_le hp

/-- The value that the reader makes of a payload holds what is left of the packed number. -/
theorem narrows_value (kind : NarrowKind) {part : Bytes} (hl : part.length ≤ 8) :
    (kind.value part).narrows = [(kind, kind.reduce (kind.packed part))] := by
  cases kind with
  | byte | short | int | char => simp [value, Value.narrows, reduce, packed]
  | float =>
    have hlt := Packed.pattern_lt hl
    simp only [value, Value.narrows, reduce, packed]
    generalize Packed.ofBytes part <<< (8 * (8 - part.length)) = pattern at *
    have hword : (UInt64.ofNat pattern).toNat = pattern := UInt64.toNat_ofNat_of_lt' hlt
    have hhigh : (UInt64.ofNat pattern >>> 32).toUInt32.toNat = pattern / 2 ^ 32 := by
      rw [UInt64.toNat_toUInt32, UInt64.toNat_shiftRight, hword]
      simp [Nat.shiftRight_eq_div_pow]
      omega
    rw [hhigh]
    norm_cast

end NarrowKind

/-! ## Reading -/

section
open Decoder Packed

/-- The numbers of a value with the payloads they come from. -/
def Value.Holds (v : Value) (parts : List (NarrowKind × Bytes)) : Prop :=
  List.Forall₂ NarrowKind.Held v.narrows parts

variable {width : UInt8}

theorem along_payload :
    Along (fun p q => p = q ∧ q.length = width.toNat + 1 ∧ q.length ≤ 8) (payload width)
      (payload width) := by
  intro bytes index p after h
  obtain ⟨hw, hlen, -⟩ := payload_eq_ok h
  exact ⟨p, h, rfl, hlen, by omega⟩

theorem along_narrow {α : Type} {reader : Decoder α} {value : α → Value} {f : Bytes → α}
    (kind : NarrowKind)
    (h : Along (fun a p => a = f p ∧ 0 < p.length ∧ p.length ≤ 8) reader (payload width))
    (hvalue : ∀ p, value (f p) = kind.value p) :
    Along Value.Holds (do return value (← reader)) (do return [(kind, ← payload width)]) := by
  refine h.map fun a p ⟨ha, hp, hl⟩ => ?_
  rw [Value.Holds, ha, hvalue, kind.narrows_value hl]
  exact .cons (kind.held hp) .nil

theorem along_integer {α : Type} {value : α → Value} {f : Bytes → α} (kind : NarrowKind)
    (hvalue : ∀ p, value (f p) = kind.value p) :
    Along Value.Holds (do return value (← (do return f (← payload width) : Decoder α)))
      (do return [(kind, ← payload width)]) := by
  refine along_narrow kind (along_payload.map_left fun p q ⟨hpq, hlen, hl⟩ => ?_) hvalue
  exact ⟨congrArg f hpq, by omega, hl⟩

theorem along_readRightExtended :
    Along (fun bits p => bits = UInt64.ofNat (ofBytes p <<< (8 * (8 - p.length))) ∧
      0 < p.length ∧ p.length ≤ 8) (readRightExtended width) (payload width) := by
  refine along_payload.map_left fun p q ⟨hpq, hlen, hl⟩ => ⟨?_, by omega, hl⟩
  rw [hpq, show 8 - q.length = 7 - width.toNat by omega]

theorem along_float : Along Value.Holds (do return .float (← readFloat width))
    (do return [(.float, ← payload width)]) := by
  have hreader : Along
      (fun a p => a = (UInt64.ofNat (ofBytes p <<< (8 * (8 - p.length))) >>> 32).toUInt32 ∧
        0 < p.length ∧ p.length ≤ 8) (readFloat width) (payload width) :=
    along_readRightExtended.map_left fun _ _ ⟨hbits, hp⟩ => ⟨by rw [hbits], hp⟩
  exact along_narrow .float hreader fun _ => rfl

theorem Value.holds_all {vs : List Value} {parts : List (List (NarrowKind × Bytes))}
    (h : List.Forall₂ Value.Holds vs parts) :
    List.Forall₂ NarrowKind.Held (Value.narrowsAll vs) parts.flatten := by
  induction h with
  | nil => exact .nil
  | cons hv _ ih => exact List.rel_append hv ih

theorem Element.holds_all {es : List Element} {parts : List (List (NarrowKind × Bytes))}
    (h : List.Forall₂ (fun e part => e.value.Holds part) es parts) :
    List.Forall₂ NarrowKind.Held (Element.narrowsAll es) parts.flatten := by
  induction h with
  | nil => exact .nil
  | @cons e _ _ _ he _ ih =>
    cases e
    exact List.rel_append he ih

theorem along_annotationBody {s : Source} {value : Decoder Value}
    {parts : Decoder (List (NarrowKind × Bytes))} (h : Along Value.Holds value parts) :
    Along (fun a part => (Value.annotated a).Holds part) (annotationBody s value)
      (do
        let _ ← uleb
        return (← counted (do
          let _ ← uleb
          parts)).flatten) := by
  have element : Along (fun e part => e.value.Holds part) (elementBody s value)
      (do let _ ← uleb; parts) :=
    Along.self_bind fun index => Along.lift_bind fun name _ => h.map_left fun _ _ hv => hv
  exact Along.self_bind fun index => Along.lift_bind fun type _ =>
    element.counted.map fun _ _ hes => Element.holds_all hes

theorem along_decodeNested (s : Source) (room : Nat) :
    Along Value.Holds (Value.decodeNested s room) (Value.decodePacked room) := by
  induction room with
  | zero => exact Along.position_bind fun _ => .fail _
  | succ room ih =>
    refine Along.self_bind fun first => ?_
    dsimp only
    generalize (first &&& 0x1f).toNat = code
    split
    · exact along_integer .byte fun _ => rfl
    · exact along_integer .short fun _ => rfl
    · exact along_integer .char fun _ => rfl
    · exact along_integer .int fun _ => rfl
    · exact Along.number fun _ => .nil
    · exact along_float
    · exact Along.number fun _ => .nil
    · exact Along.entry fun _ => .nil
    · exact Along.entry fun _ => .nil
    · exact Along.entry fun _ => .nil
    · exact Along.entry fun _ => .nil
    · exact Along.entry fun _ => .nil
    · exact Along.entry fun _ => .nil
    · exact Along.entry fun _ => .nil
    · exact ih.counted.map fun _ _ hvs => Value.holds_all hvs
    · exact (along_annotationBody ih).map_left fun _ _ ha => ha
    · exact Along.pure .nil
    · exact Along.pure .nil
    · exact Along.position_bind fun _ => .fail _

/-- A payload of up to eight bytes is accepted whatever is in it. -/
theorem reads_value (s : Source) (kind : NarrowKind) {part : Bytes} (hp : 0 < part.length)
    (hl : part.length ≤ 8) (room : Nat) :
    (Value.decodeNested s (room + 1)).Reads (framed kind.code part) (kind.value part) := by
  have hpayload := payload_reads hp hl
  refine framed_reads (by cases kind <;> decide) hp hl fun first hwidth hkind => ?_
  simp only [hkind, hwidth]
  cases kind with
  | byte | short | char | int => exact hpayload.map.map
  | float => exact (readRightExtended_part_reads hp hl).map.map

end

/-- What is read as a value holds, in their order and at any depth, the numbers of narrow kinds that
are packed in the bytes, each without the bits that its kind has no place for: it is the packed
number if and only if that fits the kind, as it does if the payload is no longer than the kind. A
payload of one to eight bytes is never refused. -/
theorem narrows_decode (s : Source) :
    (∀ bytes index v after, (Value.decode s).decodeAt bytes index = .ok (v, after) →
        ∃ parts, (Value.decodePacked (maxNesting + 1)).decodeAt bytes index = .ok (parts, after) ∧
          List.Forall₂ NarrowKind.Held v.narrows parts) ∧
      ∀ (kind : NarrowKind) (part : Bytes), 0 < part.length → part.length ≤ 8 →
        ∃ v, (Value.decode s).Reads (Packed.framed kind.code part) v ∧
          v.narrows = [(kind, kind.reduce (kind.packed part))] := by
  refine ⟨fun bytes index v after h => (along_decodeNested s _).decodeAt h, ?_⟩
  intro kind part hp hl
  exact ⟨kind.value part, reads_value s kind hp hl maxNesting, kind.narrows_value hl⟩

/-- An array of the byte 5, in two bytes, and the float 1.0. -/
def widePayloads : ByteArray := ([0x1c, 2, 0x20, 5, 0, 0x30, 0x80, 0x3f] : Bytes).toByteArray

theorem narrows_decode_widePayloads :
    (∃ parts, (Value.decodePacked (maxNesting + 1)).decodeAt widePayloads 0 = .ok (parts, 8) ∧
        List.Forall₂ NarrowKind.Held [(.byte, 5), (.float, 0x3f80000000000000)] parts) ∧
      ∃ v, (Value.decode twoNamesSource).Reads [0x20, 0, 1] v ∧ v.narrows = [(.byte, 0)] := by
  obtain ⟨hread, haccept⟩ := narrows_decode twoNamesSource
  have h : (Value.decode twoNamesSource).decodeAt widePayloads 0 =
      .ok (.array [.byte 5, .float 0x3f800000], 8) := by cbv
  exact ⟨hread _ _ _ _ h, haccept .byte [0, 1] (by decide) (by decide)⟩

/-- One payload of a number that does not fit for each kind: 2^8, 2^16, 2^16, 2^32, and a pattern
with a bit in its lower half. All are read as 0. -/
theorem decode_unfitting :
    (Value.decode twoNamesSource).decodeAt ([0x20, 0, 1] : Bytes).toByteArray 0 = .ok (.byte 0, 3) ∧
      (Value.decode twoNamesSource).decodeAt ([0x42, 0, 0, 1] : Bytes).toByteArray 0 =
        .ok (.short 0, 4) ∧
      (Value.decode twoNamesSource).decodeAt ([0x43, 0, 0, 1] : Bytes).toByteArray 0 =
        .ok (.char 0, 4) ∧
      (Value.decode twoNamesSource).decodeAt ([0x84, 0, 0, 0, 0, 1] : Bytes).toByteArray 0 =
        .ok (.int 0, 6) ∧
      (Value.decode twoNamesSource).decodeAt ([0x90, 1, 0, 0, 0, 0] : Bytes).toByteArray 0 =
        .ok (.float 0, 6) ∧
      NarrowKind.byte.packed [0, 1] = 2 ^ 8 ∧ NarrowKind.short.packed [0, 0, 1] = 2 ^ 16 ∧
      NarrowKind.char.packed [0, 0, 1] = 2 ^ 16 ∧ NarrowKind.int.packed [0, 0, 0, 0, 1] = 2 ^ 32 ∧
      NarrowKind.float.packed [1, 0, 0, 0, 0] = 2 ^ 24 := by
  refine ⟨by cbv, by cbv, by cbv, by cbv, by cbv, by decide, by decide, by decide, by decide,
    by decide⟩

end Dalvik
