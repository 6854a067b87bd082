import Dalvik.Error

/-!
# Direct access

Bytes, slices and entries that are taken as if they were there. An access to what is not there is a
fault: a reader that takes something directly has to check beforehand that it lies inside.
-/
namespace Dalvik.Access

/-- The place with an index is one of `size`. -/
def entry (index size : Nat) : Result Unit :=
  if index < size then .ok () else Result.fault (.entry index size)

/-- The places from `start` up to `stop` are among `size`. -/
def range (start stop size : Nat) : Result Unit :=
  if start ≤ stop ∧ stop ≤ size then .ok () else Result.fault (.slice start stop size)

/-- The byte at an index. -/
def byte (bytes : ByteArray) (index : Nat) : Result UInt8 :=
  match bytes[index]? with
  | some b => .ok b
  | none => Result.fault (.entry index bytes.size)

/-- The bytes from `start` up to `stop`. -/
def slice (bytes : ByteArray) (start stop : Nat) : Result ByteArray := do
  range start stop bytes.size
  return bytes.extract start stop

variable {bytes : ByteArray} {i start stop size : Nat}

theorem range_eq_ok (h : start ≤ stop) (hstop : stop ≤ size) : range start stop size = .ok () :=
  if_pos ⟨h, hstop⟩

theorem byte_eq_ok {b : UInt8} (h : bytes[i]? = some b) : byte bytes i = .ok b := by
  rw [byte, h]

theorem slice_eq_ok (h : start ≤ stop) (hstop : stop ≤ bytes.size) :
    slice bytes start stop = .ok (bytes.extract start stop) := by
  rw [slice, range_eq_ok h hstop]
  rfl

end Dalvik.Access
