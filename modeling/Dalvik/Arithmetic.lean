import Dalvik.Error

/-!
# Arithmetic in words

The operations on words that are done as if no result could leave its word. Where the exact result is
not a word the operation is a fault. Operations that wrap on purpose are those of the words themselves.
-/
namespace Dalvik.Arithmetic

def overflow {α : Type} (operation : Operation) : Result α := Result.fault (.overflow operation)

def add32 (a b : UInt32) : Result UInt32 :=
  if a.toNat + b.toNat < UInt32.size then .ok (a + b) else overflow .add

def subtract32 (a b : Int32) : Result Int32 :=
  if -0x80000000 ≤ a.toInt - b.toInt ∧ a.toInt - b.toInt < 0x80000000 then .ok (a - b)
  else overflow .subtract

/-- Of all words only the least one has no negative. -/
def negate32 (a : Int32) : Result Int32 :=
  if a = Int32.minValue then overflow .negate else .ok (-a)

/-- A place or a size, as a word of 64 bits. -/
def size (operation : Operation) (n : Nat) : Result Nat :=
  if n < UInt64.size then .ok n else overflow operation

variable {a b : UInt32} {x y : Int32} {n : Nat} {operation : Operation}

theorem add32_eq_ok (h : a.toNat + b.toNat < UInt32.size) : add32 a b = .ok (a + b) := if_pos h

theorem add32_eq_overflow (h : UInt32.size ≤ a.toNat + b.toNat) : add32 a b = overflow .add :=
  if_neg (Nat.not_lt.mpr h)

/-- A sum that is found is the exact one. -/
theorem toNat_of_add32 {c : UInt32} (h : add32 a b = .ok c) : c.toNat = a.toNat + b.toNat := by
  unfold add32 at h
  split at h
  next hlt =>
    cases h
    rw [UInt32.toNat_add, Nat.mod_eq_of_lt hlt]
  · cases h

theorem subtract32_eq_ok (hlow : -0x80000000 ≤ x.toInt - y.toInt) (hhigh : x.toInt - y.toInt < 0x80000000) :
    subtract32 x y = .ok (x - y) := if_pos ⟨hlow, hhigh⟩

theorem eq_of_subtract32 {z : Int32} (h : subtract32 x y = .ok z) : z = x - y := by
  unfold subtract32 at h
  split at h
  · cases h
    rfl
  · cases h

theorem subtract32_self (x : Int32) : subtract32 x x = .ok (x - x) :=
  subtract32_eq_ok (by rw [Int.sub_self]; decide) (by rw [Int.sub_self]; decide)

theorem eq_of_negate32 (h : negate32 x = .ok y) : y = -x := by
  unfold negate32 at h
  split at h
  · cases h
  · cases h
    rfl

theorem size_eq_ok (h : n < UInt64.size) : size operation n = .ok n := if_pos h

end Dalvik.Arithmetic
