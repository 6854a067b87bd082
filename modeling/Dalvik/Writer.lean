import Dalvik.Bytes
import Dalvik.Error

/-!
# Writers

A writer adds bytes to a buffer and gives a count of them, or fails. What it adds does not depend on
the buffer.
-/
namespace Dalvik

abbrev Writer := StateT Bytes Result

/-- A writer that does not fail. -/
instance : MonadLift (StateM Bytes) Writer := ⟨fun w buffer => .ok (w buffer)⟩

namespace Writer

/-- One writer after the other; their counts are added. -/
def sum : List (Writer Nat) → Writer Nat
  | [] => return 0
  | w :: ws => do
    let count ← w
    return count + (← sum ws)

/-- What a writer adds, counted by the buffer. -/
def measured (w : Writer Nat) : Writer Nat := do
  let start := (← get).length
  let _ ← w
  return (← get).length - start

end Writer

end Dalvik
