import Dalvik.File.Classes

/-!
# Reading files

Reading gives the classes, or what is wrong, and besides the checksums that do not match.
-/
namespace Dalvik
open Text

structure Reading (α : Type) where
  outcome : Result α
  warnings : List DexFile.ChecksumMismatch := []

/-- The file at the start of the bytes. -/
def Dex.decode (o : Options) (bytes : ByteArray) : Reading Dex :=
  match DexFile.ofBytes o bytes 0 with
  | .error e => ⟨.error e, []⟩
  | .ok f => ⟨f.dex, f.checksumMismatch?.toList⟩

/-- The files of a buffer from `offset` on. Only files of a version for containers have others
behind them; each begins where the one before ends. -/
def Dex.decodeFrom (o : Options) (bytes : ByteArray) (offset : Nat) : Reading (List Dex) :=
  let place := s!"dex file at {hex offset}"
  match DexFile.ofBytes o bytes offset with
  | .error e => ⟨.error (e.within place), []⟩
  | .ok f =>
    let warnings := f.checksumMismatch?.toList
    match f.dex with
    | .error e => ⟨.error (e.within place), warnings⟩
    | .ok d =>
      let next := offset + f.size
      if f.version.isContainer ∧ offset < next ∧ next < bytes.size then
        let rest := decodeFrom o bytes next
        ⟨(d :: ·) <$> rest.outcome, warnings ++ rest.warnings⟩
      else ⟨.ok [d], warnings⟩
termination_by bytes.size - offset

/-- All files of a buffer. -/
def Dex.decodeContainer (o : Options) (bytes : ByteArray) : Reading (List Dex) :=
  decodeFrom o bytes 0

end Dalvik
