import Dalvik.Error

/-!
# Versions of the format

Six standard versions, of which the newest is a container of several files, and a compact one.
-/
namespace Dalvik

inductive Version where
  | dex041
  | dex040
  | dex039
  | dex038
  | dex037
  | dex035
  | compact
  deriving DecidableEq, Hashable, Repr

namespace Version

/-- Newest standard version first, the compact one last. -/
def all : List Version := [dex041, dex040, dex039, dex038, dex037, dex035, compact]

/-- The place among all versions. -/
def rank : Version → Nat
  | dex041 => 0
  | dex040 => 1
  | dex039 => 2
  | dex038 => 3
  | dex037 => 4
  | dex035 => 5
  | compact => 6

instance : Ord Version := ⟨compareOn rank⟩

/-- The three digits of the version number. -/
def digits : Version → List Char
  | dex041 => ['0', '4', '1']
  | dex040 => ['0', '4', '0']
  | dex039 => ['0', '3', '9']
  | dex038 => ['0', '3', '8']
  | dex037 => ['0', '3', '7']
  | dex035 => ['0', '3', '5']
  | compact => ['0', '0', '1']

def isCompact : Version → Bool
  | compact => true
  | _ => false

/-- True if several files of the version share one buffer. -/
def isContainer : Version → Bool
  | dex041 => true
  | _ => false

/-- The eight bytes a file begins with. -/
def magic (v : Version) : List UInt8 :=
  let name := if v.isCompact then ['c', 'd', 'e', 'x'] else ['d', 'e', 'x', '\n']
  (name ++ v.digits ++ ['\x00']).map fun c => c.toNat.toUInt8

/-- The oldest release that reads the version. -/
def minApi : Version → Int
  | dex041 => 35
  | dex040 => 30
  | dex039 => 28
  | dex038 => 26
  | dex037 => 24
  | dex035 => 1
  | compact => 28

/-- True if the version is at least `least`; compact files hold whatever any version does. -/
def supports (v least : Version) : Bool := v.isCompact || v.rank ≤ least.rank

/-- The newest version for single files that a release reads. -/
def ofApi (api : Int) : Result Version :=
  match all.find? fun v => !v.isCompact && !v.isContainer && v.minApi ≤ api with
  | some v => .ok v
  | none => Result.unsupported (.apiWithoutVersion api)

def ofMagic (bytes : List UInt8) : Result Version :=
  if bytes.length ≠ 8 then Result.notADex (.magicLength bytes.length)
  else match all.find? fun v => v.magic = bytes with
    | some v => .ok v
    | none => Result.notADex (.unknownMagic bytes)

instance : ToString Version where
  toString v := (if v.isCompact then "cdex" else "dex ") ++ String.ofList v.digits

theorem ofMagic_magic (v : Version) : ofMagic v.magic = .ok v := by cases v <;> rfl

end Version

end Dalvik
