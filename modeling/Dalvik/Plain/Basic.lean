import Dalvik.Text.Hex

/-!
# Plain data

Trees of numbers, texts, lists and records, for showing the parts of a file to other tools and for
taking them in again. Types with a plain form are instances of `ToPlain`; `OfPlain` reads the form
back and names what is missing if it cannot.
-/
namespace Dalvik

inductive Plain where
  | null
  | boolean (b : Bool)
  | integer (n : Int)
  | text (s : String)
  | list (items : List Plain)
  | record (fields : List (String × Plain))
  deriving Inhabited

class ToPlain (α : Type) where
  plain : α → Plain

export ToPlain (plain)

/-- A form that cannot be read leaves a note on what was expected. -/
abbrev Parse := Except String

class OfPlain (α : Type) where
  parse : Plain → Parse α

export OfPlain (parse)

namespace Plain

mutual

/-- How many lists and records enclose the innermost part. -/
def depth : Plain → Nat
  | list items => depthList items + 1
  | record fields => depthFields fields + 1
  | _ => 0

def depthList : List Plain → Nat
  | [] => 0
  | p :: rest => max p.depth (depthList rest)

def depthFields : List (String × Plain) → Nat
  | [] => 0
  | (_, p) :: rest => max p.depth (depthFields rest)

end

/-- A field of a record; what is absent is null. -/
def field (p : Plain) (key : String) : Plain :=
  match p with
  | record fields => (fields.lookup key).getD null
  | _ => null

/-- A field that is not null. -/
def field? (p : Plain) (key : String) : Option Plain :=
  match p.field key with
  | null => none
  | value => some value

/-- The items of a list; null is a list of none. -/
def items : Plain → Parse (List Plain)
  | list items => .ok items
  | null => .ok []
  | _ => .error "list"

/-- The value of a field. -/
def get {α : Type} [OfPlain α] (p : Plain) (key : String) : Parse α :=
  (parse (p.field key)).mapError (s!"{key}: {·}")

/-- The value of a field, or a default in its absence. -/
def getD {α : Type} [OfPlain α] (p : Plain) (key : String) (default : α) : Parse α :=
  match p.field? key with
  | some _ => p.get key
  | none => .ok default

def ofOption {α : Type} [ToPlain α] : Option α → Plain
  | some a => plain a
  | none => null

/-- Two digits for each byte. -/
def hex (bytes : List UInt8) : Plain :=
  text <| String.ofList <| bytes.flatMap fun b =>
    [Nat.digitChar (b.toNat / 16), Nat.digitChar (b.toNat % 16)]

end Plain

open Plain

instance : ToPlain Plain := ⟨id⟩
instance : OfPlain Plain := ⟨.ok⟩

instance : ToPlain Bool := ⟨boolean⟩
instance : ToPlain Nat := ⟨fun n => integer n⟩
instance : ToPlain Int := ⟨integer⟩
instance : ToPlain String := ⟨text⟩
instance : ToPlain UInt8 := ⟨fun n => integer n.toNat⟩
instance : ToPlain UInt16 := ⟨fun n => integer n.toNat⟩
instance : ToPlain UInt32 := ⟨fun n => integer n.toNat⟩
instance : ToPlain Int8 := ⟨fun n => integer n.toInt⟩
instance : ToPlain Int16 := ⟨fun n => integer n.toInt⟩
instance : ToPlain Int32 := ⟨fun n => integer n.toInt⟩

/-- Numbers of 64 bits are texts, since not every tool keeps all their digits. -/
instance : ToPlain UInt64 := ⟨fun n => text (toString n.toNat)⟩
instance : ToPlain Int64 := ⟨fun n => text (toString n.toInt)⟩

instance {α : Type} [ToPlain α] : ToPlain (List α) := ⟨fun as => list (as.map plain)⟩
instance {α : Type} [ToPlain α] : ToPlain (Option α) := ⟨ofOption⟩

/-- A pair is a list of two. -/
instance {α β : Type} [ToPlain α] [ToPlain β] : ToPlain (α × β) :=
  ⟨fun (a, b) => list [plain a, plain b]⟩

/-- Numbers may be given as texts, with or without a sign. -/
instance : OfPlain Int where
  parse
    | integer n => .ok n
    | text s =>
      match s.toInt? <|> (s.dropPrefix? "+").bind (·.toInt?) with
      | some n => .ok n
      | none => .error "integer"
    | _ => .error "integer"

instance : OfPlain Nat := ⟨fun p => return (← (parse p : Parse Int)).toNat⟩
instance : OfPlain UInt8 := ⟨fun p => return UInt8.ofInt (← parse p)⟩
instance : OfPlain UInt16 := ⟨fun p => return UInt16.ofInt (← parse p)⟩
instance : OfPlain UInt32 := ⟨fun p => return UInt32.ofInt (← parse p)⟩
instance : OfPlain UInt64 := ⟨fun p => return UInt64.ofInt (← parse p)⟩
instance : OfPlain Int8 := ⟨fun p => return Int8.ofInt (← parse p)⟩
instance : OfPlain Int16 := ⟨fun p => return Int16.ofInt (← parse p)⟩
instance : OfPlain Int32 := ⟨fun p => return Int32.ofInt (← parse p)⟩
instance : OfPlain Int64 := ⟨fun p => return Int64.ofInt (← parse p)⟩

instance : OfPlain Bool where
  parse
    | boolean b => .ok b
    | _ => .error "boolean"

instance : OfPlain String where
  parse
    | text s => .ok s
    | _ => .error "text"

instance {α : Type} [OfPlain α] : OfPlain (List α) := ⟨fun p => do (← p.items).mapM parse⟩

instance {α : Type} [OfPlain α] : OfPlain (Option α) where
  parse
    | null => .ok none
    | p => return some (← parse p)

instance {α β : Type} [OfPlain α] [OfPlain β] : OfPlain (α × β) where
  parse
    | list [a, b] => return (← parse a, ← parse b)
    | _ => .error "pair"

namespace Plain

def hexDigit (c : Char) : Parse Nat :=
  if '0' ≤ c ∧ c ≤ '9' then .ok (c.toNat - 48)
  else if 'a' ≤ c ∧ c ≤ 'f' then .ok (c.toNat - 87)
  else .error "hexadecimal digit"

/-- The number with these hexadecimal digits. -/
def hexNat (s : String) : Parse Nat :=
  s.toList.foldlM (fun n c => return n * 16 + (← hexDigit c)) 0

/-- The bytes of a text with two digits for each. -/
def hexBytes : List Char → ByteArray → Parse ByteArray
  | a :: b :: rest, out => do
    let high ← hexDigit a
    let low ← hexDigit b
    hexBytes rest (out.push (high * 16 + low).toUInt8)
  | [], out => .ok out
  | [_], _ => .error "hexadecimal text"

def getBytes (p : Plain) (key : String) : Parse ByteArray := do
  let digits : String ← p.get key
  hexBytes digits.toList .empty

/-- One of several things that are known by name. -/
def choose {α : Type} (all : List α) (name : α → String) (p : Plain) : Parse α := do
  let wanted : String ← parse p
  match all.find? (name · == wanted) with
  | some a => .ok a
  | none => .error wanted

end Plain

end Dalvik
