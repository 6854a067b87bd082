import Dalvik.Leb128
import Dalvik.Packed
import Dalvik.Pools
import Dalvik.Writer

/-!
# Encoded values in bytes

A value begins with a byte for its kind and the length of its number, if it has one. The elements of
an annotation are written in the order of their names, and no two of them may share a name.
-/
namespace Dalvik
open Text

/-- The elements in the order of their names. -/
def sortElements (elements : List Element) : List Element :=
  sortedBy (byKey compareUtf16 Element.name) elements

/-- A name that two neighbouring elements share. -/
def duplicateName? (elements : List Element) : Option String :=
  (firstAdjacent? (fun a b => a.name == b.name) elements).map Element.name

/-- An annotation with its elements in order; names have to be distinct. -/
def AnnotationValue.build (type : TypeId) (elements : List Element) :
    Result AnnotationValue :=
  let elements := sortElements elements
  match duplicateName? elements with
  | some name => Result.violation (.elementName name)
  | none => .ok ⟨type, elements⟩

/-! ## Writing -/

/-- The bytes of a list of encodings that all succeed. -/
def concatAll (parts : List (Result Bytes)) : Result Bytes := do
  return (← parts.mapM id).flatten

mutual

def Value.encode (r : Resolver) (v : Value) : Result Bytes :=
  match v with
  | .byte n => .ok (Packed.framed v.kind (Packed.signed n.toInt))
  | .short n => .ok (Packed.framed v.kind (Packed.signed n.toInt))
  | .char unit => .ok (Packed.framed v.kind (Packed.unsigned unit.toNat))
  | .int n => .ok (Packed.framed v.kind (Packed.signed n.toInt))
  | .long n => .ok (Packed.framed v.kind (Packed.signed n.toInt))
  | .float bits => .ok (Packed.framed v.kind (Packed.float bits))
  | .double bits => .ok (Packed.framed v.kind (Packed.double bits))
  | .methodType id => return Packed.framed v.kind (Packed.unsigned (← r.proto id).toNat)
  | .methodHandle id => return Packed.framed v.kind (Packed.unsigned (← r.methodHandle id).toNat)
  | .string text => return Packed.framed v.kind (Packed.unsigned (← r.string text).toNat)
  | .type id => return Packed.framed v.kind (Packed.unsigned (← r.type id).toNat)
  | .field id => return Packed.framed v.kind (Packed.unsigned (← r.field id).toNat)
  | .method id => return Packed.framed v.kind (Packed.unsigned (← r.method id).toNat)
  | .enum id => return Packed.framed v.kind (Packed.unsigned (← r.field id).toNat)
  | .array values =>
    return v.kind :: (Bytes.ulebNat values.length ++ (← Value.encodeAll r values))
  | .annotated a => return v.kind :: (← a.encode r)
  | .null => .ok [v.kind]
  | .boolean b => .ok [Packed.header v.kind (if b then 1 else 0)]

def Value.encodeAll (r : Resolver) : List Value → Result Bytes
  | [] => .ok []
  | v :: vs => do
    let head ← v.encode r
    return head ++ (← Value.encodeAll r vs)

def AnnotationValue.encode (r : Resolver) : AnnotationValue → Result Bytes
  | ⟨type, elements⟩ => do
    let parts := Element.encodeAll r elements
    let sorted := sortedBy (byKey compareUtf16 Prod.fst) parts
    match firstAdjacent? (fun a b => a.1 == b.1) sorted with
    | some (name, _) => Result.violation (.elementNameIn name type.descriptor)
    | none =>
      let index ← r.type type
      let elements ← concatAll (sorted.map Prod.snd)
      return Bytes.uleb index ++ Bytes.ulebNat sorted.length ++ elements

/-- The encodings of the elements beside their names. -/
def Element.encodeAll (r : Resolver) : List Element → List (String × Result Bytes)
  | [] => []
  | ⟨name, v⟩ :: es =>
    (name, do return Bytes.uleb (← r.string name) ++ (← v.encode r)) :: Element.encodeAll r es

end

/-- The values behind their count. -/
def encodeArray (r : Resolver) (values : List Value) : Result Bytes := do
  return Bytes.ulebNat values.length ++ (← Value.encodeAll r values)

/-! ## Writing into a buffer

The same bytes, added part by part to what has been written before them, and their number. -/

mutual

def Value.write (r : Resolver) (v : Value) : Writer Nat :=
  Writer.measured <| match v with
    | .array values => do
      let kind ← Bytes.put [v.kind]
      let count ← (Bytes.ulebNat values.length).put
      return kind + (count + (← Value.writeAll r values))
    | .annotated a => do
      let kind ← Bytes.put [v.kind]
      return kind + (← a.write r)
    | v => do Bytes.put (← v.encode r)

def Value.writeAll (r : Resolver) : List Value → Writer Nat
  | [] => return 0
  | v :: vs => do
    let count ← v.write r
    return count + (← Value.writeAll r vs)

def AnnotationValue.write (r : Resolver) : AnnotationValue → Writer Nat
  | ⟨type, elements⟩ => do
    let sorted := sortedBy (byKey compareUtf16 Prod.fst) (Element.writers r elements)
    match firstAdjacent? (fun a b => a.1 == b.1) sorted with
    | some (name, _) => Result.violation (.elementNameIn name type.descriptor)
    | none =>
      let index ← (Bytes.uleb (← r.type type)).put
      let count ← (Bytes.ulebNat sorted.length).put
      return index + count + (← Writer.sum (sorted.map Prod.snd))

/-- The writers of the elements beside their names. -/
def Element.writers (r : Resolver) : List Element → List (String × Writer Nat)
  | [] => []
  | ⟨name, v⟩ :: es => (name, do
      let index ← (Bytes.uleb (← r.string name)).put
      return index + (← v.write r)) :: Element.writers r es

end

/-- The values behind their count. -/
def writeArray (r : Resolver) (values : List Value) : Writer Nat := do
  let count ← (Bytes.ulebNat values.length).put
  return count + (← Value.writeAll r values)

/-! ## Reading -/

/-- An index that a value refers with. -/
def readIndex (width : UInt8) : Decoder UInt32 := do
  let n ← Packed.readUnsigned width
  if n.toNat < UInt32.size then pure n.toUInt32 else Decoder.fail (.valueIndex n.toNat)

/-- As many values as a count in front of them says. -/
def counted {α : Type} (item : Decoder α) : Decoder (List α) := do
  item.repeated (← Decoder.uleb).toNat

def elementBody (s : Source) (value : Decoder Value) : Decoder Element := do
  let name ← s.string (← Decoder.uleb)
  return ⟨name, ← value⟩

/-- An annotation whose values are read by `value`. -/
def annotationBody (s : Source) (value : Decoder Value) : Decoder AnnotationValue := do
  let type ← s.type (← Decoder.uleb)
  return ⟨type, ← counted (elementBody s value)⟩

/-- The value at the cursor; `room` is how many more arrays and annotations may enclose a value,
counting one for the value itself. -/
def Value.decodeNested (s : Source) : (room : Nat) → Decoder Value
  | 0 => do Decoder.fail (.valueNesting maxNesting (← Decoder.position))
  | room + 1 => do
    let first ← Decoder.u1
    let width := first >>> Packed.argShift
    let kind := first &&& 0x1f
    match kind.toNat with
    | 0x00 => return .byte (← Packed.readSigned width).toInt8
    | 0x02 => return .short (← Packed.readSigned width).toInt16
    | 0x03 => return .char (← Packed.readUnsigned width).toUInt16
    | 0x04 => return .int (← Packed.readSigned width).toInt32
    | 0x06 => return .long (← Packed.readSigned width)
    | 0x10 => return .float (← Packed.readFloat width)
    | 0x11 => return .double (← Packed.readDouble width)
    | 0x15 => return .methodType (← s.proto (← readIndex width))
    | 0x16 => return .methodHandle (← s.methodHandle (← readIndex width))
    | 0x17 => return .string (← s.string (← readIndex width))
    | 0x18 => return .type (← s.type (← readIndex width))
    | 0x19 => return .field (← s.field (← readIndex width))
    | 0x1a => return .method (← s.method (← readIndex width))
    | 0x1b => return .enum (← s.field (← readIndex width))
    | 0x1c => return .array (← counted (Value.decodeNested s room))
    | 0x1d => return .annotated (← annotationBody s (Value.decodeNested s room))
    | 0x1e => return .null
    | 0x1f => return .boolean (width != 0)
    | code => Decoder.fail (.valueType code ((← Decoder.position) - 1))

/-- A value that nothing encloses. -/
def Value.decode (s : Source) : Decoder Value := Value.decodeNested s (maxNesting + 1)

def decodeArray (s : Source) : Decoder (List Value) := counted (Value.decode s)

/-- An annotation that nothing encloses. -/
def AnnotationValue.decode (s : Source) : Decoder AnnotationValue :=
  annotationBody s (Value.decode s)

end Dalvik
