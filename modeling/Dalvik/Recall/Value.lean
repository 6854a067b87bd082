import Dalvik.Recall

/-!
# Values and annotations with a memory

The values are read as without a memory; what they refer to is looked up with its help.
-/
namespace Dalvik.RecallSource
variable (s : RecallSource)

/-- As many values as a count in front of them says. -/
def counted {α : Type} (item : RecallDecoder α) : RecallDecoder (List α) := do
  item.repeated (← Decoder.uleb).toNat

def elementBody (value : RecallDecoder Value) : RecallDecoder Element := do
  let name ← s.string (← Decoder.uleb)
  return ⟨name, ← value⟩

/-- An annotation whose values are read by `value`. -/
def annotationBody (value : RecallDecoder Value) : RecallDecoder AnnotationValue := do
  let type ← s.type (← Decoder.uleb)
  return ⟨type, ← counted (s.elementBody value)⟩

/-- The value at the cursor; `room` is how many more arrays and annotations may enclose a value,
counting one for the value itself. -/
def decodeNested : (room : Nat) → RecallDecoder Value
  | 0 => do Decoder.fail (.valueNesting maxNesting (← Decoder.position))
  | room + 1 => do
    let first ← Decoder.u1
    let width := first >>> Packed.argShift
    let kind := first &&& 0x1f
    match kind.toNat with
    | 0x00 => return .byte (← Packed.readSigned width).toInt8
    | 0x02 => return .short (← Packed.readSigned width).toInt16
    | 0x03 => return .char (← Packed.readUnsigned width).toUInt16
    | 0x04 => return .int (← Packed.readSigned width).toInt32
    | 0x06 => return .long (← Packed.readSigned width)
    | 0x10 => return .float (← Packed.readFloat width)
    | 0x11 => return .double (← Packed.readDouble width)
    | 0x15 => return .methodType (← s.proto (← readIndex width))
    | 0x16 => return .methodHandle (← s.methodHandle (← readIndex width))
    | 0x17 => return .string (← s.string (← readIndex width))
    | 0x18 => return .type (← s.type (← readIndex width))
    | 0x19 => return .field (← s.field (← readIndex width))
    | 0x1a => return .method (← s.method (← readIndex width))
    | 0x1b => return .enum (← s.field (← readIndex width))
    | 0x1c => return .array (← counted (decodeNested room))
    | 0x1d => return .annotated (← s.annotationBody (decodeNested room))
    | 0x1e => return .null
    | 0x1f => return .boolean (width != 0)
    | code => Decoder.fail (.valueType code ((← Decoder.position) - 1))

def decodeArray : RecallDecoder (List Value) := counted (s.decodeNested (maxNesting + 1))

/-- An annotation that nothing encloses. -/
def decodeAnnotationItem : RecallDecoder AnnotationItem := do
  let visibility ← Visibility.ofCode (← Decoder.u1)
  return ⟨visibility, ← s.annotationBody (s.decodeNested (maxNesting + 1))⟩

end Dalvik.RecallSource
