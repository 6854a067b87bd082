import Dalvik.MethodHandle

/-!
# Encoded values

The constants a file can hold outside of code: initial values of static fields, elements of
annotations and arguments of call sites. Arrays and annotations hold further values.
Floating-point numbers are kept as their bits.
-/
namespace Dalvik

mutual

inductive Value where
  | byte (n : Int8)
  | short (n : Int16)
  | char (unit : UInt16)
  | int (n : Int32)
  | long (n : Int64)
  | float (bits : UInt32)
  | double (bits : UInt64)
  | methodType (proto : ProtoId)
  | methodHandle (handle : MethodHandle)
  | string (text : String)
  | type (id : TypeId)
  | field (id : FieldId)
  | method (id : MethodId)
  | enum (id : FieldId)
  | array (values : List Value)
  | annotated (value : AnnotationValue)
  | null
  | boolean (b : Bool)

/-- A type with named values. -/
structure AnnotationValue where
  type : TypeId
  elements : List Element

structure Element where
  name : String
  value : Value

end

deriving instance Inhabited for Value

namespace Value

/-- The number that stands for the kind of a value, and orders values of different kinds. -/
def kind : Value → UInt8
  | byte _ => 0x00
  | short _ => 0x02
  | char _ => 0x03
  | int _ => 0x04
  | long _ => 0x06
  | float _ => 0x10
  | double _ => 0x11
  | methodType _ => 0x15
  | methodHandle _ => 0x16
  | string _ => 0x17
  | type _ => 0x18
  | field _ => 0x19
  | method _ => 0x1a
  | enum _ => 0x1b
  | array _ => 0x1c
  | annotated _ => 0x1d
  | null => 0x1e
  | boolean _ => 0x1f

/-- What a field of the type holds when nothing is stored for it. -/
def defaultFor (t : TypeId) : Result Value :=
  match t.shorty with
  | 'Z' => .ok (boolean false)
  | 'B' => .ok (byte 0)
  | 'S' => .ok (short 0)
  | 'C' => .ok (char 0)
  | 'I' => .ok (int 0)
  | 'J' => .ok (long 0)
  | 'F' => .ok (float 0)
  | 'D' => .ok (double 0)
  | 'L' => .ok null
  | _ => Result.violation (.noDefault t.descriptor)

/-- True for the values that `defaultFor` gives. -/
def isDefault : Value → Bool
  | byte n => n == 0
  | short n => n == 0
  | char n => n == 0
  | int n => n == 0
  | long n => n == 0
  | float bits => bits == 0
  | double bits => bits == 0
  | null => true
  | boolean b => !b
  | _ => false

def asAnnotation? : Value → Option AnnotationValue
  | annotated a => some a
  | _ => none

/-- The values of static fields without the defaults at the end. -/
def trimDefaults (values : List Value) : List Value :=
  (values.reverse.dropWhile isDefault).reverse

end Value

/-- How many arrays and annotations may enclose a value. -/
def maxNesting : Nat := 128

end Dalvik
