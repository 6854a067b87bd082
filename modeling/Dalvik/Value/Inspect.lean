import Dalvik.Text.Shortest
import Dalvik.Value

/-!
# Spelling values out

The text of a value inside a diagnostic: the name of its kind with its content in parentheses.
-/
namespace Dalvik
open Text

mutual

def Value.inspect : Value → String
  | .byte n => s!"Byte({n})"
  | .short n => s!"Short({n})"
  | .char unit => s!"Char({unit})"
  | .int n => s!"Int({n})"
  | .long n => s!"Long({n})"
  | .float bits => s!"Float({floatText .single bits.toNat})"
  | .double bits => s!"Double({floatText .double bits.toNat})"
  | .methodType proto => s!"MethodType({proto.inspect})"
  | .methodHandle handle => s!"MethodHandle({handle.inspect})"
  | .string text => s!"String({quoted text})"
  | .type id => s!"Type({id.inspect})"
  | .field id => s!"Field({id.inspect})"
  | .method id => s!"Method({id.inspect})"
  | .enum id => s!"Enum({id.inspect})"
  | .array values => "Array([" ++ ", ".intercalate (Value.inspectAll values) ++ "])"
  | .annotated value => "Annotation(" ++ value.inspect ++ ")"
  | .null => "Null"
  | .boolean b => s!"Boolean({b})"

def Value.inspectAll : List Value → List String
  | [] => []
  | v :: vs => v.inspect :: Value.inspectAll vs

def AnnotationValue.inspect : AnnotationValue → String
  | ⟨type, elements⟩ =>
    s!"EncodedAnnotation \x7b annotation_type: {type.inspect}, elements: [" ++
      ", ".intercalate (Element.inspectAll elements) ++ "] \x7d"

def Element.inspectAll : List Element → List String
  | [] => []
  | e :: es => Element.inspect e :: Element.inspectAll es

def Element.inspect : Element → String
  | ⟨name, value⟩ =>
    s!"AnnotationElement \x7b name: {quoted name}, value: {value.inspect} \x7d"

end

end Dalvik
