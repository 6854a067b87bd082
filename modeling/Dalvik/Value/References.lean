import Dalvik.Instruction

/-!
# What values refer to

The entries of the pools that a value needs, and how deep the values inside it are nested.
-/
namespace Dalvik

mutual

/-- How many arrays and annotations enclose the innermost of the values inside a value. -/
def Value.depth : Value → Nat
  | .array values => Value.depthAll values
  | .annotated a => a.depth
  | _ => 0

/-- The depth of an array with these values. -/
def Value.depthAll : List Value → Nat
  | [] => 0
  | v :: vs => max (v.depth + 1) (Value.depthAll vs)

def AnnotationValue.depth : AnnotationValue → Nat
  | ⟨_, elements⟩ => Element.depthAll elements

def Element.depthAll : List Element → Nat
  | [] => 0
  | ⟨_, v⟩ :: es => max (v.depth + 1) (Element.depthAll es)

end

mutual

/-- What a value refers to. Of several values inside it the last one comes first. -/
def Value.references : Value → List Reference
  | .methodType id => [.proto id]
  | .methodHandle handle => [.methodHandle handle]
  | .string text => [.string text]
  | .type id => [.type id]
  | .field id => [.field id]
  | .method id => [.method id]
  | .enum id => [.field id]
  | .array values => Value.referencesAll values
  | .annotated a => a.references
  | _ => []

def Value.referencesAll : List Value → List Reference
  | [] => []
  | v :: vs => Value.referencesAll vs ++ v.references

def AnnotationValue.references : AnnotationValue → List Reference
  | ⟨type, elements⟩ => .type type :: Element.referencesAll elements

def Element.referencesAll : List Element → List Reference
  | [] => []
  | ⟨name, v⟩ :: es => Element.referencesAll es ++ .string name :: v.references

end

end Dalvik
