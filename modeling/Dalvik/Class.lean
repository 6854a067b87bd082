import Dalvik.AccessFlags
import Dalvik.AnnotationItem
import Dalvik.Code

/-!
# Classes

The content of a file: classes with their fields and methods, as values that know nothing of pools
and offsets.
-/
namespace Dalvik

structure FieldDef where
  name : String
  type : TypeId
  access : UInt32 := 0
  /-- To what degree the field is hidden from applications. -/
  restriction : UInt32 := 0
  /-- The initial value; only static fields can have one. -/
  value : Option Value := none
  annotations : List AnnotationItem := []
  deriving DecidableEq

def FieldDef.isStatic (f : FieldDef) : Bool := AccessFlags.has f.access AccessFlags.isStatic

structure Parameter where
  type : TypeId
  name : Option String := none
  annotations : List AnnotationItem := []
  deriving DecidableEq

structure MethodDef where
  name : String
  returnType : TypeId
  parameters : List Parameter := []
  access : UInt32 := 0
  /-- To what degree the method is hidden from applications. -/
  restriction : UInt32 := 0
  code : Option Code := none
  annotations : List AnnotationItem := []
  deriving DecidableEq

namespace MethodDef

def proto (m : MethodDef) : ProtoId := ⟨m.returnType, m.parameters.map Parameter.type⟩

def isStatic (m : MethodDef) : Bool := AccessFlags.has m.access AccessFlags.isStatic

/-- How many registers the arguments arrive in, with one for the receiver. -/
def incoming (m : MethodDef) : Nat := m.proto.parameterRegisters + if m.isStatic then 0 else 1

def parameterNames (m : MethodDef) : List (Option String) := m.parameters.map Parameter.name

def parameterAnnotations (m : MethodDef) : List (List AnnotationItem) :=
  m.parameters.map Parameter.annotations

/-- What a file tells about the source of the method with this code. -/
def debugInfo (m : MethodDef) (c : Code) : DebugInfo := ⟨m.parameterNames, c.debug⟩

end MethodDef

structure ClassDef where
  type : TypeId
  access : UInt32 := 0
  superclass : Option TypeId := none
  interfaces : List TypeId := []
  sourceFile : Option String := none
  staticFields : List FieldDef := []
  instanceFields : List FieldDef := []
  directMethods : List MethodDef := []
  virtualMethods : List MethodDef := []
  annotations : List AnnotationItem := []
  deriving DecidableEq

namespace ClassDef

instance : ToString ClassDef := ⟨fun c => s!"class {c.type}"⟩

def fieldId (c : ClassDef) (f : FieldDef) : FieldId := ⟨c.type, f.name, f.type⟩

def methodId (c : ClassDef) (m : MethodDef) : MethodId := ⟨c.type, m.name, m.proto⟩

def fields (c : ClassDef) : List FieldDef := c.staticFields ++ c.instanceFields

def methods (c : ClassDef) : List MethodDef := c.directMethods ++ c.virtualMethods

/-- True if the class has neither fields nor methods. -/
def hasNoMembers (c : ClassDef) : Bool := c.fields.isEmpty && c.methods.isEmpty

end ClassDef

/-- The content of one file: its classes in their order. -/
structure Dex where
  classes : List ClassDef := []
  deriving DecidableEq

/-- The first class with a descriptor. -/
def Dex.findClass? (d : Dex) (descriptor : String) : Option ClassDef :=
  d.classes.find? (·.type.descriptor == descriptor)

end Dalvik
