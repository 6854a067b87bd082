import Dalvik.Class

/-!
# The contents of a file

Everything that is written for the classes of a file: the pools of what they refer to, the items
that are stored once however often they are used, and for each class the items it uses.
-/
namespace Dalvik

/-- The annotations of a class and of its members. A directory with members belongs to one class;
directories of classes alone are shared. -/
structure AnnotationDirectory where
  owner : Option TypeId
  ofClass : List AnnotationItem
  ofFields : List (FieldId × List AnnotationItem)
  ofMethods : List (MethodId × List AnnotationItem)
  ofParameters : List (MethodId × List (List AnnotationItem))
  deriving DecidableEq, Hashable

/-- What makes two code items the same. -/
structure SharedCode where
  code : Code
  incoming : UInt16
  outgoing : UInt16
  /-- The debug information, if the item points to it. -/
  debug : Option Nat
  deriving DecidableEq, Hashable

/-- The items that are stored once each. -/
structure SharedItems where
  typeLists : ItemSet (List TypeId) := ∅
  encodedArrays : ItemSet (List Value) := ∅
  annotations : ItemSet AnnotationItem := ∅
  annotationSets : ItemSet (List AnnotationItem) := ∅
  annotationSetLists : ItemSet (List (List AnnotationItem)) := ∅
  directories : ItemSet AnnotationDirectory := ∅
  code : ItemSet SharedCode := ∅
  debugInfos : ItemSet DebugInfo := ∅

structure FieldEntry where
  definition : FieldDef
  id : FieldId

structure MethodEntry where
  definition : MethodDef
  id : MethodId
  code : Option Nat
  debug : Option Nat

/-- A class with its members in the order of their ids and the ids of the items it uses. -/
structure ClassEntry where
  definition : ClassDef
  interfaces : Option Nat
  staticValues : Option Nat
  annotations : Option Nat
  staticFields : List FieldEntry
  instanceFields : List FieldEntry
  directMethods : List MethodEntry
  virtualMethods : List MethodEntry

namespace ClassEntry

def fields (c : ClassEntry) : List FieldEntry := c.staticFields ++ c.instanceFields

def methods (c : ClassEntry) : List MethodEntry := c.directMethods ++ c.virtualMethods

/-- True if the class has members, for which data is stored. -/
def hasData (c : ClassEntry) : Bool := !(c.fields.isEmpty && c.methods.isEmpty)

end ClassEntry

structure Contents where
  pools : Pools
  items : SharedItems
  classes : List ClassEntry

end Dalvik
