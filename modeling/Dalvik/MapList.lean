import Dalvik.Decoder

/-!
# The map of a file

A list of the sections of a file, each with its kind, the number of its items and its offset.
-/
namespace Dalvik

/-- The kinds of sections. -/
inductive SectionKind where
  | header
  | stringIds
  | typeIds
  | protoIds
  | fieldIds
  | methodIds
  | classDefs
  | callSiteIds
  | methodHandles
  | mapList
  | typeLists
  | annotationSetLists
  | annotationSets
  | classData
  | codeItems
  | stringData
  | debugInfo
  | annotationItems
  | encodedArrays
  | annotationDirectories
  | hiddenApi
  deriving DecidableEq, Repr

namespace SectionKind

def all : List SectionKind :=
  [header, stringIds, typeIds, protoIds, fieldIds, methodIds, classDefs, callSiteIds,
    methodHandles, mapList, typeLists, annotationSetLists, annotationSets, classData, codeItems,
    stringData, debugInfo, annotationItems, encodedArrays, annotationDirectories, hiddenApi]

def code : SectionKind → UInt16
  | header => 0x0000
  | stringIds => 0x0001
  | typeIds => 0x0002
  | protoIds => 0x0003
  | fieldIds => 0x0004
  | methodIds => 0x0005
  | classDefs => 0x0006
  | callSiteIds => 0x0007
  | methodHandles => 0x0008
  | mapList => 0x1000
  | typeLists => 0x1001
  | annotationSetLists => 0x1002
  | annotationSets => 0x1003
  | classData => 0x2000
  | codeItems => 0x2001
  | stringData => 0x2002
  | debugInfo => 0x2003
  | annotationItems => 0x2004
  | encodedArrays => 0x2005
  | annotationDirectories => 0x2006
  | hiddenApi => 0xf000

def ofCode? (code : UInt16) : Option SectionKind := all.find? (SectionKind.code · = code)

end SectionKind

structure MapItem where
  /-- The number of the kind, which need not be a known one. -/
  code : UInt16
  size : UInt32
  offset : UInt32
  deriving DecidableEq, Repr

namespace MapItem

def of (kind : SectionKind) (size offset : Nat) : MapItem :=
  ⟨kind.code, UInt32.ofNat size, UInt32.ofNat offset⟩

/-- The size of an item. -/
def itemSize : Nat := 12

def encode (m : MapItem) : Bytes :=
  Bytes.u2 m.code ++ Bytes.u2 0 ++ Bytes.u4 m.size ++ Bytes.u4 m.offset

def decode : Decoder MapItem := do
  let code ← Decoder.u2
  let _ ← Decoder.u2
  let size ← Decoder.u4
  return ⟨code, size, ← Decoder.u4⟩

def encodeList (items : List MapItem) : Bytes :=
  Bytes.u4 (UInt32.ofNat items.length) ++ items.flatMap encode

def decodeList : Decoder (List MapItem) := do
  let size := (← Decoder.u4).toNat
  if (← Decoder.input).size / itemSize < size then Decoder.fail (.mapSize size)
  decode.repeated size

end MapItem

end Dalvik
