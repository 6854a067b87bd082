import Dalvik.Decoder
import Dalvik.Version

/-!
# The header of a file

It names the version, says where everything is, and holds the checksum and the signature. Compact
files and containers have more fields at its end.
-/
namespace Dalvik

/-- How many items a section has, and where it begins. -/
structure Extent where
  size : UInt32 := 0
  offset : UInt32 := 0
  deriving DecidableEq, Repr

namespace Extent

/-- The extent of a section; an empty section is nowhere. -/
def of (size offset : Nat) : Extent :=
  if size = 0 then {} else ⟨UInt32.ofNat size, UInt32.ofNat offset⟩

def encode (e : Extent) : Bytes := Bytes.u4 e.size ++ Bytes.u4 e.offset

def decode : Decoder Extent := do
  let size ← Decoder.u4
  return ⟨size, ← Decoder.u4⟩

end Extent

/-- What only the header of a compact file holds. -/
structure CompactFields where
  features : UInt32
  /-- Where the table of debug information begins. -/
  debugTable : UInt32
  /-- Where its index begins, counted from the table. -/
  debugIndex : UInt32
  /-- What the first difference in a block of the table counts from. -/
  debugBase : UInt32
  ownedBegin : UInt32
  ownedEnd : UInt32
  deriving DecidableEq, Repr

/-- What only the headers in a container hold. -/
structure ContainerFields where
  size : UInt32
  headerOffset : UInt32
  deriving DecidableEq, Repr

structure Header where
  magic : Bytes
  checksum : UInt32 := 0
  signature : Bytes := List.replicate 20 0
  fileSize : UInt32 := 0
  headerSize : UInt32 := 0
  endianTag : UInt32 := 0
  link : Extent := {}
  mapOffset : UInt32 := 0
  strings : Extent := {}
  types : Extent := {}
  protos : Extent := {}
  fields : Extent := {}
  methods : Extent := {}
  classes : Extent := {}
  data : Extent := {}
  compact : Option CompactFields := none
  container : Option ContainerFields := none
  deriving DecidableEq, Repr

namespace Header

def magicSize : Nat := 8
def signatureSize : Nat := 20
def baseSize : Nat := 0x70

/-- What the tag of a file in the byte order of this format reads as. -/
def littleEndian : UInt32 := 0x12345678

/-- What it reads as in the other byte order. -/
def bigEndian : UInt32 := 0x78563412

def checksumOffset : Nat := magicSize

/-- The checksum covers everything behind it. -/
def signatureOffset : Nat := checksumOffset + 4

/-- The signature covers everything behind it. -/
def fileSizeOffset : Nat := signatureOffset + signatureSize

def containerSizeOffset : Nat := baseSize

/-- The size of the header of a version. -/
def sizeOf (v : Version) : Nat :=
  if v.isCompact then baseSize + 4 * 6
  else if v.isContainer then baseSize + 4 * 2
  else baseSize

def encodeCompactFields (c : CompactFields) : Bytes :=
  Bytes.u4 c.features ++ Bytes.u4 c.debugTable ++ Bytes.u4 c.debugIndex ++
    Bytes.u4 c.debugBase ++ Bytes.u4 c.ownedBegin ++ Bytes.u4 c.ownedEnd

def encodeContainerFields (c : ContainerFields) : Bytes :=
  Bytes.u4 c.size ++ Bytes.u4 c.headerOffset

def encode (h : Header) : Bytes :=
  h.magic ++ Bytes.u4 h.checksum ++ h.signature ++ Bytes.u4 h.fileSize ++
    Bytes.u4 h.headerSize ++ Bytes.u4 h.endianTag ++ h.link.encode ++ Bytes.u4 h.mapOffset ++
    h.strings.encode ++ h.types.encode ++ h.protos.encode ++ h.fields.encode ++
    h.methods.encode ++ h.classes.encode ++ h.data.encode ++
    (h.compact.map encodeCompactFields).getD [] ++
    (h.container.map encodeContainerFields).getD []

def decodeCompactFields : Decoder CompactFields :=
  return ⟨← Decoder.u4, ← Decoder.u4, ← Decoder.u4, ← Decoder.u4, ← Decoder.u4, ← Decoder.u4⟩

def decodeContainerFields : Decoder ContainerFields := return ⟨← Decoder.u4, ← Decoder.u4⟩

/-- The header of a version, whose magic is not checked again. -/
def decode (v : Version) : Decoder Header :=
  return {
    magic := ← Decoder.raw magicSize
    checksum := ← Decoder.u4
    signature := ← Decoder.raw signatureSize
    fileSize := ← Decoder.u4
    headerSize := ← Decoder.u4
    endianTag := ← Decoder.u4
    link := ← Extent.decode
    mapOffset := ← Decoder.u4
    strings := ← Extent.decode
    types := ← Extent.decode
    protos := ← Extent.decode
    fields := ← Extent.decode
    methods := ← Extent.decode
    classes := ← Extent.decode
    data := ← Extent.decode
    compact := ← if v.isCompact then some <$> decodeCompactFields else pure none
    container := ← if v.isContainer then some <$> decodeContainerFields else pure none }

end Header

end Dalvik
