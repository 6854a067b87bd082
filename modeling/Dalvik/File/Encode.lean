import Dalvik.Contents.Gather
import Dalvik.Contents.Ids
import Dalvik.Debug.OffsetTable
import Dalvik.Digest.Adler32
import Dalvik.Digest.Sha1

/-!
# Writing files

A file is its header, the ids, the data and the map. All offsets of a standard file count from the
start of the buffer it lies in, which is how several of them can share one. The data of a compact
file counts from the start of the data. Signature and checksum come last.
-/
namespace Dalvik

namespace Contents

/-- The data of a compact file begins with bytes that no item uses, since 0 is nobody's offset. -/
def reserved : Nat := 8

def mapAlignment : Nat := 4

/-- The alignment of the data of a compact file, and of the end of the data. -/
def dataAlignment : Nat := 8

/-- The map of a file with its sections in the order of their offsets; it lists itself. -/
def mapOf (c : Contents) (o : WriteOptions) (headerOffset : Nat) (l : IdLayout) (d : Data)
    (offset : Nat) : List MapItem :=
  sortedBy (compareOn MapItem.offset) <|
    MapItem.of .header 1 headerOffset :: c.idMapItems l ++
      (d.sections o.version.isCompact).flatMap DataSection.mapItems ++
      [MapItem.of .mapList 1 offset]

/-- The offset of the debug information of each method in the pool, 0 if it has none. -/
def debugOffsets (c : Contents) (d : Data) : Result (List UInt32) := do
  let described := (c.classes.flatMap ClassEntry.methods).filter (·.debug.isSome)
  let known ← described.mapM fun m => do
    let index ← c.resolver.method m.id
    return (index, ← d.debugInfos.offset "debug info" m.debug)
  let none := Array.replicate c.pools.methods.size (0 : UInt32)
  return (known.foldl (fun offsets (index, offset) =>
    offsets.setIfInBounds index.toNat offset) none).toList

/-- The header without checksum, signature, sizes and what depends on the kind of file. -/
def headerOf (c : Contents) (v : Version) (l : IdLayout) (mapOffset : Nat) : Header where
  magic := v.magic
  headerSize := UInt32.ofNat (Header.sizeOf v)
  endianTag := Header.littleEndian
  mapOffset := UInt32.ofNat mapOffset
  strings := Extent.of c.pools.strings.size l.strings
  types := Extent.of c.pools.types.size l.types
  protos := Extent.of c.pools.protos.size l.protos
  fields := Extent.of c.pools.fields.size l.fields
  methods := Extent.of c.pools.methods.size l.methods
  classes := Extent.of c.classes.length l.classes

/-- Checks that all offsets fit 32 bits. -/
def checkFileSize (size : Nat) : Result Unit :=
  if 0xffffffff < size then Result.violation (.fileSize size) else .ok ()

/-- The bytes with zeros up to a multiple of `alignment`, as they stand at `position`. -/
def padded (alignment position : Nat) (bytes : Bytes) : Bytes :=
  bytes ++ padding (position + bytes.length) alignment

/-- A compact file: its data, which counts from its own start, has a table of debug information
behind the map. -/
def encodeCompact (c : Contents) (o : WriteOptions) : Result Bytes := do
  let l := c.layout (Header.sizeOf o.version)
  let d ← c.data o reserved
  let ids ← c.encodeIds d
  let items := padded mapAlignment 0 (List.replicate reserved 0 ++ d.bytes true)
  let mapOffset := items.length
  let upToMap := items ++ MapItem.encodeList (c.mapOf o 0 l d mapOffset)
  let offsets ← c.debugOffsets d
  let upToMap := padded mapAlignment 0 upToMap
  let data := padded dataAlignment 0 (upToMap ++ DebugTable.encode offsets)
  let dataOffset := alignUp l.stop dataAlignment
  checkFileSize (dataOffset + data.length)
  let header := { c.headerOf o.version l mapOffset with
    fileSize := UInt32.ofNat dataOffset
    data := ⟨UInt32.ofNat data.length, UInt32.ofNat dataOffset⟩
    compact := some {
      features := 1
      debugTable := UInt32.ofNat upToMap.length
      debugIndex := 0
      debugBase := DebugTable.base offsets
      ownedBegin := 0
      ownedEnd := UInt32.ofNat data.length } }
  return padded dataAlignment 0 (header.encode ++ ids) ++ data

/-- A standard file as it stands at `headerOffset` of a buffer. -/
def encodeStandard (c : Contents) (o : WriteOptions) (headerOffset : Nat) : Result Bytes := do
  let l := c.layout (headerOffset + Header.sizeOf o.version)
  let dataOffset := alignUp l.stop mapAlignment
  let d ← c.data o dataOffset
  let ids ← c.encodeIds d
  let items := padded mapAlignment dataOffset (d.bytes false)
  let mapOffset := dataOffset + items.length
  let data := padded dataAlignment dataOffset
    (items ++ MapItem.encodeList (c.mapOf o headerOffset l d mapOffset))
  let stop := dataOffset + data.length
  checkFileSize stop
  let header := { c.headerOf o.version l mapOffset with
    fileSize := UInt32.ofNat (stop - headerOffset)
    data := ⟨UInt32.ofNat data.length, UInt32.ofNat dataOffset⟩
    container := if o.version.isContainer then some ⟨0, UInt32.ofNat headerOffset⟩ else none }
  return padded mapAlignment headerOffset (header.encode ++ ids) ++ data

end Contents

namespace Dex

/-- The file that stands at `headerOffset` of a buffer, without signature and checksum. -/
def encodeUnsigned (o : WriteOptions) (headerOffset : Nat) (d : Dex) : Result Bytes := do
  o.validate
  let c ← Contents.ofDex o d
  if o.version.isCompact then c.encodeCompact o else c.encodeStandard o headerOffset

/-- Puts the signature of a file and then its checksum into the header. -/
def sign (file : Bytes) : Bytes :=
  let signed := file.overwrite Header.signatureOffset
    (Digest.sha1 (file.drop Header.fileSizeOffset))
  signed.overwrite Header.checksumOffset
    (Bytes.u4 (Digest.adler32 (signed.drop Header.signatureOffset)))

/-- The files of a container, from number `index` at `headerOffset` on. -/
def encodeFrom (o : WriteOptions) (index headerOffset : Nat) : List Dex → Result (List Bytes)
  | [] => .ok []
  | d :: rest => do
    let file ← (d.encodeUnsigned o headerOffset).within s!"dex file {index} of the container"
    return file :: (← encodeFrom o (index + 1) (headerOffset + file.length) rest)

/-- Several files in one buffer; each header tells its own place and the size of the whole. -/
def encodeContainer (o : WriteOptions) (files : List Dex) : Result Bytes := do
  if !o.version.isContainer then Result.unsupported (.containerVersion (toString o.version))
  if files.isEmpty then Result.violation .emptyContainer
  let parts ← encodeFrom o 0 0 files
  let size := Bytes.u4 (UInt32.ofNat parts.flatten.length)
  return parts.flatMap fun file => sign (file.overwrite Header.containerSizeOffset size)

/-- A file on its own; in a version for containers it is a container of one file. -/
def encode (o : WriteOptions) (d : Dex) : Result Bytes :=
  if o.version.isContainer then encodeContainer o [d] else sign <$> d.encodeUnsigned o 0

end Dex

end Dalvik
