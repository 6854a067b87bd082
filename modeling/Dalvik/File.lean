import Dalvik.Digest.Adler32
import Dalvik.Header
import Dalvik.IdItem
import Dalvik.MapList
import Dalvik.Options
import Dalvik.Pools
import Dalvik.Opcode

/-!
# Files in bytes

A file is opened at the place of its header. Opening checks that the header, the map and the
sections of ids fit together and lie inside the bytes; what they lead to is read on demand.
-/
namespace Dalvik
open Text

/-- A section of ids in a file. -/
structure IdSection where
  name : String
  offset : Nat
  size : Nat
  itemSize : Nat
  deriving DecidableEq, Repr

namespace IdSection

/-- A section that has to lie inside the `fileSize` bytes of a file, unless it is empty. -/
def build (name : String) (extent : Extent) (itemSize fileSize : Nat) : Result IdSection :=
  let size := extent.size.toNat
  let offset := extent.offset.toNat
  if size ≠ 0 ∧ fileSize < offset + size * itemSize then
    Result.malformed (.idsPastEnd name offset)
  else .ok { name, offset, size, itemSize }

/-- The place of the item with an index. -/
def position (s : IdSection) (index : UInt32) : Result Nat := do
  return s.offset + (← checkIndex s.name index s.size) * s.itemSize

end IdSection

structure DexFile where
  bytes : ByteArray
  /-- What offsets of data count in: the data of a compact file, else all bytes. -/
  data : ByteArray
  headerOffset : Nat
  version : Version
  header : Header
  options : Options
  /-- The release whose rules count, at least the oldest one that reads the version. -/
  api : Int
  opcodes : OpcodeTable
  map : List MapItem
  strings : IdSection
  types : IdSection
  protos : IdSection
  fields : IdSection
  methods : IdSection
  classes : IdSection
  callSites : IdSection
  methodHandles : IdSection

namespace DexFile

/-! ## Opening -/

/-- The version of the file whose header is at `headerOffset`; the bytes hold all of the header. -/
def versionAt (bytes : ByteArray) (headerOffset : Nat) : Result Version := do
  if bytes.size < headerOffset + Header.baseSize then
    Result.notADex (.tooShort bytes.size headerOffset)
  let magic ← Access.slice bytes headerOffset (headerOffset + Header.magicSize)
  let v ← Version.ofMagic magic.toList
  if bytes.size < headerOffset + Header.sizeOf v then
    Result.notADex (.tooShortFor (toString v))
  return v

/-- Checks what the header says of itself and of the size of the file. -/
def checkHeader (h : Header) (v : Version) (headerOffset available : Nat) : Result Unit := do
  if h.endianTag = Header.bigEndian then Result.malformed .bigEndian
  if h.endianTag ≠ Header.littleEndian then Result.malformed (.endianTag h.endianTag.toNat)
  let size := Header.sizeOf v
  if h.headerSize.toNat ≠ size then
    Result.malformed (.headerSize h.headerSize.toNat (toString v) size)
  if h.fileSize.toNat < size then Result.malformed (.fileSize h.fileSize.toNat)
  if available < headerOffset + h.fileSize.toNat then
    Result.malformed (.fileTruncated h.fileSize.toNat (available - headerOffset))
  if let some c := h.container then
    if c.headerOffset.toNat ≠ headerOffset then
      Result.malformed (.headerOffset c.headerOffset.toNat headerOffset)
    if available < c.size.toNat then
      Result.malformed (.containerTruncated c.size.toNat available)

/-- The bytes that offsets of data count in. -/
def dataOf (bytes : ByteArray) (v : Version) (h : Header) : Result ByteArray := do
  if v.isCompact then
    let stop := h.data.offset.toNat + h.data.size.toNat
    if bytes.size < stop then Result.malformed (.dataTruncated stop)
    Access.slice bytes h.data.offset.toNat bytes.size
  else return bytes

/-- What the map has to say about a kind of section, as far as the header tells. -/
def expectedExtent? (h : Header) (headerOffset : Nat) : SectionKind → Option Extent
  | .header => some ⟨1, UInt32.ofNat headerOffset⟩
  | .stringIds => some h.strings
  | .typeIds => some h.types
  | .protoIds => some h.protos
  | .fieldIds => some h.fields
  | .methodIds => some h.methods
  | .classDefs => some h.classes
  | .mapList => some ⟨1, h.mapOffset⟩
  | _ => none

/-- Checks one item of the map behind those whose kinds are `seen`. -/
def checkMapItem (h : Header) (headerOffset : Nat) (seen : List UInt16) (m : MapItem) :
    Result Unit := do
  match SectionKind.ofCode? m.code with
  | none => Result.malformed (.mapType m.code.toNat)
  | some kind =>
    if m.code ∈ seen then Result.malformed (.mapDuplicate m.code.toNat)
    if let some e := expectedExtent? h headerOffset kind then
      if m.size ≠ e.size ∨ m.offset ≠ e.offset then
        Result.malformed (.mapDisagrees m.code.toNat m.size.toNat m.offset.toNat e.size.toNat
          e.offset.toNat)

/-- Checks that the map holds known kinds of sections, each once, and agrees with the header. -/
def checkMap (h : Header) (headerOffset : Nat) (seen : List UInt16) : List MapItem → Result Unit
  | [] => .ok ()
  | m :: rest => do
    checkMapItem h headerOffset seen m
    checkMap h headerOffset (m.code :: seen) rest

/-- The extent of a section by the map, empty if it is not there. -/
def mapped (map : List MapItem) (kind : SectionKind) : Extent :=
  match map.find? (·.code = kind.code) with
  | some m => ⟨m.size, m.offset⟩
  | none => {}

/-- Opens the file whose header is at `headerOffset`. -/
def ofBytes (o : Options) (bytes : ByteArray) (headerOffset : Nat) : Result DexFile := do
  o.validate
  let version ← versionAt bytes headerOffset
  let header ← (Header.decode version).valueAt bytes headerOffset
  checkHeader header version headerOffset bytes.size
  let data ← dataOf bytes version header
  let api := max o.targetApi version.minApi
  let mapOffset := header.mapOffset.toNat
  let map ← if mapOffset = 0 then pure []
    else (MapItem.decodeList.valueAt data mapOffset).within s!"map list at {hex mapOffset}"
  checkMap header headerOffset [] map
  let ids (name : String) (extent : Extent) (itemSize : Nat) : Result IdSection :=
    IdSection.build name extent itemSize bytes.size
  return {
    bytes, data, headerOffset, version, header
    options := o
    api
    opcodes := OpcodeTable.ofTarget ⟨version, api, o.targetArt, o.allowOdex⟩
    map
    strings := ← ids "string" header.strings IdItem.stringSize
    types := ← ids "type" header.types IdItem.typeSize
    protos := ← ids "proto" header.protos IdItem.Proto.size
    fields := ← ids "field" header.fields IdItem.Member.size
    methods := ← ids "method" header.methods IdItem.Member.size
    classes := ← ids "class def" header.classes IdItem.Class.size
    callSites := ← ids "call site" (mapped map .callSiteIds) IdItem.callSiteSize
    methodHandles := ← ids "method handle" (mapped map .methodHandles) IdItem.Handle.size }

/-! ## What the header tells -/

/-- The size of the file without the data of a compact one. -/
def size (f : DexFile) : Nat := f.header.fileSize.toNat

def classCount (f : DexFile) : Nat := f.classes.size

/-- Where the section with the restrictions of members is, if there is one. -/
def hiddenApiOffset? (f : DexFile) : Option Nat :=
  (f.map.find? (·.code = SectionKind.hiddenApi.code)).map (·.offset.toNat)

/-! ## The checksum -/

/-- A checksum that is not that of the bytes. It does not keep a file from being read. -/
structure ChecksumMismatch where
  version : Version
  headerOffset : Nat
  stored : UInt32
  computed : UInt32
  deriving DecidableEq, Repr

def ChecksumMismatch.message (m : ChecksumMismatch) : String :=
  s!"{m.version} at {hex m.headerOffset} has checksum {hexPadded 8 m.stored.toNat}, " ++
    s!"contents give {hexPadded 8 m.computed.toNat}"

/-- The end of what the checksum covers; the data of a compact file counts. -/
def checksumStop (f : DexFile) : Nat :=
  if f.version.isCompact then f.header.data.offset.toNat + f.header.data.size.toNat
  else f.headerOffset + f.size

/-- The mismatch of the checksum, if there is one. -/
def checksumMismatch? (f : DexFile) : Option ChecksumMismatch :=
  let start := f.headerOffset + Header.signatureOffset
  let stop := f.checksumStop
  if start ≤ stop ∧ stop ≤ f.bytes.size then
    let computed := Digest.adler32 (f.bytes.extract start stop).toList
    if computed = f.header.checksum then none
    else some ⟨f.version, f.headerOffset, f.header.checksum, computed⟩
  else none

end DexFile

end Dalvik
