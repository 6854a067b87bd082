import Dalvik.Text.Hex

/-!
# What can go wrong

Reading and writing fail with an `Error`: a cause and the places it happened in, innermost first.
The causes are grouped by what the caller can conclude from them, and their wording is kept here
and nowhere else.
-/
namespace Dalvik
open Text

/-- The classes of failure that a caller tells apart. -/
inductive ErrorKind where
  | notADex
  | invalidFormat
  | unsupportedTarget
  | unresolvedReference
  | structuralViolation
  | bounds
  /-- What ends the program, so that no caller is told. -/
  | fault
  deriving DecidableEq, Repr

/-- Bytes that are no file of this format at all. -/
inductive NotADex where
  | magicLength (length : Nat)
  | unknownMagic (magic : List UInt8)
  | tooShort (length headerOff : Nat)
  | tooShortFor (version : String)
  deriving DecidableEq, Repr

/-- The two flavours of LEB128 numbers. -/
inductive LebKind where
  | unsigned
  | signed
  deriving DecidableEq, Repr

/-- Bytes that break a layout rule of the format. -/
inductive Malformed where
  | wordPastEnd (width index : Nat)
  | pastEnd (index : Nat)
  | rawPastEnd (length index : Nat)
  | lebTooWide (kind : LebKind) (value : Int) (index : Nat)
  | lebOverflow
  | lebTooLong (kind : LebKind)
  | lebPastEnd (kind : LebKind)
  | packedWidth (width : Nat)
  | stringUnterminated (start : Nat)
  | stringEncoding (start : Nat)
  | stringLength (start declared actual : Nat)
  | valueNesting (limit index : Nat)
  | valueIndex (index : Nat)
  | valueType (code index : Nat)
  | handleKind (code : Nat)
  | callSiteTooShort
  | callSiteItem (value ordinal name : String)
  | visibility (code : Nat)
  | annotationOffsets (what : String) (size : Nat)
  | directorySize (start : Nat)
  | noOpcode (value : Nat) (target : String)
  | instructionsPastEnd (start : Nat)
  | unitCount (read expected : Nat)
  | noReference (index : Nat)
  | nonzeroArgument (opcode : String) (argument : Nat)
  | registerCount (opcode : String) (count : Nat)
  | elementWidth (width : Nat)
  | arrayPayloadSize (size : Nat)
  | handlerSize (count : Nat)
  | preheaderBeforeData
  | codeRegisters (offset : Nat)
  | handlerListSize (offset count : Nat)
  | handlerOffset (offset : Nat)
  | debugParameters (start count : Nat)
  | hiddenClass (index size : Nat)
  | mapSize (size : Nat)
  | mapType (code : Nat)
  | mapDuplicate (code : Nat)
  | mapDisagrees (code size offset headerSize headerOffset : Nat)
  | idsPastEnd (name : String) (offset : Nat)
  | bigEndian
  | endianTag (tag : Nat)
  | headerSize (size : Nat) (version : String) (expected : Nat)
  | fileSize (size : Nat)
  | fileTruncated (declared available : Nat)
  | headerOffset (offset expected : Nat)
  | containerTruncated (declared available : Nat)
  | dataTruncated (limit : Nat)
  | classMembers (count : Nat)
  | memberDelta (delta previous : Nat)
  | typeListSize (offset size : Nat)
  deriving DecidableEq, Repr

/-- Content that the chosen release, runtime or version cannot hold. -/
inductive Unsupported where
  | unknownOpcode (name : String)
  | opcode (name target : String)
  | apiWithoutVersion (api : Int)
  | api (api : Int)
  | artBefore (api : Int)
  | dalvikAfter (api : Int)
  | apiBelow (api required : Int)
  | hiddenFlags (flags : Nat)
  | hiddenFlagsApi (required api : Int)
  | containerVersion (version : String)
  deriving DecidableEq, Repr

/-- A value that is used while writing and has no place in the file. -/
inductive Unresolved where
  | value (pool text : String)
  | itemOffset (what : String) (id : Option Nat)
  | catchHandler
  deriving DecidableEq, Repr

/-- A model that breaks a rule of the format. -/
inductive Violation where
  | poolSize (pool : String) (size limit : Nat)
  | handleMember (kind member : String)
  | elementName (name : String)
  | elementNameIn (name type : String)
  | noDefault (type : String)
  | valueNesting (limit : Nat)
  | annotationType (type : String)
  | elementWidth (width : Nat)
  | unsignedOperand (value width : Nat)
  | signedOperand (bits width : Nat)
  | hatOperand (bits width : Nat)
  | opcodeValue (value : Nat)
  | payloadAlignment (position alignment : Nat)
  | payloadSize (size : Nat)
  | referenceKind (expected found : String)
  | tooManyRegisters (opcode : String) (count : Nat)
  | duplicateSwitchKey
  | arrayElement (element : Int) (width : Nat)
  | emptyHandler
  | registersBelowIncoming (registers ins : Nat)
  | argumentRegisters (registers ins : Nat)
  | tryOverlap (address : Nat)
  | tooManyTries (count : Nat)
  | tooManyUnits (count : Nat)
  | writtenUnits (expected written : Nat)
  | handlerOffset (offset : Nat)
  | duplicateClass (name : String)
  | duplicateMember (what id : String)
  | instanceValue (field : String)
  | fileSize (size : Nat)
  | emptyContainer
  deriving DecidableEq, Repr

/-- The operations of which a result can leave its word. -/
inductive Operation where
  | add
  | subtract
  | multiply
  | negate
  deriving DecidableEq, Repr

/-- An access to what is not there, or an operation whose result is not a word, where the program has
not asked before. The program ends with it instead of telling its caller. -/
inductive Fault where
  | entry (index size : Nat)
  | slice (start stop size : Nat)
  | overflow (operation : Operation)
  deriving DecidableEq, Repr

inductive Cause where
  | notADex (reason : NotADex)
  | malformed (reason : Malformed)
  | unsupported (reason : Unsupported)
  | unresolved (reason : Unresolved)
  | violation (reason : Violation)
  /-- An index outside its section. -/
  | bounds (pool : String) (index size : Nat)
  | fault (reason : Fault)
  deriving DecidableEq, Repr

def Cause.kind : Cause → ErrorKind
  | .notADex _ => .notADex
  | .malformed _ => .invalidFormat
  | .unsupported _ => .unsupportedTarget
  | .unresolved _ => .unresolvedReference
  | .violation _ => .structuralViolation
  | .bounds .. => .bounds
  | .fault _ => .fault

structure Error where
  cause : Cause
  /-- The places the failure happened in, innermost first. -/
  places : List String
  deriving DecidableEq, Repr

namespace Error

def kind (e : Error) : ErrorKind := e.cause.kind

def ofCause (c : Cause) : Error := ⟨c, []⟩

/-- The same failure, seen from one place further out. -/
def within (place : String) (e : Error) : Error := { e with places := e.places ++ [place] }

@[simp] theorem kind_within (place : String) (e : Error) : (e.within place).kind = e.kind := rfl

@[simp] theorem kind_ofCause (c : Cause) : (ofCause c).kind = c.kind := rfl

end Error

abbrev Result := Except Error

namespace Result

def notADex {α : Type} (reason : NotADex) : Result α := .error (.ofCause (.notADex reason))

def malformed {α : Type} (reason : Malformed) : Result α := .error (.ofCause (.malformed reason))

def unsupported {α : Type} (reason : Unsupported) : Result α :=
  .error (.ofCause (.unsupported reason))

def unresolved {α : Type} (reason : Unresolved) : Result α :=
  .error (.ofCause (.unresolved reason))

def violation {α : Type} (reason : Violation) : Result α := .error (.ofCause (.violation reason))

def fault {α : Type} (reason : Fault) : Result α := .error (.ofCause (.fault reason))

/-- Names the place in which a failing result failed. -/
@[macro_inline] def within {α : Type} (place : String) (r : Result α) : Result α :=
  match r with
  | .ok value => .ok value
  | .error e => .error (e.within place)

@[simp] theorem within_ok {α : Type} (place : String) (a : α) :
    within place (.ok a) = .ok a := rfl

@[simp] theorem within_error {α : Type} (place : String) (e : Error) :
    (within place (.error e) : Result α) = .error (e.within place) := rfl

theorem within_eq_ok_iff {α : Type} {place : String} {r : Result α} {a : α} :
    within place r = .ok a ↔ r = .ok a := by
  cases r <;> simp

end Result

/-! ## Wording -/

def ErrorKind.text : ErrorKind → String
  | .notADex => "not a dex file"
  | .invalidFormat => "invalid dex file"
  | .unsupportedTarget => "unsupported target"
  | .unresolvedReference => "unresolved reference"
  | .structuralViolation => "structural violation"
  | .bounds => "out of bounds"
  | .fault => "panic"

def LebKind.text : LebKind → String
  | .unsigned => "uleb128"
  | .signed => "sleb128"

def NotADex.text : NotADex → String
  | .magicLength length => s!"invalid magic length: {length}"
  | .unknownMagic magic => s!"Unknown dex version: {hexList magic}"
  | .tooShort length headerOff =>
    s!"File is too short: {length} bytes, header at {hex headerOff}"
  | .tooShortFor version => s!"File is too short for a {version} header"

def Malformed.text : Malformed → String
  | .wordPastEnd width index => s!"Unexpected end of stream reading u{width} at index {index}"
  | .pastEnd index => s!"Unexpected end of stream at index {index}"
  | .rawPastEnd length index =>
    s!"buffer too short for array read of {length} bytes at index {index}"
  | .lebTooWide kind value index => s!"{kind.text} value {value} at index {index} exceeds 32 bits"
  | .lebOverflow => "uleb128 value overflows 64 bits"
  | .lebTooLong kind => s!"{kind.text} value longer than 10 bytes"
  | .lebPastEnd kind => s!"Unexpected end of stream reading {kind.text}"
  | .packedWidth width => s!"Invalid encoded value width {width}"
  | .stringUnterminated start => s!"Unterminated string data at {start}"
  | .stringEncoding start => s!"Invalid MUTF-8 string data at {start}"
  | .stringLength start declared actual =>
    s!"String data at {start} declares {declared} UTF-16 units but holds {actual}"
  | .valueNesting limit index => s!"Encoded value nesting exceeds {limit} at index {index}"
  | .valueIndex index => s!"Encoded index {index} exceeds 32 bits"
  | .valueType code index =>
    s!"Unknown encoded value type {hexPadded 2 code} at index {index}"
  | .handleKind code => s!"Unknown method handle type: {code}"
  | .callSiteTooShort => "Invalid call site item: must contain at least 3 entries"
  | .callSiteItem value ordinal name =>
    s!"Invalid encoded value {value} for the {ordinal} item in call site {name}"
  | .visibility code => s!"Unknown annotation visibility: {code}"
  | .annotationOffsets what size => s!"{what} size {size} exceeds the file"
  | .directorySize start => s!"Annotations directory at {start} exceeds the file"
  | .noOpcode value target => s!"No opcode found with value {hex value} for {target}"
  | .instructionsPastEnd start => s!"Instructions at {start} run past the end of the file"
  | .unitCount read expected => s!"Read {read} code units, expected {expected}"
  | .noReference index => s!"Opcode carries no reference for index {index}"
  | .nonzeroArgument opcode argument =>
    s!"{opcode}: arg should be zero, but actual value is {argument}"
  | .registerCount opcode count => s!"{opcode}: invalid register count {count}"
  | .elementWidth width => s!"Invalid element width: {width}"
  | .arrayPayloadSize size => s!"Array payload of {size} elements runs past the code"
  | .handlerSize count => s!"Catch handler with {count} entries runs past the end"
  | .preheaderBeforeData => "Compact code item pre-header runs before the data section"
  | .codeRegisters offset =>
    s!"Compact code item at {offset} declares oversized register counts"
  | .handlerListSize offset count => s!"Code item at {offset} declares {count} catch handlers"
  | .handlerOffset offset => s!"Unable to find catch handler with offset {offset}"
  | .debugParameters start count => s!"Debug info at {start} declares {count} parameters"
  | .hiddenClass index size =>
    s!"Class {index} is past the hidden api section of {size} bytes"
  | .mapSize size => s!"Map list size {size} exceeds the file"
  | .mapType code => s!"Unknown map item type {hexPadded 4 code}"
  | .mapDuplicate code => s!"Duplicate map item type {hexPadded 4 code}"
  | .mapDisagrees code size offset declared start =>
    s!"Map item {hexPadded 4 code} ({size} at {hex offset}) " ++
      s!"disagrees with the header ({declared} at {hex start})"
  | .idsPastEnd name offset => s!"{name} ids at {hex offset} run past the end of the file"
  | .bigEndian => "Big endian dex files are not supported"
  | .endianTag tag => s!"Invalid endian tag: {hex tag}"
  | .headerSize size version expected =>
    s!"Invalid header size {size} for {version}, expected {expected}"
  | .fileSize size => s!"File size {size} is smaller than the header"
  | .fileTruncated declared available =>
    s!"Truncated dex file: {declared} bytes declared, {available} available"
  | .headerOffset offset expected =>
    s!"Unexpected header offset {hex offset}, expected {hex expected}"
  | .containerTruncated declared available =>
    s!"Truncated dex container: {declared} bytes declared, {available} available"
  | .dataTruncated limit => s!"Truncated dex file: data section ends at {hex limit}"
  | .classMembers count => s!"Class data declares {count} members"
  | .memberDelta delta previous =>
    s!"Member index delta {delta} after {previous} is out of order"
  | .typeListSize offset size => s!"Type list at {hex offset} declares {size} entries"

def Unsupported.text : Unsupported → String
  | .unknownOpcode name => s!"Unknown opcode {name}"
  | .opcode name target => s!"Opcode {name} is not available for {target}"
  | .apiWithoutVersion level => s!"Can\x60t find dex version for api {level}"
  | .api level => s!"Unsupported target api: {level}"
  | .artBefore level => s!"ART is not available at api {level}"
  | .dalvikAfter level => s!"Dalvik is not available at api {level}"
  | .apiBelow level required => s!"Target api {level} is below the required {required}"
  | .hiddenFlags flags => s!"Invalid hidden api flag for api 28: {flags}"
  | .hiddenFlagsApi required level =>
    s!"Hidden api flags need api {required} or later, target is {level}"
  | .containerVersion version => s!"{version} files cannot share a container"

def Unresolved.text : Unresolved → String
  | .value pool text => s!"Unable to find {pool} \"{text}\""
  | .itemOffset what none => s!"Unable to find offset of {what} None"
  | .itemOffset what (some id) => s!"Unable to find offset of {what} Some({id})"
  | .catchHandler => "Unable to find offset for catch handler"

def Violation.text : Violation → String
  | .poolSize pool size limit =>
    s!"Too many {pool} ids: {size}, at most {limit} fit in one dex file"
  | .handleMember kind member => s!"Method handle of kind {kind} cannot target {member}"
  | .elementName name => s!"Duplicate annotation element name {name}"
  | .elementNameIn name type => s!"Duplicate annotation element name {name} in {type}"
  | .noDefault type => s!"No default value for type {type}"
  | .valueNesting limit => s!"Encoded value nesting exceeds {limit}"
  | .annotationType type => s!"Duplicate annotation type {type} in one annotation set"
  | .elementWidth width => s!"Invalid element width: {width}"
  | .unsignedOperand value width =>
    s!"Illegal instruction unsigned value {hex value} for width {width}"
  | .signedOperand bits width =>
    s!"Illegal instruction signed value {hex bits} for width {width}"
  | .hatOperand bits width => s!"Illegal instruction hat value {hex bits} for width {width}"
  | .opcodeValue value => s!"Illegal opcode: {hex value}"
  | .payloadAlignment position alignment =>
    s!"Payload at {position} is not {alignment}-byte aligned"
  | .payloadSize size => s!"size is too big: {size}"
  | .referenceKind expected found => s!"Expected a {expected} reference, found {found}"
  | .tooManyRegisters opcode count => s!"{opcode}: too many registers: {count}"
  | .duplicateSwitchKey => "Duplicate key in sparse-switch-payload"
  | .arrayElement element width => s!"Array element {element} does not fit width {width}"
  | .emptyHandler => "Unable to write empty catch handler"
  | .registersBelowIncoming registers ins =>
    s!"Register count {registers} is below the {ins} incoming registers"
  | .argumentRegisters registers ins =>
    s!"Method uses {registers} registers but its arguments need {ins}"
  | .tryOverlap address => s!"Try blocks overlap at address {address}"
  | .tooManyTries count => s!"Too many try blocks: {count}"
  | .tooManyUnits count => s!"Too many code units: {count}"
  | .writtenUnits expected written =>
    s!"Calculated instructions size({expected}) != written bytes({written})"
  | .handlerOffset offset => s!"Catch handler offset {offset} does not fit 16 bits"
  | .duplicateClass name => s!"Duplicate class definition {name}"
  | .duplicateMember what id => s!"Duplicate {what} {id}"
  | .instanceValue field => s!"Instance field {field} cannot have an initial value"
  | .fileSize size => s!"Dex file of {size} bytes exceeds the 32-bit offset range"
  | .emptyContainer => "A container needs at least one dex file"

def Operation.text : Operation → String
  | .add => "add"
  | .subtract => "subtract"
  | .multiply => "multiply"
  | .negate => "negate"

def Fault.text : Fault → String
  | .entry index size => s!"index out of bounds: the len is {size} but the index is {index}"
  | .slice start stop size => s!"range {start}..{stop} out of range for slice of length {size}"
  | .overflow operation => s!"attempt to {operation.text} with overflow"

def Cause.text : Cause → String
  | .notADex reason => reason.text
  | .malformed reason => reason.text
  | .unsupported reason => reason.text
  | .unresolved reason => reason.text
  | .violation reason => reason.text
  | .bounds pool index size => s!"Invalid {pool} index {index}, not in [0, {size})"
  | .fault reason => reason.text

/-- The places follow the wording, the first after "for" and each wider one after "of". -/
def Error.message (e : Error) : String :=
  let head := e.kind.text ++ ": " ++ e.cause.text
  match e.places with
  | [] => head
  | place :: wider => wider.foldl (· ++ " of " ++ ·) (head ++ " for " ++ place)

end Dalvik
