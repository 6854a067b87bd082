import Dalvik.Opcode.Entry

/-!
# The table of opcodes

All opcodes in the order of their standard numbers, then the ones of optimised files. Where an
optimised opcode shares a number with a standard one of the same target, the later entry is read.
-/
namespace Dalvik.Opcode

/-! ## Traits that occur together -/

def throws : List Trait := [.canThrow]
def exits : List Trait := [.returns, .endsFlow]
def branches : List Trait := [.branch]
def jumps : List Trait := [.branch, .unconditional, .endsFlow]
def invokes : List Trait := [.invoke, .canThrow]
def initializes : List Trait := [.invoke, .canThrow, .canInitialize]

/-! ## Shapes of entries -/

/-- An opcode with one number everywhere and no reference. -/
def plain (value : UInt16) (name : String) (format : Format) (traits : List Trait) : Entry :=
  { name, format, numberings := [{ value }], traits }

/-- An opcode with one number everywhere and a reference. -/
def refers (value : UInt16) (name : String) (format : Format) (reference : ReferenceKind)
    (traits : List Trait) : Entry :=
  { name, format, numberings := [{ value }], reference, traits }

/-- An opcode of optimised files on the older runtime. -/
def dalvikOnly (value : UInt16) (first last : Option Int) (name : String) (format : Format)
    (reference : ReferenceKind) (traits : List Trait) : Entry :=
  { name, format, numberings := [{ value, first, last, runtime := some .dalvik }], reference,
    traits := .odexOnly :: traits }

/-- An opcode of optimised files on both runtimes, on the newer one up to release 30. -/
def quick (dalvik art : UInt16) (name : String) (format : Format) (traits : List Trait) : Entry :=
  { name, format
    numberings :=
      [{ value := dalvik, runtime := some .dalvik },
        { value := art, last := some 30, runtime := some .art }]
    reference := .raw
    traits := .odexOnly :: traits }

/-- An opcode of optimised files on the newer runtime from release 23 to 30. -/
def artQuick (value : UInt16) (name : String) (format : Format) (reference : ReferenceKind)
    (traits : List Trait) : Entry :=
  { name, format
    numberings := [{ value, first := some 23, last := some 30, runtime := some .art }]
    reference
    traits := .odexOnly :: traits }

/-- Entries with numbers from `start` on. -/
def consecutive {α : Type} (start : UInt16) (make : UInt16 → α → List Entry) :
    List α → List Entry
  | [] => []
  | a :: rest => make start a ++ consecutive (start + 1) make rest

/-! ## Families -/

def moves : List Entry := [
  plain 0x00 "nop" .f10x [],
  plain 0x01 "move" .f12x [],
  plain 0x02 "move/from16" .f22x [],
  plain 0x03 "move/16" .f32x [],
  plain 0x04 "move-wide" .f12x [],
  plain 0x05 "move-wide/from16" .f22x [],
  plain 0x06 "move-wide/16" .f32x [],
  plain 0x07 "move-object" .f12x [],
  plain 0x08 "move-object/from16" .f22x [],
  plain 0x09 "move-object/16" .f32x [],
  plain 0x0a "move-result" .f11x [],
  plain 0x0b "move-result-wide" .f11x [],
  plain 0x0c "move-result-object" .f11x [],
  plain 0x0d "move-exception" .f11x [],
  plain 0x0e "return-void" .f10x exits,
  plain 0x0f "return" .f11x exits,
  plain 0x10 "return-wide" .f11x exits,
  plain 0x11 "return-object" .f11x exits,
  plain 0x12 "const/4" .f11n [],
  plain 0x13 "const/16" .f21s [],
  plain 0x14 "const" .f31i [],
  plain 0x15 "const/high16" .f21ih [],
  plain 0x16 "const-wide/16" .f21s [],
  plain 0x17 "const-wide/32" .f31i [],
  plain 0x18 "const-wide" .f51l [],
  plain 0x19 "const-wide/high16" .f21lh [],
  refers 0x1a "const-string" .f21c .string throws,
  refers 0x1b "const-string/jumbo" .f31c .string throws,
  refers 0x1c "const-class" .f21c .type throws,
  plain 0x1d "monitor-enter" .f11x throws,
  plain 0x1e "monitor-exit" .f11x throws,
  refers 0x1f "check-cast" .f21c .type throws,
  refers 0x20 "instance-of" .f22c .type throws,
  plain 0x21 "array-length" .f12x throws,
  refers 0x22 "new-instance" .f21c .type throws,
  refers 0x23 "new-array" .f22c .type throws,
  refers 0x24 "filled-new-array" .f35c .type throws,
  refers 0x25 "filled-new-array/range" .f3rc .type throws,
  plain 0x26 "fill-array-data" .f31t (.hasPayload :: throws),
  plain 0x27 "throw" .f11x (.endsFlow :: throws),
  plain 0x28 "goto" .f10t jumps,
  plain 0x29 "goto/16" .f20t jumps,
  plain 0x2a "goto/32" .f30t jumps,
  plain 0x2b "packed-switch" .f31t [.hasPayload, .switch],
  plain 0x2c "sparse-switch" .f31t [.hasPayload, .switch],
  plain 0x2d "cmpl-float" .f23x [],
  plain 0x2e "cmpg-float" .f23x [],
  plain 0x2f "cmpl-double" .f23x [],
  plain 0x30 "cmpg-double" .f23x [],
  plain 0x31 "cmp-long" .f23x []]

def conditions : List Entry :=
  consecutive 0x32 (fun value name => [plain value name .f22t branches])
    ["if-eq", "if-ne", "if-lt", "if-ge", "if-gt", "if-le"] ++
  consecutive 0x38 (fun value name => [plain value name .f21t branches])
    ["if-eqz", "if-nez", "if-ltz", "if-gez", "if-gtz", "if-lez"]

def arrayAccess : List Entry :=
  consecutive 0x44 (fun value name => [plain value name .f23x throws]) [
    "aget", "aget-wide", "aget-object", "aget-boolean", "aget-byte", "aget-char", "aget-short",
    "aput", "aput-wide", "aput-object", "aput-boolean", "aput-byte", "aput-char", "aput-short"]

def instanceAccess : List Entry :=
  consecutive 0x52 (fun value name => [refers value name .f22c .field throws]) [
    "iget", "iget-wide", "iget-object", "iget-boolean", "iget-byte", "iget-char", "iget-short",
    "iput", "iput-wide", "iput-object", "iput-boolean", "iput-byte", "iput-char", "iput-short"]

def staticAccess : List Entry :=
  consecutive 0x60 (fun value name => [refers value name .f21c .field throws]) [
    "sget", "sget-wide", "sget-object", "sget-boolean", "sget-byte", "sget-char", "sget-short",
    "sput", "sput-wide", "sput-object", "sput-boolean", "sput-byte", "sput-char", "sput-short"]

def calls : List Entry := [
  refers 0x6e "invoke-virtual" .f35c .method invokes,
  refers 0x6f "invoke-super" .f35c .method invokes,
  refers 0x70 "invoke-direct" .f35c .method initializes,
  refers 0x71 "invoke-static" .f35c .method invokes,
  refers 0x72 "invoke-interface" .f35c .method invokes,
  refers 0x74 "invoke-virtual/range" .f3rc .method invokes,
  refers 0x75 "invoke-super/range" .f3rc .method invokes,
  refers 0x76 "invoke-direct/range" .f3rc .method initializes,
  refers 0x77 "invoke-static/range" .f3rc .method invokes,
  refers 0x78 "invoke-interface/range" .f3rc .method invokes]

def unary : List Entry :=
  consecutive 0x7b (fun value name => [plain value name .f12x []]) [
    "neg-int", "not-int", "neg-long", "not-long", "neg-float", "neg-double", "int-to-long",
    "int-to-float", "int-to-double", "long-to-int", "long-to-float", "long-to-double",
    "float-to-int", "float-to-long", "float-to-double", "double-to-int", "double-to-long",
    "double-to-float", "int-to-byte", "int-to-char", "int-to-short"]

/-- Each operation on three registers is followed by its form on two. -/
def binary : List Entry :=
  consecutive 0x90
    (fun value (name, twoRegisters, traits) =>
      [plain value name .f23x traits, plain (value + 0x20) twoRegisters .f12x traits]) [
    ("add-int", "add-int/2addr", []),
    ("sub-int", "sub-int/2addr", []),
    ("mul-int", "mul-int/2addr", []),
    ("div-int", "div-int/2addr", throws),
    ("rem-int", "rem-int/2addr", throws),
    ("and-int", "and-int/2addr", []),
    ("or-int", "or-int/2addr", []),
    ("xor-int", "xor-int/2addr", []),
    ("shl-int", "shl-int/2addr", []),
    ("shr-int", "shr-int/2addr", []),
    ("ushr-int", "ushr-int/2addr", []),
    ("add-long", "add-long/2addr", []),
    ("sub-long", "sub-long/2addr", []),
    ("mul-long", "mul-long/2addr", []),
    ("div-long", "div-long/2addr", throws),
    ("rem-long", "rem-long/2addr", throws),
    ("and-long", "and-long/2addr", []),
    ("or-long", "or-long/2addr", []),
    ("xor-long", "xor-long/2addr", []),
    ("shl-long", "shl-long/2addr", []),
    ("shr-long", "shr-long/2addr", []),
    ("ushr-long", "ushr-long/2addr", []),
    ("add-float", "add-float/2addr", []),
    ("sub-float", "sub-float/2addr", []),
    ("mul-float", "mul-float/2addr", []),
    ("div-float", "div-float/2addr", []),
    ("rem-float", "rem-float/2addr", []),
    ("add-double", "add-double/2addr", []),
    ("sub-double", "sub-double/2addr", []),
    ("mul-double", "mul-double/2addr", []),
    ("div-double", "div-double/2addr", []),
    ("rem-double", "rem-double/2addr", [])]

def literal : List Entry :=
  consecutive 0xd0 (fun value (name, traits) => [plain value name .f22s traits]) [
    ("add-int/lit16", []), ("rsub-int", []), ("mul-int/lit16", []), ("div-int/lit16", throws),
    ("rem-int/lit16", throws), ("and-int/lit16", []), ("or-int/lit16", []),
    ("xor-int/lit16", [])] ++
  consecutive 0xd8 (fun value (name, traits) => [plain value name .f22b traits]) [
    ("add-int/lit8", []), ("rsub-int/lit8", []), ("mul-int/lit8", []), ("div-int/lit8", throws),
    ("rem-int/lit8", throws), ("and-int/lit8", []), ("or-int/lit8", []), ("xor-int/lit8", []),
    ("shl-int/lit8", []), ("shr-int/lit8", []), ("ushr-int/lit8", [])]

/-- Opcodes that came with later versions. -/
def later : List Entry := [
  { name := "invoke-polymorphic", format := .f45cc
    numberings := [{ value := 0xfa, first := some 26 }]
    reference := .method, reference2 := .proto, traits := invokes, minVersion := some .dex038 },
  { name := "invoke-polymorphic/range", format := .f4rcc
    numberings := [{ value := 0xfb, first := some 26 }]
    reference := .method, reference2 := .proto, traits := invokes, minVersion := some .dex038 },
  { name := "invoke-custom", format := .f35c
    numberings := [{ value := 0xfc, first := some 26 }]
    reference := .callSite, traits := invokes, minVersion := some .dex038 },
  { name := "invoke-custom/range", format := .f3rc
    numberings := [{ value := 0xfd, first := some 26 }]
    reference := .callSite, traits := invokes, minVersion := some .dex038 },
  { name := "const-method-handle", format := .f21c
    numberings := [{ value := 0xfe, first := some 28 }]
    reference := .methodHandle, traits := throws, minVersion := some .dex039 },
  { name := "const-method-type", format := .f21c
    numberings := [{ value := 0xff, first := some 28 }]
    reference := .proto, traits := throws, minVersion := some .dex039 }]

/-- The tables in the code begin like instructions. -/
def payloads : List Entry := [
  plain 0x100 "packed-switch-payload" .packedSwitchPayload [],
  plain 0x200 "sparse-switch-payload" .sparseSwitchPayload [],
  plain 0x300 "array-payload" .arrayPayload []]

def optimisedCalls : List Entry := [
  dalvikOnly 0xee none none "execute-inline" .f35c .raw invokes,
  dalvikOnly 0xef (some 8) none "execute-inline/range" .f3rc .raw invokes,
  dalvikOnly 0xf0 none (some 13) "invoke-direct-empty" .f35c .method initializes,
  dalvikOnly 0xf0 (some 14) none "invoke-object-init/range" .f3rc .method initializes,
  quick 0xf2 0xe3 "iget-quick" .f22c throws,
  quick 0xf3 0xe4 "iget-wide-quick" .f22c throws,
  quick 0xf4 0xe5 "iget-object-quick" .f22c throws,
  quick 0xf5 0xe6 "iput-quick" .f22c throws,
  quick 0xf6 0xe7 "iput-wide-quick" .f22c throws,
  quick 0xf7 0xe8 "iput-object-quick" .f22c throws,
  quick 0xf8 0xe9 "invoke-virtual-quick" .f35c invokes,
  quick 0xf9 0xea "invoke-virtual-quick/range" .f3rc invokes,
  dalvikOnly 0xfa none none "invoke-super-quick" .f35c .raw invokes,
  dalvikOnly 0xfb none none "invoke-super-quick/range" .f3rc .raw invokes]

def volatileAccess : List Entry := [
  dalvikOnly 0xe3 (some 9) none "iget-volatile" .f22c .field throws,
  dalvikOnly 0xe4 (some 9) none "iput-volatile" .f22c .field throws,
  dalvikOnly 0xe5 (some 9) none "sget-volatile" .f21c .field throws,
  dalvikOnly 0xe6 (some 9) none "sput-volatile" .f21c .field throws,
  dalvikOnly 0xe8 (some 9) none "iget-wide-volatile" .f22c .field throws,
  dalvikOnly 0xe9 (some 9) none "iput-wide-volatile" .f22c .field throws,
  dalvikOnly 0xea (some 9) none "sget-wide-volatile" .f21c .field throws,
  dalvikOnly 0xeb (some 9) none "sput-wide-volatile" .f21c .field throws,
  dalvikOnly 0xe7 (some 9) none "iget-object-volatile" .f22c .field throws,
  dalvikOnly 0xfc (some 9) none "iput-object-volatile" .f22c .field throws,
  dalvikOnly 0xfd (some 9) none "sget-object-volatile" .f21c .field throws,
  dalvikOnly 0xfe (some 9) none "sput-object-volatile" .f21c .field throws]

def barriers : List Entry := [
  { name := "return-void-barrier", format := .f10x
    numberings :=
      [{ value := 0xf1, first := some 11, runtime := some .dalvik },
        { value := 0x73, last := some 22, runtime := some .art }]
    traits := .odexOnly :: exits },
  artQuick 0x73 "return-void-no-barrier" .f10x .none exits]

def narrowAccess : List Entry :=
  consecutive 0xeb (fun value name => [artQuick value name .f22c .raw throws]) [
    "iput-boolean-quick", "iput-byte-quick", "iput-char-quick", "iput-short-quick",
    "iget-boolean-quick", "iget-byte-quick", "iget-char-quick", "iget-short-quick"]

def entries : List Entry :=
  moves ++ conditions ++ arrayAccess ++ instanceAccess ++ staticAccess ++ calls ++ unary ++
    binary ++ literal ++ later ++ payloads ++ optimisedCalls ++ volatileAccess ++ barriers ++
    narrowAccess

/-- The number of opcodes. -/
def count : Nat := 263

theorem length_entries : entries.length = count := by decide +kernel

end Dalvik.Opcode
