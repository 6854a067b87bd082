import Dalvik.Instruction
import Dalvik.Plain.Values

/-!
# Plain forms of instructions

An instruction is a record of the name of its opcode, of its format and of the operands.
-/
namespace Dalvik
open Plain

instance : ToPlain Target :=
  ⟨fun t => record [("version", plain t.version), ("api", plain t.api), ("art", plain t.art),
    ("odex", plain t.odex)]⟩
instance : OfPlain Target :=
  ⟨fun p => return ⟨← p.getD "version" .dex035, (← p.getD "api" (26 : Int32)).toInt,
    ← p.getD "art" true, ← p.getD "odex" false⟩⟩

def Format.tag : Format → String
  | .f10t => "Format10t"
  | .f10x => "Format10x"
  | .f11n => "Format11n"
  | .f11x => "Format11x"
  | .f12x => "Format12x"
  | .f20t => "Format20t"
  | .f21c => "Format21c"
  | .f21ih => "Format21ih"
  | .f21lh => "Format21lh"
  | .f21s => "Format21s"
  | .f21t => "Format21t"
  | .f22b => "Format22b"
  | .f22c => "Format22c"
  | .f22s => "Format22s"
  | .f22t => "Format22t"
  | .f22x => "Format22x"
  | .f23x => "Format23x"
  | .f30t => "Format30t"
  | .f31c => "Format31c"
  | .f31i => "Format31i"
  | .f31t => "Format31t"
  | .f32x => "Format32x"
  | .f35c => "Format35c"
  | .f3rc => "Format3rc"
  | .f45cc => "Format45cc"
  | .f4rcc => "Format4rcc"
  | .f51l => "Format51l"
  | .arrayPayload => "ArrayPayload"
  | .packedSwitchPayload => "PackedSwitchPayload"
  | .sparseSwitchPayload => "SparseSwitchPayload"

instance : ToPlain Format := ⟨fun f => text f.tag⟩
instance : OfPlain Format := ⟨choose Format.all Format.tag⟩

instance : ToPlain ReferenceKind := ⟨fun k => text k.name⟩

instance : ToPlain Reference where
  plain
    | .string s => tagged "string" (plain s)
    | .type id => tagged "type" (plain id)
    | .field id => tagged "field" (plain id)
    | .method id => tagged "method" (plain id)
    | .proto id => tagged "proto" (plain id)
    | .callSite site => tagged "call_site" (plain site)
    | .methodHandle h => tagged "method_handle" (plain h)
    | .raw index => tagged "raw" (plain index)
instance : OfPlain Reference where
  parse p := do
    match (← p.get "t" : String) with
    | "string" => return .string (← content p)
    | "type" => return .type (← content p)
    | "field" => return .field (← content p)
    | "method" => return .method (← content p)
    | "proto" => return .proto (← content p)
    | "call_site" => return .callSite (← content p)
    | "method_handle" => return .methodHandle (← content p)
    | "raw" => return .raw (← content p)
    | kind => .error kind

instance : ToPlain SwitchCase := ⟨fun c => plain (c.key, c.offset)⟩
instance : OfPlain SwitchCase :=
  ⟨fun p => do
    let (key, offset) ← parse p
    return ⟨key, offset⟩⟩

def Operands.toFields : Operands → List (String × Plain)
  | .f10x => []
  | .f10t offset | .f20t offset | .f30t offset => [("off", plain offset)]
  | .f11n a literal | .f21s a literal | .f21ih a literal | .f31i a literal =>
    [("a", plain a), ("lit", plain literal)]
  | .f11x a => [("a", plain a)]
  | .f12x a b => [("a", plain a), ("b", plain b)]
  | .f22x a b => [("a", plain a), ("b", plain b)]
  | .f32x a b => [("a", plain a), ("b", plain b)]
  | .f21c a r | .f31c a r => [("a", plain a), ("ref", plain r)]
  | .f21lh a literal | .f51l a literal => [("a", plain a), ("lit", plain literal)]
  | .f21t a offset | .f31t a offset => [("a", plain a), ("off", plain offset)]
  | .f22b a b literal | .f22s a b literal =>
    [("a", plain a), ("b", plain b), ("lit", plain literal)]
  | .f22c a b r => [("a", plain a), ("b", plain b), ("ref", plain r)]
  | .f22t a b offset => [("a", plain a), ("b", plain b), ("off", plain offset)]
  | .f23x a b c => [("a", plain a), ("b", plain b), ("c", plain c)]
  | .f35c registers r => [("regs", plain registers), ("ref", plain r)]
  | .f45cc registers r s => [("regs", plain registers), ("ref", plain r), ("ref2", plain s)]
  | .f3rc start count r => [("start", plain start), ("count", plain count), ("ref", plain r)]
  | .f4rcc start count r s =>
    [("start", plain start), ("count", plain count), ("ref", plain r), ("ref2", plain s)]
  | .arrayPayload width elements => [("width", plain width), ("elements", plain elements)]
  | .packedSwitchPayload firstKey targets =>
    [("first_key", plain firstKey), ("targets", plain targets)]
  | .sparseSwitchPayload cases => [("elements", plain cases)]

/-- The operands of one format. -/
def parseOperands (p : Plain) : Format → Parse Operands
  | .f10t => return .f10t (← p.get "off")
  | .f10x => return .f10x
  | .f11n => return .f11n (← p.get "a") (← p.get "lit")
  | .f11x => return .f11x (← p.get "a")
  | .f12x => return .f12x (← p.get "a") (← p.get "b")
  | .f20t => return .f20t (← p.get "off")
  | .f21c => return .f21c (← p.get "a") (← p.get "ref")
  | .f21ih => return .f21ih (← p.get "a") (← p.get "lit")
  | .f21lh => return .f21lh (← p.get "a") (← p.get "lit")
  | .f21s => return .f21s (← p.get "a") (← p.get "lit")
  | .f21t => return .f21t (← p.get "a") (← p.get "off")
  | .f22b => return .f22b (← p.get "a") (← p.get "b") (← p.get "lit")
  | .f22c => return .f22c (← p.get "a") (← p.get "b") (← p.get "ref")
  | .f22s => return .f22s (← p.get "a") (← p.get "b") (← p.get "lit")
  | .f22t => return .f22t (← p.get "a") (← p.get "b") (← p.get "off")
  | .f22x => return .f22x (← p.get "a") (← p.get "b")
  | .f23x => return .f23x (← p.get "a") (← p.get "b") (← p.get "c")
  | .f30t => return .f30t (← p.get "off")
  | .f31c => return .f31c (← p.get "a") (← p.get "ref")
  | .f31i => return .f31i (← p.get "a") (← p.get "lit")
  | .f31t => return .f31t (← p.get "a") (← p.get "off")
  | .f32x => return .f32x (← p.get "a") (← p.get "b")
  | .f35c => return .f35c (← p.get "regs") (← p.get "ref")
  | .f3rc => return .f3rc (← p.get "start") (← p.get "count") (← p.get "ref")
  | .f45cc => return .f45cc (← p.get "regs") (← p.get "ref") (← p.get "ref2")
  | .f4rcc =>
    return .f4rcc (← p.get "start") (← p.get "count") (← p.get "ref") (← p.get "ref2")
  | .f51l => return .f51l (← p.get "a") (← p.get "lit")
  | .arrayPayload => return .arrayPayload (← p.get "width") (← p.get "elements")
  | .packedSwitchPayload =>
    return .packedSwitchPayload (← p.get "first_key") (← p.get "targets")
  | .sparseSwitchPayload => return .sparseSwitchPayload (← p.get "elements")

instance : ToPlain Instruction :=
  ⟨fun i => record (("op", plain i.opcode.name) :: ("fmt", plain i.format) ::
    i.operands.toFields)⟩

/-- An instruction; the operands have the format of the opcode unless another one is named. The
opcode may be unknown. -/
instance : OfPlain (Result Instruction) where
  parse p := do
    match Opcode.ofName (← p.get "op") with
    | .error e => return .error e
    | .ok o => return .ok ⟨o, ← parseOperands p (← p.getD "fmt" o.format)⟩

/-- The instructions that an item of a list stands for: several equal ones in a row can be given
as one with their number. -/
def parseRun (p : Plain) : Parse (Result (List Instruction)) :=
  match p.field? "rep" with
  | some count => do
    let i : Result Instruction ← p.get "insn"
    return List.replicate (← parse count) <$> i
  | none => do
    let i : Result Instruction ← parse p
    return ([·]) <$> i

/-- The instructions of a list; the first unknown opcode decides. -/
instance : OfPlain (Result (List Instruction)) where
  parse p := do
    let runs ← (← p.items).mapM parseRun
    return List.flatten <$> runs.mapM id

instance : ToPlain Opcode :=
  ⟨fun o => record [("name", plain o.name), ("format", plain o.format),
    ("units", plain o.format.units), ("ref", plain o.reference), ("ref2", plain o.reference2),
    ("flags", plain o.flags), ("min_version", plain o.minVersion),
    ("can_throw", plain (o.has .canThrow)), ("odex_only", plain (o.has .odexOnly)),
    ("can_continue", plain o.canContinue), ("is_invoke", plain (o.has .invoke)),
    ("sets_result", plain (o.has .invoke)), ("is_return", plain (o.has .returns)),
    ("is_switch", plain (o.has .switch)), ("is_branch", plain (o.has .branch)),
    ("is_conditional", plain o.isConditionalBranch), ("has_payload", plain (o.has .hasPayload)),
    ("is_payload", plain o.isPayload), ("can_init", plain (o.has .canInitialize))]⟩

end Dalvik
