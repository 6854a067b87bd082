import Dalvik.Class
import Dalvik.Code.Item
import Dalvik.Header
import Dalvik.MapList
import Dalvik.Plain.Instructions

/-!
# Plain forms of code, classes and headers

Whatever holds instructions is read as a result, since their opcodes may be unknown.
-/
namespace Dalvik
open Plain

/-! ## Debug information -/

instance : ToPlain DebugItem where
  plain
    | .advance units => tagged "advance_pc" (plain units)
    | .startLocal register name type signature =>
      record [("t", text "start_local"), ("register", plain register), ("name", plain name),
        ("type", plain type), ("signature", plain signature)]
    | .endLocal register => tagged "end_local" (plain register)
    | .restartLocal register => tagged "restart_local" (plain register)
    | .prologueEnd => record [("t", text "prologue_end")]
    | .epilogueBegin => record [("t", text "epilogue_begin")]
    | .setFile name => tagged "set_file" (plain name)
    | .line number => tagged "line" (plain number)
instance : OfPlain DebugItem where
  parse p := do
    match (← p.get "t" : String) with
    | "advance_pc" => return .advance (← content p)
    | "start_local" => do
      let register ← p.get "register"
      let name ← p.get "name"
      let type ← p.get "type"
      return .startLocal register name type (← p.get "signature")
    | "end_local" => return .endLocal (← content p)
    | "restart_local" => return .restartLocal (← content p)
    | "prologue_end" => return .prologueEnd
    | "epilogue_begin" => return .epilogueBegin
    | "set_file" => return .setFile (← p.get "v")
    | "line" => return .line (← content p)
    | kind => .error kind

instance : ToPlain DebugInfo :=
  ⟨fun d => record [("params", plain d.parameters), ("items", plain d.items)]⟩
instance : OfPlain DebugInfo := ⟨fun p => return ⟨← p.get "params", ← p.get "items"⟩⟩

/-! ## Code -/

instance : ToPlain ExceptionHandler := ⟨fun h => plain (h.type, h.address)⟩
instance : OfPlain ExceptionHandler where
  parse p := do
    let (type, address) ← parse p
    return ⟨type, address⟩

instance : ToPlain TryBlock :=
  ⟨fun t => record [("start", plain t.start), ("count", plain t.units),
    ("handlers", plain t.handler.handlers), ("catch_all", plain t.handler.catchAll)]⟩
instance : OfPlain TryBlock :=
  ⟨fun p => return ⟨← p.get "start", ← p.get "count", ← p.get "handlers",
    ← p.get "catch_all"⟩⟩

/-- The blocks that an item of a list stands for. The number `gen` stands for as many blocks of one
code unit from address 0 on, each of which catches everything at its own address. -/
def parseBlocks (p : Plain) : Parse (List TryBlock) :=
  match p.field? "gen" with
  | some count => do
    return (List.range (← parse count)).map fun i =>
      { start := UInt32.ofNat i, units := 1, handler := ⟨[], some (UInt32.ofNat i)⟩ }
  | none => return [← parse p]

instance : ToPlain Code :=
  ⟨fun c => record [("registers", plain c.registers), ("insns", plain c.instructions),
    ("tries", plain c.tries), ("debug", plain c.debug)]⟩
instance : OfPlain (Result Code) where
  parse p := do
    let registers ← p.get "registers"
    let instructions : Result (List Instruction) ← p.get "insns"
    let tries ← (← p.get "tries" : List Plain).flatMapM parseBlocks
    let debug ← p.get "debug"
    return (⟨registers, ·, tries, debug⟩) <$> instructions

instance : ToPlain CodeItem :=
  ⟨fun i => record [("ins", plain i.incoming), ("outs", plain i.outgoing),
    ("debug_off", plain i.debugOffset), ("code", plain (i.toCode []))]⟩

/-! ## Classes -/

instance : ToPlain FieldDef :=
  ⟨fun f => record [("name", plain f.name), ("type", plain f.type), ("flags", plain f.access),
    ("hidden", plain f.restriction), ("value", plain f.value),
    ("annotations", plain f.annotations)]⟩
instance : OfPlain FieldDef :=
  ⟨fun p => return {
    name := ← p.get "name"
    type := ← p.get "type"
    access := ← p.getD "flags" 0
    restriction := ← p.getD "hidden" 0
    value := ← p.get "value"
    annotations := ← p.get "annotations" }⟩

instance : ToPlain Parameter :=
  ⟨fun q => record [("type", plain q.type), ("name", plain q.name),
    ("annotations", plain q.annotations)]⟩
instance : OfPlain Parameter :=
  ⟨fun p => return ⟨← p.get "type", ← p.get "name", ← p.get "annotations"⟩⟩

instance : ToPlain MethodDef :=
  ⟨fun m => record [("name", plain m.name), ("ret", plain m.returnType),
    ("params", plain m.parameters), ("flags", plain m.access), ("hidden", plain m.restriction),
    ("code", plain m.code), ("annotations", plain m.annotations)]⟩
instance : OfPlain (Result MethodDef) where
  parse p := do
    let code : Option (Result Code) ← p.get "code"
    let m : MethodDef := {
      name := ← p.get "name"
      returnType := ← p.get "ret"
      parameters := ← p.get "params"
      access := ← p.getD "flags" 0
      restriction := ← p.getD "hidden" 0
      annotations := ← p.get "annotations" }
    return ({ m with code := · }) <$> code.mapM id

instance : ToPlain ClassDef :=
  ⟨fun c => record [("type", plain c.type), ("flags", plain c.access),
    ("super", plain c.superclass), ("interfaces", plain c.interfaces),
    ("source", plain c.sourceFile), ("static_fields", plain c.staticFields),
    ("instance_fields", plain c.instanceFields), ("direct_methods", plain c.directMethods),
    ("virtual_methods", plain c.virtualMethods), ("annotations", plain c.annotations)]⟩
instance : OfPlain (Result ClassDef) where
  parse p := do
    let directMethods : List (Result MethodDef) ← p.get "direct_methods"
    let virtualMethods : List (Result MethodDef) ← p.get "virtual_methods"
    let c : ClassDef := {
      type := ← p.get "type"
      access := ← p.getD "flags" 0
      superclass := ← p.get "super"
      interfaces := ← p.get "interfaces"
      sourceFile := ← p.get "source"
      staticFields := ← p.get "static_fields"
      instanceFields := ← p.get "instance_fields"
      annotations := ← p.get "annotations" }
    return do
      let directMethods ← directMethods.mapM id
      return { c with directMethods, virtualMethods := ← virtualMethods.mapM id }

instance : ToPlain Dex := ⟨fun d => plain d.classes⟩
instance : OfPlain (Result Dex) where
  parse p := do
    let classes : List (Result ClassDef) ← parse p
    return Dex.mk <$> classes.mapM id

/-! ## Headers -/

instance : ToPlain Extent := ⟨fun e => plain (e.size, e.offset)⟩
instance : OfPlain Extent where
  parse p := do
    let (size, offset) ← parse p
    return ⟨size, offset⟩

instance : ToPlain CompactFields :=
  ⟨fun c => plain [c.features, c.debugTable, c.debugIndex, c.debugBase, c.ownedBegin,
    c.ownedEnd]⟩
instance : OfPlain CompactFields where
  parse p := do
    match (← parse p : List UInt32) with
    | [features, debugTable, debugIndex, debugBase, ownedBegin, ownedEnd] =>
      return ⟨features, debugTable, debugIndex, debugBase, ownedBegin, ownedEnd⟩
    | _ => .error "compact"

instance : ToPlain ContainerFields := ⟨fun c => plain (c.size, c.headerOffset)⟩
instance : OfPlain ContainerFields where
  parse p := do
    let (size, headerOffset) ← parse p
    return ⟨size, headerOffset⟩

instance : ToPlain Header where
  plain h := record <|
    [("magic", hex h.magic), ("checksum", plain h.checksum), ("signature", hex h.signature),
      ("file_size", plain h.fileSize), ("header_size", plain h.headerSize),
      ("endian_tag", plain h.endianTag), ("link_size", plain h.link.size),
      ("link_off", plain h.link.offset), ("map_off", plain h.mapOffset),
      ("string_ids", plain h.strings), ("type_ids", plain h.types),
      ("proto_ids", plain h.protos), ("field_ids", plain h.fields),
      ("method_ids", plain h.methods), ("class_defs", plain h.classes),
      ("data_size", plain h.data.size), ("data_off", plain h.data.offset)] ++
    (h.compact.map fun c => ("compact", plain c)).toList ++
    (h.container.map fun c => ("container", plain c)).toList
instance : OfPlain Header where
  parse p := do
    let zeros (count : Nat) : String := "".pushn '0' (2 * count)
    let magic : String ← p.getD "magic" (zeros 8)
    let signature : String ← p.getD "signature" (zeros Header.signatureSize)
    return {
      magic := (← hexBytes magic.toList .empty).toList
      checksum := ← p.getD "checksum" 0
      signature := (← hexBytes signature.toList .empty).toList
      fileSize := ← p.getD "file_size" 0
      headerSize := ← p.getD "header_size" 0
      endianTag := ← p.getD "endian_tag" 0
      link := ⟨← p.getD "link_size" 0, ← p.getD "link_off" 0⟩
      mapOffset := ← p.getD "map_off" 0
      strings := ← p.getD "string_ids" {}
      types := ← p.getD "type_ids" {}
      protos := ← p.getD "proto_ids" {}
      fields := ← p.getD "field_ids" {}
      methods := ← p.getD "method_ids" {}
      classes := ← p.getD "class_defs" {}
      data := ⟨← p.getD "data_size" 0, ← p.getD "data_off" 0⟩
      compact := ← p.get "compact"
      container := ← p.get "container" }

instance : ToPlain MapItem := ⟨fun m => plain [m.code.toUInt32, m.size, m.offset]⟩
instance : OfPlain MapItem where
  parse p := do
    match (← parse p : List UInt32) with
    | [code, size, offset] => return ⟨code.toUInt16, size, offset⟩
    | _ => .error "map item"

end Dalvik
