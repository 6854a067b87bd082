import Dalvik.AnnotationItem
import Dalvik.Options
import Dalvik.Plain.Basic

/-!
# Plain forms of ids, values and options

Ids are records of their parts, a type is its descriptor. A value is a record of its kind and its
content, with floating-point numbers as the digits of their bits.
-/
namespace Dalvik
open Plain

instance : ToPlain TypeId := ⟨fun t => text t.descriptor⟩
instance : OfPlain TypeId := ⟨fun p => return ⟨← parse p⟩⟩

instance : ToPlain ProtoId :=
  ⟨fun p => record [("ret", plain p.returnType), ("params", plain p.parameters)]⟩
instance : OfPlain ProtoId := ⟨fun p => return ⟨← p.get "ret", ← p.get "params"⟩⟩

instance : ToPlain FieldId :=
  ⟨fun f => record
    [("class", plain f.declaringClass), ("name", plain f.name), ("type", plain f.type)]⟩
instance : OfPlain FieldId :=
  ⟨fun p => return ⟨← p.get "class", ← p.get "name", ← p.get "type"⟩⟩

instance : ToPlain MethodId :=
  ⟨fun m => record
    [("class", plain m.declaringClass), ("name", plain m.name), ("proto", plain m.proto)]⟩
instance : OfPlain MethodId :=
  ⟨fun p => return ⟨← p.get "class", ← p.get "name", ← p.get "proto"⟩⟩

instance : ToPlain HandleKind := ⟨fun k => text k.name⟩
instance : OfPlain HandleKind := ⟨choose HandleKind.all HandleKind.name⟩

instance : OfPlain HandleMember where
  parse p :=
    match p.field? "field" with
    | some f => return .field (← parse f)
    | none => return .method (← p.get "method")

/-- The member stands beside the kind under its own name. -/
instance : ToPlain MethodHandle where
  plain h := record [("kind", plain h.kind), match h.member with
    | .field f => ("field", plain f)
    | .method m => ("method", plain m)]
instance : OfPlain MethodHandle := ⟨fun p => return ⟨← p.get "kind", ← parse p⟩⟩

/-- A record of a kind and a content. -/
def tagged (kind : String) (content : Plain) : Plain := record [("t", text kind), ("v", content)]

mutual

def Value.toPlain : Value → Plain
  | .byte n => tagged "byte" (plain n)
  | .short n => tagged "short" (plain n)
  | .char unit => tagged "char" (plain unit)
  | .int n => tagged "int" (plain n)
  | .long n => tagged "long" (plain n)
  | .float bits => tagged "float" (text (Text.hexDigitsPadded 8 bits.toNat))
  | .double bits => tagged "double" (text (Text.hexDigitsPadded 16 bits.toNat))
  | .methodType id => tagged "method_type" (plain id)
  | .methodHandle h => tagged "method_handle" (plain h)
  | .string s => tagged "string" (plain s)
  | .type id => tagged "type" (plain id)
  | .field id => tagged "field" (plain id)
  | .method id => tagged "method" (plain id)
  | .enum id => tagged "enum" (plain id)
  | .array values => tagged "array" (list (Value.toPlainList values))
  | .annotated a => tagged "annotation" (record a.toFields)
  | .null => tagged "null" null
  | .boolean b => tagged "boolean" (plain b)

def Value.toPlainList : List Value → List Plain
  | [] => []
  | v :: vs => v.toPlain :: Value.toPlainList vs

def AnnotationValue.toFields : AnnotationValue → List (String × Plain)
  | ⟨type, elements⟩ => [("type", plain type), ("elements", list (Element.toPlainList elements))]

def Element.toPlainList : List Element → List Plain
  | [] => []
  | ⟨name, v⟩ :: es =>
    record [("name", plain name), ("value", v.toPlain)] :: Element.toPlainList es

end

instance : ToPlain Value := ⟨Value.toPlain⟩

/-- The content of a tagged record. -/
def content {α : Type} [OfPlain α] (p : Plain) : Parse α := p.get "v"

/-- An element whose value is read by `value`. -/
def parseElement (value : Plain → Parse Value) (p : Plain) : Parse Element :=
  return ⟨← p.get "name", ← value (p.field "value")⟩

def parseAnnotated (value : Plain → Parse Value) (p : Plain) : Parse AnnotationValue := do
  let elements : List Plain ← p.get "elements"
  return ⟨← p.get "type", ← elements.mapM (parseElement value)⟩

/-- The value of a tagged record with at most `room` records around its innermost part. A value
inside several arrays of one value each can be given as a nest, with the number of these. -/
def parseValue : (room : Nat) → Plain → Parse Value
  | 0, _ => .error "value"
  | room + 1, p => do
    match (← p.get "t" : String) with
    | "byte" => return .byte (← content p)
    | "short" => return .short (← content p)
    | "char" => return .char (← content p)
    | "int" => return .int (← content p)
    | "long" => return .long (← content p)
    | "float" => return .float (UInt32.ofNat (← hexNat (← content p)))
    | "double" => return .double (UInt64.ofNat (← hexNat (← content p)))
    | "method_type" => return .methodType (← content p)
    | "method_handle" => return .methodHandle (← content p)
    | "string" => return .string (← content p)
    | "type" => return .type (← content p)
    | "field" => return .field (← content p)
    | "method" => return .method (← content p)
    | "enum" => return .enum (← content p)
    | "array" => return .array (← (← content p : List Plain).mapM (parseValue room))
    | "annotation" => return .annotated (← parseAnnotated (parseValue room) (← content p))
    | "null" => return .null
    | "boolean" => return .boolean (← content p)
    | "nest" => do
      let v ← parseValue room (p.field "v")
      return Nat.repeat (fun v => .array [v]) (← p.get "n") v
    | kind => .error kind

instance : OfPlain Value := ⟨fun p => parseValue (p.depth + 1) p⟩
instance : OfPlain AnnotationValue := ⟨parseAnnotated parse⟩
instance : OfPlain Element := ⟨parseElement parse⟩

instance : ToPlain CallSite :=
  ⟨fun c => record [("name", plain c.name), ("handle", plain c.handle),
    ("method_name", plain c.methodName), ("method_proto", plain c.proto),
    ("args", plain c.arguments)]⟩
instance : OfPlain CallSite :=
  ⟨fun p => return ⟨← p.get "name", ← p.get "handle", ← p.get "method_name",
    ← p.get "method_proto", ← p.get "args"⟩⟩

instance : ToPlain Visibility := ⟨fun v => text v.name⟩
instance : OfPlain Visibility := ⟨choose Visibility.all Visibility.name⟩

/-- The visibility stands beside the type and the elements. -/
instance : ToPlain AnnotationItem :=
  ⟨fun a => record (("visibility", plain a.visibility) :: a.value.toFields)⟩
instance : OfPlain AnnotationItem := ⟨fun p => return ⟨← p.get "visibility", ← parse p⟩⟩

instance : ToPlain MemberOffset := ⟨fun m => plain (m.member, m.offset)⟩
instance : OfPlain MemberOffset :=
  ⟨fun p => do
    let (member, offset) ← parse p
    return ⟨member, offset⟩⟩

def Version.tag : Version → String
  | .dex041 => "Dex041"
  | .dex040 => "Dex040"
  | .dex039 => "Dex039"
  | .dex038 => "Dex038"
  | .dex037 => "Dex037"
  | .dex035 => "Dex035"
  | .compact => "Cdex001"

instance : ToPlain Version := ⟨fun v => text v.tag⟩
instance : OfPlain Version := ⟨choose Version.all Version.tag⟩

instance : ToPlain Options :=
  ⟨fun o => record [("target_api", plain o.targetApi), ("target_art", plain o.targetArt),
    ("allow_odex_instructions", plain o.allowOdex), ("hidden_api_flags", plain o.hiddenApiFlags),
    ("debug_info", plain o.debugInfo)]⟩
instance : OfPlain Options where
  parse p := do
    let o : Options := {}
    return {
      targetApi := ← p.getD "target_api" o.targetApi
      targetArt := ← p.getD "target_art" o.targetArt
      allowOdex := ← p.getD "allow_odex_instructions" o.allowOdex
      hiddenApiFlags := ← p.getD "hidden_api_flags" o.hiddenApiFlags
      debugInfo := ← p.getD "debug_info" o.debugInfo }

instance : ToPlain WriteOptions :=
  ⟨fun o => record [("dex", plain o.options), ("version", plain o.version)]⟩

instance : ToPlain Pools :=
  ⟨fun p => record [("strings", plain p.strings.toList), ("types", plain p.types.toList),
    ("protos", plain p.protos.toList), ("fields", plain p.fields.toList),
    ("methods", plain p.methods.toList), ("handles", plain p.methodHandles.toList),
    ("call_sites", plain p.callSites.toList)]⟩
instance : OfPlain PoolEntries :=
  ⟨fun p => return {
    strings := ← p.get "strings"
    types := ← p.get "types"
    protos := ← p.get "protos"
    fields := ← p.get "fields"
    methods := ← p.get "methods"
    methodHandles := ← p.get "handles"
    callSites := ← p.get "call_sites" }⟩

end Dalvik
