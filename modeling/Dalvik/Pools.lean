import Dalvik.CallSite
import Dalvik.ItemSet

/-!
# Pools and the two ways through them

A file refers to strings, types, prototypes, fields, methods, method handles and call sites by their
index in a sorted pool. A `Resolver` turns values into indices and serves writing; a `Source` turns
indices into values and serves reading.
-/
namespace Dalvik
open Text

/-- Gives the index of a value. -/
structure Resolver where
  string : String → Result UInt32
  type : TypeId → Result UInt32
  proto : ProtoId → Result UInt32
  field : FieldId → Result UInt32
  method : MethodId → Result UInt32
  methodHandle : MethodHandle → Result UInt32
  callSite : CallSite → Result UInt32

/-- Gives the value at an index. -/
structure Source where
  string : UInt32 → Result String
  type : UInt32 → Result TypeId
  proto : UInt32 → Result ProtoId
  field : UInt32 → Result FieldId
  method : UInt32 → Result MethodId
  methodHandle : UInt32 → Result MethodHandle
  callSite : UInt32 → Result CallSite

/-- Every index that the resolver gives leads back to the value. -/
structure Resolver.Inverse (resolver : Resolver) (source : Source) : Prop where
  string : ∀ {v i}, resolver.string v = .ok i → source.string i = .ok v
  type : ∀ {v i}, resolver.type v = .ok i → source.type i = .ok v
  proto : ∀ {v i}, resolver.proto v = .ok i → source.proto i = .ok v
  field : ∀ {v i}, resolver.field v = .ok i → source.field i = .ok v
  method : ∀ {v i}, resolver.method v = .ok i → source.method i = .ok v
  methodHandle : ∀ {v i}, resolver.methodHandle v = .ok i → source.methodHandle i = .ok v
  callSite : ∀ {v i}, resolver.callSite v = .ok i → source.callSite i = .ok v

/-- The kinds of pools. -/
inductive PoolKind where
  | string
  | type
  | proto
  | field
  | method
  | methodHandle
  | callSite
  deriving DecidableEq, Repr

def PoolKind.name : PoolKind → String
  | string => "string"
  | type => "type"
  | proto => "proto"
  | field => "field"
  | method => "method"
  | methodHandle => "method handle"
  | callSite => "call site"

/-- The index as a position among the `size` entries of the part called `name`. -/
def checkIndex (name : String) (index : UInt32) (size : Nat) : Result Nat :=
  if index.toNat < size then .ok index.toNat
  else .error (.ofCause (.bounds name index.toNat size))

/-- The entries of the pools in no particular order. -/
structure PoolEntries where
  strings : List String := []
  types : List TypeId := []
  protos : List ProtoId := []
  fields : List FieldId := []
  methods : List MethodId := []
  methodHandles : List MethodHandle := []
  callSites : List CallSite := []

/-- The sorted pools of a file. -/
structure Pools where
  strings : ItemSet String := ∅
  types : ItemSet TypeId := ∅
  protos : ItemSet ProtoId := ∅
  fields : ItemSet FieldId := ∅
  methods : ItemSet MethodId := ∅
  methodHandles : ItemSet MethodHandle := ∅
  callSites : ItemSet CallSite := ∅

namespace Pools

/-- As many entries as indices of 16 bits can tell apart. -/
def maxSize : Nat := 65536

/-- A sorted pool; the entries are expected to be distinct. -/
def pool {α : Type} [BEq α] [Hashable α] (cmp : α → α → Ordering) (entries : List α) :
    ItemSet α :=
  ItemSet.ofList (sortedBy cmp entries)

def checkSize (kind : PoolKind) (size : Nat) : Result Unit :=
  if size ≤ maxSize then .ok () else Result.violation (.poolSize kind.name size maxSize)

/-- Sorts all pools; only the strings may need more than 16 bits. -/
def build (e : PoolEntries) : Result Pools := do
  checkSize .type e.types.length
  checkSize .proto e.protos.length
  checkSize .field e.fields.length
  checkSize .method e.methods.length
  checkSize .methodHandle e.methodHandles.length
  checkSize .callSite e.callSites.length
  return {
    strings := pool compareUtf16 e.strings
    types := pool compare e.types
    protos := pool compare e.protos
    fields := pool compare e.fields
    methods := pool compare e.methods
    methodHandles := pool compare e.methodHandles
    callSites := pool compare e.callSites }

/-- The index of a value in a pool that is sorted by `cmp`. A value that is missing is called
`text`. -/
def lookup {α : Type} [BEq α] [Hashable α] (cmp : α → α → Ordering) (entries : ItemSet α)
    (kind : PoolKind) (text : String) (value : α) : Result UInt32 :=
  match bisect (cmp · value) entries.items 0 entries.size with
  | some index => .ok (UInt32.ofNat index)
  | none => Result.unresolved (.value kind.name text)

def resolver (p : Pools) : Resolver where
  string v := lookup compareUtf16 p.strings .string v v
  type v := lookup compare p.types .type (toString v) v
  proto v := lookup compare p.protos .proto (toString v) v
  field v := lookup compare p.fields .field (toString v) v
  method v := lookup compare p.methods .method (toString v) v
  methodHandle v := lookup compare p.methodHandles .methodHandle (toString v) v
  callSite v := lookup compare p.callSites .callSite v.name v

def fetch {α : Type} [BEq α] [Hashable α] (entries : ItemSet α) (kind : PoolKind)
    (index : UInt32) : Result α :=
  match entries.get? index.toNat with
  | some value => .ok value
  | none => .error (.ofCause (.bounds kind.name index.toNat entries.size))

def source (p : Pools) : Source where
  string := fetch p.strings .string
  type := fetch p.types .type
  proto := fetch p.protos .proto
  field := fetch p.fields .field
  method := fetch p.methods .method
  methodHandle := fetch p.methodHandles .methodHandle
  callSite := fetch p.callSites .callSite

end Pools

end Dalvik
