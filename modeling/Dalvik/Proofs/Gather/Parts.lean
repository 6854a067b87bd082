import Dalvik.Contents.Gather
import Dalvik.Proofs.ItemSet

/-!
# The parts of a file and what they need

A part is an entry of a pool or an item that is stored once. It needs the parts that its own bytes
refer to, and values that are not nested too deeply. What has been gathered is sound if it has, or
will have when all that was set aside is settled, whatever its parts need.
-/
namespace Dalvik

/-- What the events and the parameters of a method refer to. -/
def DebugInfo.references (d : DebugInfo) : List Reference :=
  d.parameters.flatMap (·.toList.map .string) ++
    d.items.flatMap fun i => i.strings.map .string ++ i.types.map .type

/-- What the instructions and the handlers of a method refer to. -/
def Code.references (c : Code) : List Reference :=
  c.instructions.flatMap Instruction.references ++
    c.tries.flatMap fun t => t.handler.handlers.map (.type ·.type)

/-- An entry of a pool, or an item that is stored once. -/
inductive Part where
  | reference (r : Reference)
  | typeList (types : List TypeId)
  | encodedArray (values : List Value)
  | annotationItem (a : AnnotationItem)
  | annotationSet (set : List AnnotationItem)
  | annotationSetList (sets : List (List AnnotationItem))
  | directory (d : AnnotationDirectory)
  | code (c : SharedCode)
  | debugInfo (d : DebugInfo)
  /-- The debug information with an id. -/
  | debugAt (id : Nat)
  /-- A depth to which values may be nested. -/
  | nesting (depth : Nat)

namespace Part

/-- A set of annotations, unless it is empty. -/
def ofSet (set : List AnnotationItem) : List Part :=
  if set.isEmpty then [] else [.annotationSet set]

def ofReference : Reference → List Part
  | .string _ => []
  | .type t => [.reference (.string t.descriptor)]
  | .proto p =>
    .reference (.string p.shorty) :: .reference (.type p.returnType) ::
      if p.parameters.isEmpty then [] else [.typeList p.parameters]
  | .field f =>
    [.reference (.type f.declaringClass), .reference (.string f.name), .reference (.type f.type)]
  | .method m =>
    [.reference (.type m.declaringClass), .reference (.string m.name), .reference (.proto m.proto)]
  | .methodHandle h =>
    match h.member with
    | .field f => [.reference (.field f)]
    | .method m => [.reference (.method m)]
  | .callSite c => [.encodedArray c.toValues]
  | .raw _ => []

def ofDirectory (d : AnnotationDirectory) : List Part :=
  ofSet d.ofClass ++
    d.ofFields.flatMap (fun (id, set) => .reference (.field id) :: ofSet set) ++
    d.ofMethods.flatMap (fun (id, set) => .reference (.method id) :: ofSet set) ++
    d.ofParameters.flatMap fun (id, sets) => [.reference (.method id), .annotationSetList sets]

def ofCode (c : SharedCode) : List Part :=
  c.code.references.map .reference ++ c.debug.toList.map .debugAt

/-- What the bytes of a part refer to. -/
def needs : Part → List Part
  | .reference r => ofReference r
  | .typeList types => types.map (.reference <| .type ·)
  | .encodedArray values =>
    (Value.referencesAll values).map .reference ++ values.map (.nesting ·.depth)
  | .annotationItem a => .nesting (a.value.depth - 1) :: a.value.references.map .reference
  | .annotationSet set => set.map .annotationItem
  | .annotationSetList sets => sets.flatMap ofSet
  | .directory d => ofDirectory d
  | .code c => ofCode c
  | .debugInfo d => d.references.map .reference
  | .debugAt _ | .nesting _ => []

end Part

/-- What settling something will bring. -/
def Deferred.promises : Deferred → List Part
  | .value v => .nesting v.depth :: v.references.map .reference
  | .annotated a => .nesting (a.value.depth - 1) :: a.value.references.map .reference
  | .callSite c => [.reference (.callSite c)]

namespace Gathered

/-- The id of a part among those of its kind. -/
def id? (g : Gathered) : Part → Option Nat
  | .reference (.string s) => g.strings.id? s
  | .reference (.type t) => g.types.id? t
  | .reference (.proto p) => g.protos.id? p
  | .reference (.field f) => g.fields.id? f
  | .reference (.method m) => g.methods.id? m
  | .reference (.methodHandle h) => g.methodHandles.id? h
  | .reference (.callSite c) => g.callSites.id? c
  | .reference (.raw _) => some 0
  | .typeList types => g.items.typeLists.id? types
  | .encodedArray values => g.items.encodedArrays.id? values
  | .annotationItem a => g.items.annotations.id? a
  | .annotationSet set => g.items.annotationSets.id? set
  | .annotationSetList sets => g.items.annotationSetLists.id? sets
  | .directory d => g.items.directories.id? d
  | .code c => g.items.code.id? c
  | .debugInfo d => g.items.debugInfos.id? d
  | .debugAt id => (g.items.debugInfos.get? id).map fun _ => id
  | .nesting depth => if depth ≤ maxNesting then some 0 else none

def Has (g : Gathered) (p : Part) : Prop := ∃ id, g.id? p = some id

/-- Adds a part to those of its kind, and nothing that it needs. -/
def put (g : Gathered) : Part → Gathered
  | .reference (.string s) => { g with strings := (g.strings.insert s).2 }
  | .reference (.type t) => { g with types := (g.types.insert t).2 }
  | .reference (.proto p) => { g with protos := (g.protos.insert p).2 }
  | .reference (.field f) => { g with fields := (g.fields.insert f).2 }
  | .reference (.method m) => { g with methods := (g.methods.insert m).2 }
  | .reference (.methodHandle h) => { g with methodHandles := (g.methodHandles.insert h).2 }
  | .reference (.callSite c) => { g with callSites := (g.callSites.insert c).2 }
  | .reference (.raw _) => g
  | .typeList types =>
    { g with items := { g.items with typeLists := (g.items.typeLists.insert types).2 } }
  | .encodedArray values =>
    { g with items := { g.items with encodedArrays := (g.items.encodedArrays.insert values).2 } }
  | .annotationItem a =>
    { g with items := { g.items with annotations := (g.items.annotations.insert a).2 } }
  | .annotationSet set =>
    { g with items := { g.items with annotationSets := (g.items.annotationSets.insert set).2 } }
  | .annotationSetList sets =>
    { g with items :=
      { g.items with annotationSetLists := (g.items.annotationSetLists.insert sets).2 } }
  | .directory d =>
    { g with items := { g.items with directories := (g.items.directories.insert d).2 } }
  | .code c => { g with items := { g.items with code := (g.items.code.insert c).2 } }
  | .debugInfo d =>
    { g with items := { g.items with debugInfos := (g.items.debugInfos.insert d).2 } }
  | .debugAt _ | .nesting _ => g

variable {g g' g'' : Gathered} {p q : Part}

/-- An insertion into the set of one kind of parts keeps the ids of that kind. -/
theorem id?_put_of_id? {i : Nat} (h : g.id? q = some i) : (g.put p).id? q = some i := by
  have debugAt {d : DebugInfo} {id : Nat}
      (h : (g.items.debugInfos.get? id).map (fun _ => id) = some i) :
      ((g.items.debugInfos.insert d).2.get? id).map (fun _ => id) = some i := by
    obtain ⟨e, he, rfl⟩ := Option.map_eq_some_iff.mp h
    rw [ItemSet.get?_insert_of_get? he]
    rfl
  rcases p with (_ | _ | _ | _ | _ | _ | _ | _) | _ | _ | _ | _ | _ | _ | _ | _ | _ | _ <;>
    rcases q with (_ | _ | _ | _ | _ | _ | _ | _) | _ | _ | _ | _ | _ | _ | _ | _ | _ | _ <;>
    first
      | exact h
      | exact ItemSet.id?_insert_of_id? h
      | exact debugAt h

theorem has_put_of_has (h : g.Has q) : (g.put p).Has q :=
  h.elim fun _ hi => ⟨_, id?_put_of_id? hi⟩

/-- A depth of nesting is there if it is allowed. -/
theorem has_nesting_iff {depth : Nat} : g.Has (.nesting depth) ↔ depth ≤ maxNesting := by
  unfold Has id?
  split <;> simp_all

theorem has_put_reference (g : Gathered) (r : Reference) :
    (g.put (.reference r)).Has (.reference r) := by
  cases r with
  | raw => exact ⟨0, rfl⟩
  | _ => exact ⟨_, ItemSet.id?_insert_self _ _⟩

/-- The only other part that comes with an insertion is the id of debug information. -/
theorem has_of_has_put (h : (g.put p).Has q) : g.Has q ∨ q = p ∨ q.needs = [] := by
  rcases p with (_ | _ | _ | _ | _ | _ | _ | _) | _ | _ | _ | _ | _ | _ | _ | _ | _ | _ <;>
    rcases q with (_ | _ | _ | _ | _ | _ | _ | _) | _ | _ | _ | _ | _ | _ | _ | _ | _ | _ <;>
    first
      | exact .inl h
      | exact .inr (.inr rfl)
      | (obtain hq | rfl := ItemSet.exists_id?_insert_iff.mp h
         · exact .inl hq
         · exact .inr (.inl rfl))

theorem has_code_of_has_put {c : SharedCode} (hp : p ≠ .code c) (h : (g.put p).Has (.code c)) :
    g.Has (.code c) := by
  rcases p with (_ | _ | _ | _ | _ | _ | _ | _) | _ | _ | _ | _ | _ | _ | _ | _ <;>
    first
      | exact h
      | exact (ItemSet.exists_id?_insert_iff.mp h).resolve_right fun e => hp (e ▸ rfl)

theorem deferred_put (g : Gathered) (p : Part) : (g.put p).deferred = g.deferred := by
  rcases p with (_ | _ | _ | _ | _ | _ | _ | _) | _ <;> rfl

end Gathered

end Dalvik
