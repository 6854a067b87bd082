import Dalvik.Arithmetic
import Dalvik.Code
import Dalvik.Leb128

/-!
# Try blocks in bytes

The blocks stand in the order of their addresses, each with the offset of its handler. Handlers
follow behind a count; blocks with equal handlers share one of them. The offsets count from there.
-/
namespace Dalvik

namespace CatchHandler

/-- The count of typed handlers, not above 0 if there is an address for all exceptions. -/
def signedCount (h : CatchHandler) : Result Int32 :=
  let count := Int32.ofNat h.handlers.length
  if h.catchAll.isSome then Arithmetic.negate32 count else .ok count

def encode (r : Resolver) (h : CatchHandler) : Result Bytes := do
  if h.isEmpty then Result.violation .emptyHandler
  let count ← h.signedCount
  let typed ← h.handlers.mapM fun e => return Bytes.uleb (← r.type e.type) ++ Bytes.uleb e.address
  return Bytes.sleb count ++ typed.flatten ++
    (h.catchAll.map Bytes.uleb).getD []

def decode (s : Source) : Decoder CatchHandler := do
  let size ← Decoder.sleb
  let count := size.toInt.natAbs
  if (← Decoder.available) < count then Decoder.fail (.handlerSize count)
  let handler : Decoder ExceptionHandler := do
    let type ← s.type (← Decoder.uleb)
    return ⟨type, ← Decoder.uleb⟩
  let handlers ← handler.repeated count
  if size ≤ 0 then return ⟨handlers, some (← Decoder.uleb)⟩
  return ⟨handlers, none⟩

/-- The encodings of handlers from `offset` on, each with its offset. -/
def encodeFrom (r : Resolver) (offset : Nat) :
    List CatchHandler → Result (List (CatchHandler × UInt16 × Bytes))
  | [] => .ok []
  | h :: hs => do
    if 0xffff < offset then Result.violation (.handlerOffset offset)
    let part ← h.encode r
    return (h, offset.toUInt16, part) :: (← encodeFrom r (offset + part.length) hs)

/-- `count` handlers from the cursor on with their offsets from `base`. -/
def decodeFrom (s : Source) (base count : Nat) : Decoder (List (Nat × CatchHandler)) :=
  Decoder.repeated (do return ((← Decoder.position) - base, ← decode s)) count

end CatchHandler

namespace TryBlock

/-- Where the table of the blocks begins. -/
def alignment : Nat := 4

/-- The size of an entry in the table of the blocks. -/
def size : Nat := 8

/-- The blocks in the order of their addresses, which have to be distinct. -/
def sorted (tries : List TryBlock) : Result (List TryBlock) :=
  let tries := sortedBy (compareOn start) tries
  match firstAdjacent? (fun a b => a.start == b.start) tries with
  | some t => Result.violation (.tryOverlap t.start.toNat)
  | none => .ok tries

/-- The table of the blocks and the handlers behind it; nothing if there are no blocks. -/
def encodeAll (r : Resolver) (tries : List TryBlock) : Result Bytes := do
  if tries.isEmpty then return []
  let distinct := (ItemSet.ofList (tries.map handler)).toList
  let head := Bytes.ulebNat distinct.length
  let handlers ← CatchHandler.encodeFrom r head.length distinct
  let entries ← tries.mapM fun t =>
    match handlers.lookup t.handler with
    | some (offset, _) => .ok (Bytes.u4 t.start ++ Bytes.u2 t.units ++ Bytes.u2 offset)
    | none => Result.unresolved .catchHandler
  return entries.flatten ++ head ++ handlers.flatMap fun (_, _, part) => part

/-- An entry of the table, with its handler among those that have been read. -/
def decode (handlers : List (Nat × CatchHandler)) : Decoder TryBlock := do
  let start ← Decoder.u4
  let units ← Decoder.u2
  let offset := (← Decoder.u2).toNat
  match handlers.lookup offset with
  | some handler => return { start, units, handler }
  | none => Decoder.fail (.handlerOffset offset)

/-- The blocks whose table is at the cursor, for a code item at `item`. -/
def decodeAll (s : Source) (item count : Nat) : Decoder (List TryBlock) := do
  if count = 0 then return []
  let table := alignUp (← Decoder.position) alignment
  let base := table + count * size
  Decoder.seek base
  let handlerCount := (← Decoder.uleb).toNat
  if (← Decoder.available) < handlerCount then
    Decoder.fail (.handlerListSize item handlerCount)
  let handlers ← CatchHandler.decodeFrom s base handlerCount
  let after ← Decoder.position
  Decoder.seek table
  let tries ← (decode handlers).repeated count
  Decoder.seek after
  return tries

end TryBlock

end Dalvik
