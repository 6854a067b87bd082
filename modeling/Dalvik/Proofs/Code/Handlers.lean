import Dalvik.Code.Handlers
import Dalvik.Proofs.Causes
import Dalvik.Proofs.ItemSet
import Dalvik.Proofs.Leb128
import Dalvik.Proofs.Lookup
import Dalvik.Proofs.Pools
import Dalvik.Proofs.Result

/-!
# Try blocks are read back

Handlers are read in a row, each with its offset. No two of them share an offset, so that a block
finds its own handler by the offset that was stored for it.
-/
namespace Dalvik
open Result

namespace CatchHandler

variable {r : Resolver} {s : Source} {h : CatchHandler} {hs : List CatchHandler} {out : Bytes}

/-! ## Single handlers -/

/-- The typed handlers can be counted with a signed number of 32 bits. -/
def Counted (h : CatchHandler) : Prop := h.handlers.length < 2 ^ 31

/-- What is written for a handler: the count with its sign, the typed handlers, and the address for
all other exceptions. -/
theorem encode_eq_ok (he : h.encode r = .ok out) :
    ¬ h.isEmpty ∧ ∃ count typed, h.signedCount = .ok count ∧
      List.Forall₂ (fun (e : ExceptionHandler) part => (do
        return Bytes.uleb (← r.type e.type) ++ Bytes.uleb e.address) = Except.ok part)
        h.handlers typed ∧
      out = Bytes.sleb count ++ typed.flatten ++ (h.catchAll.map Bytes.uleb).getD [] := by
  obtain ⟨hne, he⟩ := violation_guard_eq_ok.mp he
  obtain ⟨count, hcount, he⟩ := bind_eq_ok.mp he
  obtain ⟨typed, htyped, he⟩ := bind_eq_ok.mp he
  exact ⟨hne, count, typed, hcount, mapM_eq_ok.mp htyped, (pure_eq_ok.mp he).symm⟩

theorem toInt_of_signedCount (hl : h.Counted) {count : Int32} (hcount : h.signedCount = .ok count) :
    count.toInt = if h.catchAll.isSome then -(h.handlers.length : Int) else h.handlers.length := by
  have hl : h.handlers.length < 2 ^ 31 := hl
  have hnat : (Int32.ofNat h.handlers.length).toInt = h.handlers.length :=
    Int32.toInt_ofNat_of_lt hl
  unfold signedCount at hcount
  dsimp only at hcount
  split_ifs at hcount ⊢
  · rw [Arithmetic.eq_of_negate32 hcount, Int32.toInt_neg, hnat, Int.bmod_eq_of_le] <;> omega
  · rw [← Except.ok.inj hcount, hnat]

/-- Counting fails for one number of handlers, of which the negative is not a word. -/
theorem failsWith_signedCount {P : Cause → Prop} (h : CatchHandler)
    (hP : P (.fault (.overflow .negate))) : h.signedCount.FailsWith P := by
  refine failsWith_ite (fun _ => failsWith_ite (fun _ => hP) fun _ => trivial) fun _ => trivial

/-- The typed handlers in bytes, two at least for each of them. -/
theorem length_typed {typed : List Bytes}
    (htyped : List.Forall₂ (fun (e : ExceptionHandler) part => (do
      return Bytes.uleb (← r.type e.type) ++ Bytes.uleb e.address) = Except.ok part)
      h.handlers typed) : h.handlers.length * 2 ≤ typed.flatten.length := by
  rw [htyped.length_eq]
  apply length_mul_le_length_flatten
  intro part hpart
  obtain ⟨e, -, he⟩ := exists_left_of_mem htyped hpart
  obtain ⟨index, -, he⟩ := bind_eq_ok.mp he
  cases he
  have h1 := Bytes.length_uleb_pos index
  have h2 := Bytes.length_uleb_pos e.address
  rw [List.length_append]
  omega

theorem counted_of_encode (he : h.encode r = .ok out) (hl : out.length < UInt32.size) :
    h.Counted := by
  obtain ⟨-, count, typed, -, htyped, rfl⟩ := encode_eq_ok he
  have htwo := length_typed htyped
  have hmax : UInt32.size = 2 ^ 32 := rfl
  simp only [List.length_append] at hl
  rw [Counted]
  omega

theorem decode_reads (hrs : r.InverseOnIds s) (hc : h.Counted) (he : h.encode r = .ok out) :
    (decode s).Reads out h := by
  obtain ⟨hne, size, typed, hsigned, htyped, rfl⟩ := encode_eq_ok he
  have hread : List.Forall₂ (do return ⟨← s.type (← Decoder.uleb), ← Decoder.uleb⟩ :
      Decoder ExceptionHandler).Reads typed h.handlers := by
    apply List.Forall₂.flip
    refine htyped.imp fun e part he => ?_
    obtain ⟨index, hindex, he⟩ := bind_eq_ok.mp he
    cases he
    apply (Decoder.uleb_reads index).bind
    apply Decoder.Reads.lift (hrs.type hindex)
    exact (Decoder.uleb_reads e.address).map
  have htwo := length_typed htyped
  have hsize := toInt_of_signedCount hc hsigned
  have hcount : size.toInt.natAbs = h.handlers.length := by
    rw [hsize]
    split_ifs <;> simp
  rw [List.append_assoc]
  apply (Decoder.sleb_reads size).bind
  apply Decoder.Reads.available
  intro n hn
  rw [hcount, if_neg (by rw [List.length_append] at hn; omega)]
  apply (Decoder.Reads.repeated hread).bind
  cases hall : h.catchAll with
  | none =>
    have hpos : h.handlers ≠ [] := by
      simpa [isEmpty, hall] using hne
    have hle : ¬ size ≤ 0 := by
      have := List.length_pos_of_ne_nil hpos
      rw [Int32.le_iff_toInt_le, hsize, hall]
      simp
      omega
    have hh : CatchHandler.mk h.handlers none = h := by rw [← hall]
    rw [if_neg hle, hh]
    exact .pure h
  | some address =>
    have hle : size ≤ 0 := by
      rw [Int32.le_iff_toInt_le, hsize, hall]
      simp
    have hh : CatchHandler.mk h.handlers (some address) = h := by rw [← hall]
    have hread := (Decoder.uleb_reads address).map (g := fun a => CatchHandler.mk h.handlers (some a))
    rw [if_pos hle]
    rw [hh] at hread
    exact hread

theorem ne_nil_of_encode (he : h.encode r = .ok out) : out ≠ [] := by
  obtain ⟨-, count, typed, -, -, rfl⟩ := encode_eq_ok he
  have := (Leb128.ended_encodeSigned count.toInt64).ne_nil
  simp [Bytes.sleb, this]

/-! ## Handlers in a row -/

variable {list : List (CatchHandler × UInt16 × Bytes)} {offset : Nat}

theorem encodeFrom_cons (he : encodeFrom r offset (h :: hs) = .ok list) :
    ∃ part rest, offset < 0x10000 ∧ h.encode r = .ok part ∧
      encodeFrom r (offset + part.length) hs = .ok rest ∧
        list = (h, offset.toUInt16, part) :: rest := by
  obtain ⟨hoffset, he⟩ := violation_guard_eq_ok.mp he
  obtain ⟨part, hpart, he⟩ := bind_eq_ok.mp he
  obtain ⟨rest, hrest, he⟩ := bind_eq_ok.mp he
  cases he
  exact ⟨part, rest, by omega, hpart, hrest, rfl⟩

/-- The offsets leave room for so many handlers only. -/
theorem length_le_of_encodeFrom (he : encodeFrom r offset hs = .ok list) :
    hs.length ≤ 0x10000 - offset := by
  induction hs generalizing offset list with
  | nil => exact Nat.zero_le _
  | cons h hs ih =>
    obtain ⟨part, rest, hoffset, hpart, hrest, -⟩ := encodeFrom_cons he
    have hpos := List.length_pos_of_ne_nil (ne_nil_of_encode hpart)
    have := ih hrest
    rw [List.length_cons]
    omega

theorem map_fst_encodeFrom (he : encodeFrom r offset hs = .ok list) : list.map Prod.fst = hs := by
  induction hs generalizing offset list with
  | nil =>
    cases he
    rfl
  | cons h hs ih =>
    obtain ⟨part, rest, -, -, hrest, rfl⟩ := encodeFrom_cons he
    rw [List.map_cons, ih hrest]

theorem le_of_mem_encodeFrom (he : encodeFrom r offset hs = .ok list)
    {e : CatchHandler × UInt16 × Bytes} (hm : e ∈ list) : offset ≤ e.2.1.toNat := by
  induction hs generalizing offset list with
  | nil =>
    cases he
    simp at hm
  | cons h hs ih =>
    obtain ⟨part, rest, hoffset, -, hrest, rfl⟩ := encodeFrom_cons he
    rcases List.mem_cons.mp hm with rfl | hm
    · have hplace : offset.toUInt16.toNat = offset := by
        rw [Nat.toUInt16_eq, UInt16.toNat_ofNat', Nat.mod_eq_of_lt hoffset]
      exact Nat.le_of_eq hplace.symm
    · have := ih hrest hm
      omega

/-- The handlers by their offsets. -/
def byOffset (list : List (CatchHandler × UInt16 × Bytes)) : List (Nat × CatchHandler) :=
  list.map fun e => (e.2.1.toNat, e.1)

theorem nodup_byOffset (he : encodeFrom r offset hs = .ok list) :
    ((byOffset list).map Prod.fst).Nodup := by
  induction hs generalizing offset list with
  | nil =>
    cases he
    simp [byOffset]
  | cons h hs ih =>
    obtain ⟨part, rest, hoffset, hpart, hrest, rfl⟩ := encodeFrom_cons he
    have hplace : offset.toUInt16.toNat = offset := by
      rw [Nat.toUInt16_eq, UInt16.toNat_ofNat', Nat.mod_eq_of_lt hoffset]
    rw [byOffset, List.map_cons, List.map_cons, List.nodup_cons]
    refine ⟨?_, ih hrest⟩
    intro hmem
    obtain ⟨e, he, heq⟩ := List.mem_map.mp hmem
    obtain ⟨x, hx, rfl⟩ := List.mem_map.mp he
    have hle := le_of_mem_encodeFrom hrest hx
    have hpos := List.length_pos_of_ne_nil (ne_nil_of_encode hpart)
    dsimp only at heq
    omega

/-- The offset of a handler leads back to it. -/
theorem lookup_byOffset (he : encodeFrom r offset hs = .ok list) {place : UInt16} {part : Bytes}
    (hl : list.lookup h = some (place, part)) : (byOffset list).lookup place.toNat = some h :=
  lookup_of_mem (nodup_byOffset he) (List.mem_map.mpr ⟨_, mem_of_lookup hl, rfl⟩)

/-- Handlers are read in a row, with the offsets they have been given. -/
theorem decodeFrom_go_eq (hrs : r.InverseOnIds s) (hc : ∀ h ∈ hs, h.Counted)
    (he : encodeFrom r offset hs = .ok list) {base index : Nat} {bytes : ByteArray}
    (hi : index = base + offset)
    (hst : Bytes.Stands (list.flatMap fun e => e.2.2) bytes index)
    (found : List (Nat × CatchHandler)) :
    Decoder.repeated.go (do return ((← Decoder.position) - base, ← decode s)) hs.length found bytes
        index =
      .ok (found.reverse ++ byOffset list) (index + (list.flatMap fun e => e.2.2).length) := by
  induction hs generalizing offset list index found with
  | nil =>
    cases he
    simp [byOffset, Decoder.repeated.go]
    rfl
  | cons h hs ih =>
    obtain ⟨part, rest, hoffset, hpart, hrest, rfl⟩ := encodeFrom_cons he
    have hplace : offset.toUInt16.toNat = index - base := by
      rw [Nat.toUInt16_eq, UInt16.toNat_ofNat', Nat.mod_eq_of_lt hoffset]
      omega
    rw [List.flatMap_cons] at hst ⊢
    rw [List.length_append]
    dsimp only at hst ⊢
    obtain ⟨hch, hc⟩ := List.forall_mem_cons.mp hc
    have hread := decode_reads hrs hch hpart hst.left
    have hlast := ih hc hrest (by omega) hst.right ((index - base, h) :: found)
    have hstep : (do return ((← Decoder.position) - base, ← decode s) : Decoder _) bytes index =
        .ok (index - base, h) (index + part.length) := by
      rw [Decoder.position_bind, Decoder.bind_of_ok hread]
      rfl
    rw [List.length_cons, Decoder.repeated.go, Decoder.bind_of_ok hstep, hlast]
    simp [byOffset, hplace, Nat.add_assoc]

end CatchHandler

/-! ## The table of the blocks -/

namespace TryBlock

variable {r : Resolver} {s : Source} {tries : List TryBlock} {out : Bytes}

theorem decode_reads {handlers : List (Nat × CatchHandler)} {t : TryBlock} {offset : UInt16}
    (h : handlers.lookup offset.toNat = some t.handler) :
    (decode handlers).Reads (Bytes.u4 t.start ++ Bytes.u2 t.units ++ Bytes.u2 offset) t := by
  rw [List.append_assoc]
  apply (Decoder.u4_reads t.start).bind
  apply (Decoder.u2_reads t.units).bind
  apply (Decoder.u2_reads offset).bind_last
  dsimp only
  rw [h]
  exact .pure t

theorem entries_read {handlers : List (CatchHandler × UInt16 × Bytes)} {hs : List CatchHandler}
    {offset : Nat} (hh : CatchHandler.encodeFrom r offset hs = .ok handlers) {entries : List Bytes}
    (he : (tries.mapM fun t =>
      match handlers.lookup t.handler with
      | some (offset, _) => .ok (Bytes.u4 t.start ++ Bytes.u2 t.units ++ Bytes.u2 offset)
      | none => Result.unresolved .catchHandler : Result (List Bytes)) = .ok entries) :
    List.Forall₂ (decode (CatchHandler.byOffset handlers)).Reads entries tries ∧
      entries.flatten.length = tries.length * size := by
  replace he := mapM_eq_ok.mp he
  induction he with
  | nil => exact ⟨.nil, rfl⟩
  | @cons t entry tries entries ht _ ih =>
    cases hl : handlers.lookup t.handler with
    | none => simp [hl] at ht
    | some found =>
      obtain ⟨place, part⟩ := found
      simp only [hl, Except.ok.injEq] at ht
      subst ht
      have hread := decode_reads (CatchHandler.lookup_byOffset hh hl)
      refine ⟨.cons hread ih.1, ?_⟩
      simp only [List.flatten_cons, List.length_append, ih.2, Bytes.length_u4, Bytes.length_u2,
        List.length_cons, size]
      omega

theorem nonempty_of_encodeFrom {hs : List CatchHandler} {offset : Nat}
    {list : List (CatchHandler × UInt16 × Bytes)}
    (he : CatchHandler.encodeFrom r offset hs = .ok list) :
    hs.length ≤ (list.flatMap fun e => e.2.2).length := by
  induction hs generalizing offset list with
  | nil => simp
  | cons h hs ih =>
    obtain ⟨part, rest, -, hpart, hrest, rfl⟩ := CatchHandler.encodeFrom_cons he
    have hpos := List.length_pos_of_ne_nil (CatchHandler.ne_nil_of_encode hpart)
    have := ih hrest
    simp only [List.flatMap_cons, List.length_append, List.length_cons]
    omega

theorem mem_distinct {h : CatchHandler} :
    h ∈ (ItemSet.ofList (tries.map handler)).toList ↔ ∃ t ∈ tries, t.handler = h := by
  rw [ItemSet.mem_toList_ofList, List.mem_map]

theorem length_part_le {hs : List CatchHandler} {offset : Nat}
    {list : List (CatchHandler × UInt16 × Bytes)}
    (he : CatchHandler.encodeFrom r offset hs = .ok list) {h : CatchHandler} (hm : h ∈ hs) :
    ∃ part, h.encode r = .ok part ∧ part.length ≤ (list.flatMap fun e => e.2.2).length := by
  induction hs generalizing offset list with
  | nil => simp at hm
  | cons x hs ih =>
    obtain ⟨part, rest, -, hpart, hrest, rfl⟩ := CatchHandler.encodeFrom_cons he
    rw [List.flatMap_cons, List.length_append]
    rcases List.mem_cons.mp hm with rfl | hm
    · exact ⟨part, hpart, Nat.le_add_right _ _⟩
    · obtain ⟨part', hpart', hle⟩ := ih hrest hm
      exact ⟨part', hpart', by omega⟩

/-- The handler of a block is among those that have been written. -/
theorem exists_encode_of_encodeAll (h : encodeAll r tries = .ok out) {t : TryBlock} (ht : t ∈ tries) :
    ∃ part, t.handler.encode r = .ok part ∧ part.length ≤ out.length := by
  have hempty : ¬ tries.isEmpty := by
    rw [List.isEmpty_iff]
    rintro rfl
    simp at ht
  rw [encodeAll, if_neg hempty] at h
  obtain ⟨handlers, hhandlers, h⟩ := bind_eq_ok.mp h
  obtain ⟨entries, -, h⟩ := bind_eq_ok.mp h
  obtain rfl := pure_eq_ok.mp h
  obtain ⟨part, hpart, hle⟩ := length_part_le hhandlers (mem_distinct.mpr ⟨t, ht, rfl⟩)
  refine ⟨part, hpart, hle.trans ?_⟩
  rw [List.length_append]
  exact Nat.le_add_left _ _

/-- In bytes that can be counted with 32 bits the handlers are counted. -/
theorem counted_of_encodeAll (h : encodeAll r tries = .ok out) (hl : out.length < UInt32.size) :
    ∀ t ∈ tries, t.handler.Counted := by
  intro t ht
  obtain ⟨part, hpart, hle⟩ := exists_encode_of_encodeAll h ht
  exact CatchHandler.counted_of_encode hpart (hle.trans_lt hl)

/-- The table and the handlers behind it are read back from anywhere in the padding before them. -/
theorem decodeAll_eq (hrs : r.InverseOnIds s) (hne : tries ≠ []) (h : encodeAll r tries = .ok out)
    (hc : ∀ t ∈ tries, t.handler.Counted) (item : Nat) {bytes : ByteArray} {index : Nat}
    (hs : out.Stands bytes (alignUp index alignment)) :
    decodeAll s item tries.length bytes index = .ok tries (alignUp index alignment + out.length) := by
  have hempty : ¬ tries.isEmpty := by simpa using hne
  have hpos : tries.length ≠ 0 := by simpa using hne
  rw [encodeAll, if_neg hempty] at h
  obtain ⟨handlers, hhandlers, h⟩ := bind_eq_ok.mp h
  obtain ⟨entries, hentries, h⟩ := bind_eq_ok.mp h
  obtain ⟨hread, hsize⟩ := entries_read hhandlers hentries
  have hnonempty := nonempty_of_encodeFrom hhandlers
  have hroom := CatchHandler.length_le_of_encodeFrom hhandlers
  have hc : ∀ h ∈ (ItemSet.ofList (tries.map handler)).toList, h.Counted := by
    intro h hm
    obtain ⟨t, ht, rfl⟩ := mem_distinct.mp hm
    exact hc t ht
  generalize (ItemSet.ofList (tries.map handler)).toList = distinct at *
  replace h : entries.flatten ++ (Bytes.ulebNat distinct.length ++
      handlers.flatMap fun e => e.2.2) = out := by
    rw [← List.append_assoc]
    exact pure_eq_ok.mp h
  subst h
  -- the handlers come first, then the table in front of them
  have hhead := hs.right.left
  have hparts := hs.right.right
  rw [hsize] at hhead hparts
  have hdistinct : (UInt32.ofNat distinct.length).toNat = distinct.length :=
    UInt32.toNat_ofNat_of_lt' (Nat.lt_of_le_of_lt (Nat.le_trans hroom (Nat.sub_le _ _)) (by decide))
  have hrow := CatchHandler.decodeFrom_go_eq hrs hc hhandlers rfl hparts []
  have hcount := Decoder.uleb_reads _ hhead
  rw [List.reverse_nil, List.nil_append] at hrow
  have htable := Decoder.Reads.repeated hread hs.left
  have havailable := hparts.length_le
  unfold decodeAll
  rw [if_neg hpos, Decoder.position_bind, Decoder.seek_bind, Decoder.bind_of_ok hcount,
    Decoder.available_bind, hdistinct, if_neg (by rw [← Bytes.ulebNat]; omega)]
  refine (Decoder.bind_of_ok hrow).trans ?_
  rw [Decoder.position_bind, Decoder.seek_bind, Decoder.bind_of_ok htable, Decoder.seek_bind]
  simp only [List.length_append, hsize, Nat.add_assoc]
  rfl

/-- Two blocks share a handler that is written once. -/
theorem encodeAll_pair {h : CatchHandler} {part : Bytes}
    (hh : CatchHandler.encodeFrom r 1 [h] = .ok [(h, 1, part)]) (start start' : UInt32)
    (units units' : UInt16) : encodeAll r [⟨start, units, h⟩, ⟨start', units', h⟩] =
      .ok (Bytes.u4 start ++ Bytes.u2 units ++ Bytes.u2 1 ++
        (Bytes.u4 start' ++ Bytes.u2 units' ++ Bytes.u2 1) ++ [1] ++ part) := by
  have hdistinct : (ItemSet.ofList [h, h]).toList = [h] := by
    have hone : ((∅ : ItemSet CatchHandler).insert h).2.toList = [h] :=
      ItemSet.toList_insert_of_not_contains (by simp [ItemSet.contains])
    have htwo := ItemSet.toList_insert_of_contains (s := (ItemSet.insert ∅ h).2) (a := h)
      (by simp [ItemSet.contains, ItemSet.id?_insert_self])
    exact htwo.trans hone
  have hhead : Bytes.ulebNat 1 = [1] := by cbv
  unfold encodeAll
  simp [hdistinct, hhead, hh, ok_bind]

end TryBlock

end Dalvik
