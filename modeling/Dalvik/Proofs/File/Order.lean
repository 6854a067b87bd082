import Dalvik.Proofs.File.RoundTrip
import Dalvik.Proofs.Gather.Order

/-!
# The ids of a file ascend

What a section of ids stores for an entry are the places that the key of the entry is made of. So
the items of every section ascend by what is stored in them.
-/
namespace Dalvik
open Result

namespace DexFile

/-- What is read at the indices below `size` ascends with them. -/
structure Ascends {κ : Type} [LT κ] (size : Nat) (read : UInt32 → Result κ) : Prop where
  reads : ∀ i : UInt32, i.toNat < size → ∃ x, read i = .ok x
  ascend : ∀ i j : UInt32, i < j → j.toNat < size → ∀ x y, read i = .ok x → read j = .ok y → x < y

/-- The index that is stored for a type. -/
def typeKey (f : DexFile) (index : UInt32) : Result (List Nat) :=
  return [(← f.item f.types Decoder.u4 index).toNat]

/-- The indices in a list of types. -/
def decodeIndices : Decoder (List Nat) := do
  let size := (← Decoder.u4).toNat
  Decoder.repeated (do return (← Decoder.u2).toNat) size

/-- The indices in the list at an offset, none at offset 0. -/
def parametersKey (f : DexFile) (offset : UInt32) : Result (List Nat) :=
  if offset = 0 then .ok [] else decodeIndices.valueAt f.data offset.toNat

/-- The indices that are stored for a prototype: the return type and then the parameters. -/
def protoKey (f : DexFile) (index : UInt32) : Result (List Nat) := do
  let p ← f.item f.protos IdItem.Proto.decode index
  return p.returnType.toNat :: (← f.parametersKey p.parameters)

/-- The indices that are stored for a field or a method: the class, the name and the signature. -/
def memberKey (f : DexFile) (members : IdSection) (index : UInt32) : Result (List Nat) := do
  let m ← f.item members IdItem.Member.decode index
  return [m.declaringClass.toNat, m.name.toNat, m.signature.toNat]

/-- The ids of the file are in the order that readers may search them by. -/
structure Canonical (f : DexFile) : Prop where
  strings : Ascends f.strings.size fun i => Text.utf16Units <$> f.string i
  types : Ascends f.types.size f.typeKey
  protos : Ascends f.protos.size f.protoKey
  fields : Ascends f.fields.size (f.memberKey f.fields)
  methods : Ascends f.methods.size (f.memberKey f.methods)

end DexFile

namespace Pools

section
variable {α : Type} [BEq α] [LawfulBEq α] [Hashable α] {cmp : α → α → Ordering}
  {set : ItemSet α} {kind : PoolKind} {text : String} {a : α} {w : UInt32}

/-- An index is a place in the pool. -/
theorem id?_of_lookup [Std.LawfulEqCmp cmp] (hsize : set.size ≤ UInt32.size)
    (h : lookup cmp set kind text a = .ok w) : set.id? a = some w.toNat :=
  ItemSet.id?_eq_iff_getElem?.mpr (getElem?_of_lookup hsize h)

/-- A place that 16 bits are enough for. -/
theorem id?_toUInt16_of_lookup [Std.LawfulEqCmp cmp] (hsize : set.size ≤ maxSize)
    (h : lookup cmp set kind text a = .ok w) : set.id? a = some w.toUInt16.toNat := by
  rw [id?_of_lookup (Nat.le_trans hsize (by decide)) h]
  have hshort := congrArg UInt32.toNat (toUInt32_toUInt16_of_lookup hsize h)
  rw [UInt16.toNat_toUInt32] at hshort
  rw [hshort]

omit [LawfulBEq α] in
theorem mapM_id?_of_forall₂ {as : List α} {places : List Nat}
    (h : List.Forall₂ (fun a i => set.id? a = some i) as places) :
    as.mapM set.id? = some places := by
  induction h with
  | nil => rfl
  | cons ha _ ih => exact mapM_id?_cons_eq_some.mpr ⟨_, _, ha, ih, rfl⟩

end

end Pools

namespace DexFile

variable {f : DexFile} {o : WriteOptions} {c : Contents} {d : Contents.Data}

/-- What is stored for the entries of a pool ascends as their keys do. -/
theorem ascends_of_pool {α κ : Type} [LT κ] {entries : List α} {read : UInt32 → Result κ} {size : Nat}
    {key : α → κ → Prop} (hsize : size = entries.length)
    (hkeys : entries.Pairwise fun a b => ∀ x y, key a x → key b y → x < y)
    (hread : ∀ (i : UInt32) a, entries[i.toNat]? = some a → ∃ x, key a x ∧ read i = .ok x) :
    Ascends size read where
  reads i hi := by
    obtain ⟨x, -, hx⟩ := hread i _ (List.getElem?_eq_getElem (hsize ▸ hi))
    exact ⟨x, hx⟩
  ascend i j hij hj x y hx hy := by
    have hlt : i.toNat < j.toNat := UInt32.lt_iff_toNat_lt.mp hij
    rw [hsize] at hj
    obtain ⟨x', hkey, hx'⟩ := hread i _ (List.getElem?_eq_getElem (Nat.lt_trans hlt hj))
    obtain ⟨y', hkey', hy'⟩ := hread j _ (List.getElem?_eq_getElem hj)
    obtain rfl := Except.ok.inj (hx'.symm.trans hx)
    obtain rfl := Except.ok.inj (hy'.symm.trans hy)
    exact List.pairwise_iff_getElem.mp hkeys _ _ _ _ hlt _ _ hkey hkey'

section
variable (h : f.Holds o c d) (hp : c.pools.Short)
include h

theorem typeKey_eq {index : UInt32} {t : TypeId} (ht : c.pools.types.toList[index.toNat]? = some t) :
    ∃ x, c.pools.typeKey t = some x ∧ f.typeKey index = .ok x := by
  obtain ⟨w, hw, hitem⟩ := exists_word h.types ht
  refine ⟨[w.toNat], Pools.typeKey_eq_some.mpr ⟨_, Pools.id?_of_lookup (strings_le h) hw, rfl⟩, ?_⟩
  rw [typeKey, hitem]
  rfl

include hp

omit h in
theorem decodeIndices_reads {types : List TypeId} {part : Bytes}
    (hpart : Contents.encodeTypeList c.resolver types = .ok part) (hl : part.length < UInt32.size) :
    ∃ is, types.mapM c.pools.types.id? = some is ∧ decodeIndices.Reads part is := by
  obtain ⟨indices, hindices, hpart⟩ := bind_eq_ok.mp hpart
  obtain rfl := pure_eq_ok.mp hpart
  have hlength : (indices.flatMap (Bytes.u2 ·.toUInt16)).length = indices.length * 2 := by
    simp [List.length_flatMap]
  rw [List.length_append, hlength] at hl
  have hnat : (UInt32.ofNat indices.length).toNat = indices.length :=
    UInt32.toNat_ofNat_of_lt' (by omega)
  refine ⟨indices.map (·.toUInt16.toNat), ?_, ?_⟩
  · refine Pools.mapM_id?_of_forall₂ (List.forall₂_map_right_iff.mpr ?_)
    exact (mapM_eq_ok.mp hindices).imp fun t i => Pools.id?_toUInt16_of_lookup hp.types
  · refine (Decoder.u4_reads _).bind ?_
    rw [hnat]
    exact Decoder.Reads.repeated_map (fun i : UInt32 => Bytes.u2 i.toUInt16)
      (fun i => i.toUInt16.toNat) indices fun i _ => (Decoder.u2_reads i.toUInt16).map

theorem protoKey_eq {index : UInt32} {q : ProtoId}
    (hq : c.pools.protos.toList[index.toNat]? = some q) :
    ∃ x, c.pools.protoKey q = some x ∧ f.protoKey index = .ok x := by
  obtain ⟨item, hitem, hread⟩ := exists_item h.protos
    (fun x _ hstands => (IdItem.Proto.decode_reads x).valueAt hstands) hq
  obtain ⟨shorty, -, hitem⟩ := bind_eq_ok.mp hitem
  obtain ⟨returnType, hreturn, hitem⟩ := bind_eq_ok.mp hitem
  have hid := Pools.id?_of_lookup (Nat.le_trans hp.types (by decide)) hreturn
  obtain ⟨is, parameters, his, hparameters, rfl⟩ : ∃ is parameters,
      q.parameters.mapM c.pools.types.id? = some is ∧
      f.parametersKey parameters = .ok is ∧ item = ⟨shorty, returnType, parameters⟩ := by
    dsimp only at hitem
    split at hitem
    next hempty =>
      rw [List.isEmpty_iff.mp hempty]
      exact ⟨[], 0, rfl, rfl, (pure_eq_ok.mp hitem).symm⟩
    next =>
      obtain ⟨offset, hoffset, hitem⟩ := bind_eq_ok.mp hitem
      obtain ⟨hne, part, hpart, hstands⟩ := h.data.typeLists.of_offset_id h.small hoffset
      have hinside := hstands.length_le
      have hsmall := h.small
      obtain ⟨is, his, hreads⟩ := decodeIndices_reads hp hpart (by omega)
      refine ⟨is, offset, his, ?_, (pure_eq_ok.mp hitem).symm⟩
      rw [parametersKey, if_neg hne]
      exact hreads.valueAt hstands
  refine ⟨_, Pools.protoKey_eq_some.mpr ⟨_, is, hid, his, rfl⟩, ?_⟩
  rw [protoKey, hread, ok_bind, hparameters]
  rfl

/-- What is stored for a member that refers to a class, a name and a signature. -/
theorem memberKey_eq {members : IdSection} {index : UInt32} {t : TypeId} {s : String}
    {signature : Option Nat} {i j k : UInt32} (ht : c.resolver.type t = .ok i)
    (hs : c.resolver.string s = .ok j) (hk : signature = some k.toUInt16.toNat)
    (hread : f.item members IdItem.Member.decode index = .ok ⟨i.toUInt16, k.toUInt16, j⟩) :
    ∃ x, c.pools.memberKey t s signature = some x ∧ f.memberKey members index = .ok x := by
  have hclass := Pools.id?_toUInt16_of_lookup hp.types ht
  have hname := Pools.id?_of_lookup (strings_le h) hs
  refine ⟨_, Pools.memberKey_eq_some.mpr ⟨_, _, _, hclass, hname, hk, rfl⟩, ?_⟩
  rw [memberKey, hread]
  rfl

theorem fieldKey_eq {index : UInt32} {x : FieldId}
    (hx : c.pools.fields.toList[index.toNat]? = some x) :
    ∃ key, c.pools.fieldKey x = some key ∧ f.memberKey f.fields index = .ok key := by
  obtain ⟨item, hitem, hread⟩ := exists_item h.fields
    (fun x _ hstands => (IdItem.Member.decode_reads x).valueAt hstands) hx
  obtain ⟨declaringClass, hclass, hitem⟩ := bind_eq_ok.mp hitem
  obtain ⟨type, htype, hitem⟩ := bind_eq_ok.mp hitem
  obtain ⟨name, hname, hitem⟩ := bind_eq_ok.mp hitem
  obtain rfl := pure_eq_ok.mp hitem
  exact memberKey_eq h hp hclass hname (Pools.id?_toUInt16_of_lookup hp.types htype) hread

theorem methodKey_eq {index : UInt32} {m : MethodId}
    (hm : c.pools.methods.toList[index.toNat]? = some m) :
    ∃ key, c.pools.methodKey m = some key ∧ f.memberKey f.methods index = .ok key := by
  obtain ⟨item, hitem, hread⟩ := exists_item h.methods
    (fun x _ hstands => (IdItem.Member.decode_reads x).valueAt hstands) hm
  obtain ⟨declaringClass, hclass, hitem⟩ := bind_eq_ok.mp hitem
  obtain ⟨proto, hproto, hitem⟩ := bind_eq_ok.mp hitem
  obtain ⟨name, hname, hitem⟩ := bind_eq_ok.mp hitem
  obtain rfl := pure_eq_ok.mp hitem
  exact memberKey_eq h hp hclass hname (Pools.id?_toUInt16_of_lookup hp.protos hproto) hread

/-- A file with sorted pools has sorted ids. -/
theorem canonical (hc : c.pools.Canonical) : f.Canonical where
  strings := by
    have hsize : f.strings.size = c.pools.strings.toList.length := by
      rw [h.strings.size, h.stringItems, ItemSet.length_toList]
    have hkeys : c.pools.strings.toList.Pairwise fun s t =>
        ∀ x y, Text.utf16Units s = x → Text.utf16Units t = y → x < y :=
      hc.strings.imp fun hlt x y hx hy => hx ▸ hy ▸ hlt
    refine ascends_of_pool hsize hkeys fun i s hs => ⟨_, rfl, ?_⟩
    rw [string_eq h hs]
    rfl
  types := ascends_of_pool h.types.size (hc.types.indices.imp fun hlt x y hx hy => hlt x hx y hy)
    fun i t => typeKey_eq h
  protos := ascends_of_pool h.protos.size
    (hc.protos.indices.imp fun hlt x y hx hy => hlt x hx y hy) fun i t => protoKey_eq h hp
  fields := ascends_of_pool h.fields.size
    (hc.fields.indices.imp fun hlt x y hx hy => hlt x hx y hy) fun i t => fieldKey_eq h hp
  methods := ascends_of_pool h.methods.size
    (hc.methods.indices.imp fun hlt x y hx hy => hlt x hx y hy) fun i t => methodKey_eq h hp

end

end DexFile

namespace Dex

/-- The pools of every model that can be collected ascend by value and by index alike, and so do the
ids of every file that is written for it. -/
theorem canonical_of_collected (o : WriteOptions) (d : Dex) :
    (∀ c, Contents.ofDex o d = .ok c → c.pools.Canonical) ∧
    ∀ start stop bytes, Written o d start stop bytes →
      ∃ c data f, Contents.ofDex o d = .ok c ∧
        DexFile.ofBytes o.options bytes.toByteArray start = .ok f ∧ f.Holds o c data ∧
        f.Canonical := by
  refine ⟨fun c => Contents.canonical_of_ofDex, fun start stop bytes h => ?_⟩
  obtain ⟨_, -, c, data, rest, f, hofDex, hf, hlaid, -⟩ := h.laidIn
  exact ⟨c, data, f, hofDex, hf, hlaid.holds, DexFile.canonical hlaid.holds
    (Contents.short_of_ofDex hofDex) (Contents.canonical_of_ofDex hofDex)⟩

/-- The pools and the file of a class with a field. -/
theorem canonical_of_collected_number : (Contents.number 8 none).pools.Canonical ∧
    ∃ bytes f, Dex.encode {} ⟨[numberClass 8 none]⟩ = .ok bytes ∧
      DexFile.ofBytes {} bytes.toByteArray 0 = .ok f ∧ f.Canonical := by
  obtain ⟨hpools, hfiles⟩ := canonical_of_collected {} ⟨[numberClass 8 none]⟩
  obtain ⟨bytes, hbytes⟩ := exists_encode_number rfl Contents.ofDex_number_none
    (show Contents.storedAccess {} 8 0 = .ok 8 from rfl) (show Bytes.uleb 8 = [8] by cbv)
  obtain ⟨c, data, f, -, hf, -, hcanonical⟩ := hfiles _ _ _ (.alone hbytes)
  exact ⟨hpools _ Contents.ofDex_number_none, bytes, f, hbytes, hf, hcanonical⟩

end Dex

end Dalvik
