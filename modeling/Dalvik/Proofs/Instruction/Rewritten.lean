import Dalvik.Proofs.Instruction.Held
import Dalvik.Proofs.Pools.Ranked

/-!
# What is read is written again

Everything that the reader makes of the units of an instruction fits its place again: numbers that
were extended by their sign, literals of which only the top is stored, lists of registers and indices
of references. So the writer gives the units back. Only the registers that are not counted are lost;
the reader passes over them, and the writer leaves them zero.
-/
namespace Dalvik

/-- Every value that the source gives leads back to its index. -/
structure Source.Inverse (source : Source) (resolver : Resolver) : Prop where
  string : ∀ {v i}, source.string i = .ok v → resolver.string v = .ok i
  type : ∀ {v i}, source.type i = .ok v → resolver.type v = .ok i
  proto : ∀ {v i}, source.proto i = .ok v → resolver.proto v = .ok i
  field : ∀ {v i}, source.field i = .ok v → resolver.field v = .ok i
  method : ∀ {v i}, source.method i = .ok v → resolver.method v = .ok i
  methodHandle : ∀ {v i}, source.methodHandle i = .ok v → resolver.methodHandle v = .ok i
  callSite : ∀ {v i}, source.callSite i = .ok v → resolver.callSite v = .ok i

theorem Pools.getElem?_of_fetch {α : Type} [BEq α] [Hashable α] {set : ItemSet α} {kind : PoolKind}
    {i : UInt32} {v : α} (h : fetch set kind i = .ok v) : set.toList[i.toNat]? = some v := by
  unfold fetch at h
  split at h
  next hget =>
    cases h
    rwa [ItemSet.getElem?_toList]
  · cases h

/-- In pools whose indices are the places of the values both ways lead back. -/
theorem Pools.source_inverse {p : Pools} {e : PoolEntries} (h : p.Ranks e)
    (hsize : e.strings.length ≤ UInt32.size) : p.source.Inverse p.resolver := by
  obtain ⟨types, protos, fields, methods, methodHandles, callSites⟩ := h.exact
  exact {
    string := fun hv => (h.exactStrings hsize _ _).mpr (getElem?_of_fetch hv)
    type := fun hv => (types _ _).mpr (getElem?_of_fetch hv)
    proto := fun hv => (protos _ _).mpr (getElem?_of_fetch hv)
    field := fun hv => (fields _ _).mpr (getElem?_of_fetch hv)
    method := fun hv => (methods _ _).mpr (getElem?_of_fetch hv)
    methodHandle := fun hv => (methodHandles _ _).mpr (getElem?_of_fetch hv)
    callSite := fun hv => (callSites _ _).mpr (getElem?_of_fetch hv) }

namespace OpcodeTable

/-- What is recorded under a number has that number. -/
theorem value?_of_foldl_record {t : Target} {os : List Opcode} {byValue : Std.HashMap UInt16 Opcode}
    (h : ∀ (v : UInt16) (o : Opcode), byValue[v]? = some o → o.value? t = some v) {v : UInt16}
    {o : Opcode}
    (ho : (os.foldl (record t) byValue)[v]? = some o) : o.value? t = some v := by
  induction os generalizing byValue with
  | nil => exact h v o ho
  | cons p os ih =>
    refine ih (fun w q hq => ?_) ho
    unfold record at hq
    split at hq
    next u hu =>
      rw [Std.HashMap.getElem?_insert] at hq
      split at hq
      next heq =>
        cases hq
        rw [hu, eq_of_beq heq]
      · exact h w q hq
    · exact h w q hq

theorem value_of_opcode {t : Target} {v : UInt16} {o : Opcode}
    (h : (ofTarget t).opcode v = .ok o) : (ofTarget t).value o = .ok v := by
  rw [value_eq_ok]
  simp only [opcode, ofTarget] at h ⊢
  split at h
  next p hp =>
    cases h
    refine value?_of_foldl_record (fun w q hq => ?_) hp
    rw [Std.HashMap.getElem?_empty] at hq
    cases hq
  · cases h

end OpcodeTable

namespace Instruction
open Decoder

variable {r : Resolver} {s : Source} {o : Opcode} {op : UInt16} {argument : Nat}

/-! ## Numbers -/

theorem unitBytes_toNat (v : UInt16) : unitBytes v.toNat = Bytes.u2 v := by
  rw [unitBytes, Nat.toUInt16_eq, UInt16.ofNat_toNat]

theorem fitUnsigned_of_lt {width n : Nat} (h : n < 2 ^ width) : fitUnsigned width n = .ok n :=
  fitUnsigned_eq_ok.mpr ⟨h, rfl⟩

theorem toNat_toUInt8 {n : Nat} (h : n < 256) : n.toUInt8.toNat = n := by
  rw [Nat.toUInt8_eq, UInt8.toNat_ofNat', Nat.mod_eq_of_lt h]

theorem fitPair_digits {n : Nat} (h : n < 256) :
    fitPair (n % 16).toUInt8 (n / 16).toUInt8 = .ok n := by
  rw [fitPair, toNat_toUInt8 (by omega), toNat_toUInt8 (by omega), fitUnsigned_of_lt (by omega),
    fitUnsigned_of_lt (by omega)]
  exact congrArg Except.ok (by omega)

/-- A number that was extended by its sign fits the width it came from. -/
theorem fitSigned_extendSign {width n : Nat} (hw : width = 4 ∨ width = 8 ∨ width = 16)
    (h : n < 2 ^ width) : fitSigned width (extendSign width n) = .ok n := by
  generalize hx : extendSign width n = x
  have hbits : x.toInt = if 2 * x.toUInt32.toNat < 2 ^ 32 then (x.toUInt32.toNat : Int)
      else x.toUInt32.toNat - (2 ^ 32 : Nat) := BitVec.toInt_eq_toNat_cond x.toBitVec
  have hint : x.toInt = if n < 1 <<< (width - 1) then (n : Int) else n - (1 <<< width : Nat) := by
    rw [← hx, extendSign]
    refine Int32.toInt_ofInt_of_le ?_ ?_ <;>
      obtain rfl | rfl | rfl := hw <;> simp at h ⊢ <;> split_ifs <;> omega
  have hlt := x.toUInt32.toNat_lt
  rw [fitSigned, Result.ite_violation_eq_ok, fitsSigned, decide_eq_true_eq]
  generalize x.toUInt32.toNat = k at hbits hlt
  have hk : k % (1 <<< width) = n := by
    obtain rfl | rfl | rfl := hw <;> simp at hint h ⊢ <;> split_ifs at hint hbits <;> omega
  refine ⟨?_, by rw [hk]⟩
  rw [hint]
  obtain rfl | rfl | rfl := hw <;> simp at h ⊢ <;> split_ifs <;> omega

theorem fitTop32_shifted {n : Nat} (h : n < 65536) :
    fitTop32 (UInt32.ofNat (n * 0x10000)).toInt32 = .ok n := by
  have hbits : (UInt32.ofNat (n * 0x10000)).toInt32.toUInt32.toNat = n * 0x10000 :=
    UInt32.toNat_ofNat_of_lt' (by rw [UInt32.size]; omega)
  rw [fitTop32, hbits, if_pos (by omega), Nat.mul_div_cancel _ (by decide)]

theorem fitTop64_shifted {n : Nat} (h : n < 65536) :
    fitTop64 (UInt64.ofNat (n * 0x1000000000000)).toInt64 = .ok n := by
  have hbits : (UInt64.ofNat (n * 0x1000000000000)).toInt64.toUInt64.toNat = n * 0x1000000000000 :=
    UInt64.toNat_ofNat_of_lt' (by rw [UInt64.size]; omega)
  rw [fitTop64, hbits, if_pos (by omega), Nat.mul_div_cancel _ (by decide)]

theorem pairBytes_units (low high : UInt16) :
    pairBytes (UInt32.ofNat (low.toNat + 0x10000 * high.toNat)) = Bytes.u2 low ++ Bytes.u2 high := by
  have hl := low.toNat_lt
  have hh := high.toNat_lt
  have hlow : (low.toNat + 0x10000 * high.toNat) % 0x10000 = low.toNat := by omega
  have hhigh : (low.toNat + 0x10000 * high.toNat) / 0x10000 = high.toNat := by omega
  rw [pairBytes, UInt32.toNat_ofNat_of_lt' (by rw [UInt32.size]; omega), hlow, hhigh,
    unitBytes_toNat, unitBytes_toNat]

theorem toUInt32_toWord64 (low high : UInt32) : (Bytes.toWord64 low high).toUInt32 = low := by
  apply UInt32.toNat_inj.mp
  have := low.toNat_lt
  simp [Bytes.toNat_toWord64]

theorem toUInt32_shiftRight_toWord64 (low high : UInt32) :
    (Bytes.toWord64 low high >>> 32).toUInt32 = high := by
  apply UInt32.toNat_inj.mp
  have hl := low.toNat_lt
  have hh := high.toNat_lt
  simp [Bytes.toNat_toWord64, Nat.shiftRight_eq_div_pow]
  omega

/-! ## References -/

section
variable (hsr : s.Inverse r)
include hsr

theorem referenceIndex_of_resolve {kind : ReferenceKind} {index : UInt32} {x : Reference}
    (h : resolve s kind index = .ok x) : referenceIndex r kind x = .ok index := by
  cases kind with
  | none => cases h
  | raw =>
    cases h
    rfl
  | string =>
    obtain ⟨v, hv, h⟩ := Result.bind_eq_ok.mp h
    obtain rfl := Result.pure_eq_ok.mp h
    exact hsr.string hv
  | type =>
    obtain ⟨v, hv, h⟩ := Result.bind_eq_ok.mp h
    obtain rfl := Result.pure_eq_ok.mp h
    exact hsr.type hv
  | field =>
    obtain ⟨v, hv, h⟩ := Result.bind_eq_ok.mp h
    obtain rfl := Result.pure_eq_ok.mp h
    exact hsr.field hv
  | method =>
    obtain ⟨v, hv, h⟩ := Result.bind_eq_ok.mp h
    obtain rfl := Result.pure_eq_ok.mp h
    exact hsr.method hv
  | proto =>
    obtain ⟨v, hv, h⟩ := Result.bind_eq_ok.mp h
    obtain rfl := Result.pure_eq_ok.mp h
    exact hsr.proto hv
  | callSite =>
    obtain ⟨v, hv, h⟩ := Result.bind_eq_ok.mp h
    obtain rfl := Result.pure_eq_ok.mp h
    exact hsr.callSite hv
  | methodHandle =>
    obtain ⟨v, hv, h⟩ := Result.bind_eq_ok.mp h
    obtain rfl := Result.pure_eq_ok.mp h
    exact hsr.methodHandle hv

theorem shortIndex_of_resolve {kind : ReferenceKind} {v : UInt16} {x : Reference}
    (h : resolve s kind (.ofNat v.toNat) = .ok x) : shortIndex r kind x = .ok (Bytes.u2 v) := by
  have hv := v.toNat_lt
  have hnat : (UInt32.ofNat v.toNat).toNat = v.toNat :=
    UInt32.toNat_ofNat_of_lt' (by rw [UInt32.size]; omega)
  rw [shortIndex, referenceIndex_of_resolve hsr h, Result.ok_bind, hnat, fitUnsigned_of_lt hv,
    Result.ok_bind, unitBytes_toNat]
  rfl

end

/-! ## Lists of registers -/

/-- The first unit; if there are fewer than five registers, then the place of the fifth is clear. -/
def clearFifth (count : Nat) (first : UInt16) : UInt16 :=
  if count < 5 then .ofNat (first.toNat / 4096 * 4096 + first.toNat % 256) else first

/-- The unit of the first four registers; the places behind the first `count` are clear. -/
def clearRest (count : Nat) (fedc : UInt16) : UInt16 := .ofNat (fedc.toNat % 16 ^ count)

/-- The units of an instruction with the places of registers clear that are not counted. -/
def cleared : Operands → List UInt16 → List UInt16
  | .f35c registers _, first :: index :: fedc :: rest
  | .f45cc registers _ _, first :: index :: fedc :: rest =>
    clearFifth registers.length first :: index :: clearRest registers.length fedc :: rest
  | _, units => units

theorem mapM_fitUnsigned_of_lt {ns : List Nat} (h : ∀ n ∈ ns, n < 16) :
    (ns.map Nat.toUInt8).mapM (fun register => fitUnsigned 4 register.toNat) = .ok ns := by
  induction ns with
  | nil => rfl
  | cons n ns ih =>
    obtain ⟨hn, hns⟩ := List.forall_mem_cons.mp h
    rw [List.map_cons, List.mapM_cons, toNat_toUInt8 (by omega), fitUnsigned_of_lt hn, Result.ok_bind,
      ih hns]
    rfl

theorem unpackRegisters_eq_ok {count g fedc : Nat} {registers : List UInt8}
    (h : unpackRegisters o count g fedc = .ok registers) : count ≤ 5 ∧
      registers = ([fedc % 16, fedc / 16 % 16, fedc / 256 % 16, fedc / 4096, g].take count).map
        Nat.toUInt8 := by
  unfold unpackRegisters at h
  dsimp only at h
  split at h
  · cases h
  next hle =>
    obtain ⟨_, -, h⟩ := Result.bind_eq_ok.mp h
    exact ⟨by omega, (Result.pure_eq_ok.mp h).symm⟩

theorem digits_take {count n g : Nat} {ns : List Nat} (hcount : count ≤ 5) (hn : n < 65536)
    (hns : ns = [n % 16, n / 16 % 16, n / 256 % 16, n / 4096, g].take count) :
    ns.getD 3 0 * 4096 + ns.getD 2 0 * 256 + ns.getD 1 0 * 16 + ns.getD 0 0 = n % 16 ^ count ∧
      ns.getD 4 0 = if count < 5 then 0 else g := by
  subst hns
  interval_cases count <;> simp <;> omega

/-- The registers go back to their places, and all others are zero. -/
theorem packRegisters_of_unpack {first fedc : UInt16} {registers : List UInt8}
    (hfirst : first.toNat = argument * 256 + op.toNat) (hop : op.toNat < 256)
    (h : unpackRegisters o (argument / 16) (argument % 16) fedc.toNat = .ok registers) :
    ∃ packed, packRegisters o registers = .ok (packed, Bytes.u2 (clearRest registers.length fedc)) ∧
      firstUnit op packed = .ok (Bytes.u2 (clearFifth registers.length first)) := by
  have hlt := first.toNat_lt
  have hfedc := fedc.toNat_lt
  obtain ⟨hcount, hregisters⟩ := unpackRegisters_eq_ok h
  generalize hns : [fedc.toNat % 16, fedc.toNat / 16 % 16, fedc.toNat / 256 % 16, fedc.toNat / 4096,
    argument % 16].take (argument / 16) = ns at hregisters
  have hlength : registers.length = argument / 16 := by
    rw [hregisters, ← hns]
    simpa using hcount
  have hdigits : ∀ n ∈ ns, n < 16 := by
    intro n hn
    rw [← hns] at hn
    have hmem := List.mem_of_mem_take hn
    simp at hmem
    omega
  obtain ⟨hrest, hfifth⟩ := digits_take hcount hfedc hns.symm
  refine ⟨argument / 16 * 16 + ns.getD 4 0, ?_, ?_⟩
  · have hmapM := mapM_fitUnsigned_of_lt hdigits
    rw [← hregisters] at hmapM
    simp only [packRegisters, hlength, if_neg (Nat.not_lt.mpr hcount), hmapM, Result.ok_bind]
    rw [hrest]
    rfl
  · clear hrest
    generalize ns.getD 4 0 = fifth at hfifth
    have hsmall : argument / 16 * 16 + fifth < 256 := by
      split at hfifth <;> omega
    rw [firstUnit, if_neg (by omega), fitUnsigned_of_lt hsmall, hlength, clearFifth]
    refine congrArg Except.ok ?_
    split at hfifth
    next hless =>
      have hunit : first.toNat / 4096 * 4096 + first.toNat % 256 =
          (argument / 16 * 16 + fifth) * 256 + op.toNat := by omega
      rw [if_pos hless, hunit]
      rfl
    next hfive =>
      rw [if_neg hfive, ← unitBytes_toNat, hfirst, hfifth, Nat.div_add_mod']

/-! ## Instructions -/

/-- One case for each format: the operands fit the units that held them. -/
theorem Held.encode {table : OpcodeTable} (hsr : s.Inverse r) (hop : table.value o = .ok op)
    (hlt : op.toNat < 256) {first : UInt16} {units : List UInt16} {operands : Operands}
    (hfirst : first.toNat = argument * 256 + op.toNat) (hp : operands.format.isPayload = false)
    (h : Held s o argument units operands) (position : Nat) :
    Instruction.encode table r position ⟨o, operands⟩ =
      .ok ((cleared operands (first :: units)).flatMap Bytes.u2) := by
  have hfits := first.toNat_lt
  have hargument : argument < 256 := by omega
  have hhead : firstUnit op argument = .ok (Bytes.u2 first) := by
    rw [firstUnit, if_neg (by omega), fitUnsigned_of_lt hargument, ← unitBytes_toNat, hfirst]
    rfl
  have haa : argument.toUInt8.toNat = argument := toNat_toUInt8 hargument
  have hpair := fitPair_digits hargument
  have hsigned (v : UInt16) : fitSigned 16 (extendSign 16 v.toNat) = .ok v.toNat :=
    fitSigned_extendSign (.inr (.inr rfl)) v.toNat_lt
  have hdigits (v : UInt16) : (v.toNat / 256).toUInt8.toNat * 256 + (v.toNat % 256).toUInt8.toNat =
      v.toNat := by
    have := v.toNat_lt
    rw [toNat_toUInt8 (by omega), toNat_toUInt8 (by omega), Nat.div_add_mod']
  cases h with
  | f10x h =>
    subst h
    simp only [Instruction.encode, hop, Result.ok_bind, hhead]
    rfl
  | f12x =>
    simp only [Instruction.encode, hop, Result.ok_bind, hpair, hhead]
    rfl
  | f11n =>
    have ha : fitUnsigned 4 (argument % 16).toUInt8.toNat = .ok (argument % 16) := by
      rw [toNat_toUInt8 (by omega), fitUnsigned_of_lt (by omega)]
    have hb := fitSigned_extendSign (.inl rfl) (show argument / 16 < 2 ^ 4 by omega)
    simp only [Instruction.encode, hop, Result.ok_bind, ha, hb, Nat.div_add_mod', hhead]
    rfl
  | f11x =>
    simp only [Instruction.encode, hop, Result.ok_bind, haa, hhead]
    rfl
  | f10t =>
    have hoffset := fitSigned_extendSign (.inr (.inl rfl)) (show argument < 2 ^ 8 from hargument)
    simp only [Instruction.encode, hop, Result.ok_bind, hoffset, hhead]
    rfl
  | f20t h v =>
    subst h
    simp only [Instruction.encode, hop, Result.ok_bind, hsigned, hhead, unitBytes_toNat]
    rfl
  | f22x v =>
    simp only [Instruction.encode, hop, Result.ok_bind, haa, hhead]
    rfl
  | f21t v | f21s v =>
    simp only [Instruction.encode, hop, Result.ok_bind, haa, hsigned, hhead, unitBytes_toNat]
    rfl
  | f21ih v =>
    simp only [Instruction.encode, hop, Result.ok_bind, haa, fitTop32_shifted v.toNat_lt, hhead,
      unitBytes_toNat]
    rfl
  | f21lh v =>
    simp only [Instruction.encode, hop, Result.ok_bind, haa, fitTop64_shifted v.toNat_lt, hhead,
      unitBytes_toNat]
    rfl
  | f21c v h =>
    simp only [Instruction.encode, hop, Result.ok_bind, haa, shortIndex_of_resolve hsr h, hhead]
    rfl
  | f22c v h =>
    simp only [Instruction.encode, hop, Result.ok_bind, hpair, shortIndex_of_resolve hsr h, hhead]
    rfl
  | f23x v =>
    simp only [Instruction.encode, hop, Result.ok_bind, haa, hdigits, hhead, unitBytes_toNat]
    rfl
  | f22b v =>
    have hv := v.toNat_lt
    have hliteral := fitSigned_extendSign (.inr (.inl rfl)) (show v.toNat / 256 < 2 ^ 8 by omega)
    have hb : (v.toNat % 256).toUInt8.toNat = v.toNat % 256 := toNat_toUInt8 (by omega)
    simp only [Instruction.encode, hop, Result.ok_bind, haa, hliteral, hb, Nat.div_add_mod', hhead,
      unitBytes_toNat]
    rfl
  | f22t v | f22s v =>
    simp only [Instruction.encode, hop, Result.ok_bind, hpair, hsigned, hhead, unitBytes_toNat]
    rfl
  | f30t h low high =>
    subst h
    simp only [Instruction.encode, hop, Result.ok_bind, hhead, UInt32.toUInt32_toInt32,
      pairBytes_units]
    rfl
  | f32x h a b =>
    subst h
    simp only [Instruction.encode, hop, Result.ok_bind, hhead]
    rfl
  | f31i low high | f31t low high =>
    simp only [Instruction.encode, hop, Result.ok_bind, haa, hhead, UInt32.toUInt32_toInt32,
      pairBytes_units]
    rfl
  | f31c low high h =>
    simp only [Instruction.encode, hop, Result.ok_bind, haa, referenceIndex_of_resolve hsr h, hhead,
      pairBytes_units]
    rfl
  | f35c v fedc hregs h =>
    obtain ⟨packed, hpack, hhead⟩ := packRegisters_of_unpack hfirst hlt hregs
    simp only [Instruction.encode, hop, Result.ok_bind, shortIndex_of_resolve hsr h, hpack, hhead]
    rfl
  | f3rc v start h =>
    simp only [Instruction.encode, hop, Result.ok_bind, haa, shortIndex_of_resolve hsr h, hhead]
    rfl
  | f45cc v fedc w hregs h h2 =>
    obtain ⟨packed, hpack, hhead⟩ := packRegisters_of_unpack hfirst hlt hregs
    simp only [Instruction.encode, hop, Result.ok_bind, shortIndex_of_resolve hsr h,
      shortIndex_of_resolve hsr h2, hpack, hhead]
    rfl
  | f4rcc v start w h h2 =>
    simp only [Instruction.encode, hop, Result.ok_bind, haa, shortIndex_of_resolve hsr h,
      shortIndex_of_resolve hsr h2, hhead]
    rfl
  | f51l a b c d =>
    simp only [Instruction.encode, hop, Result.ok_bind, haa, hhead, UInt64.toUInt64_toInt64,
      toUInt32_toWord64, toUInt32_shiftRight_toWord64, pairBytes_units]
    rfl
  | packedSwitchPayload h => cases hp
  | sparseSwitchPayload h => cases hp

/-- A first unit is put together again from what it was taken apart into. -/
theorem first_eq {first : Nat} (hfirst : first < 65536) :
    first = argumentIn first * 256 + (numberIn first).toNat := by
  have hnumber : (numberIn first).toNat = if first % 256 = 0 then first else first % 256 := by
    rw [numberIn, Nat.toUInt16_eq, UInt16.toNat_ofNat', Nat.mod_eq_of_lt]
    split <;> omega
  rw [hnumber, argumentIn]
  split <;> omega

/-- An instruction that is no table is written as the units that it was read from, with the places
clear of registers that are not counted; `r` leads from the values of `s` back to their indices. -/
theorem encode_of_decode {t : Target} (hsr : s.Inverse r) {bytes : ByteArray} {index after : Nat}
    {i : Instruction} (h : (decode (.ofTarget t) s).decodeAt bytes index = .ok (i, after))
    (hp : i.isPayload = false) :
    ∃ units : List UInt16, Bytes.Stands (units.flatMap Bytes.u2) bytes index ∧
      after = index + 2 * units.length ∧
      ∀ position, i.encode (.ofTarget t) r position =
        .ok ((cleared i.operands units).flatMap Bytes.u2) := by
  have h := decodeAt_eq_ok.mp h
  have hformat := format_of_decode h
  obtain ⟨first, hs, hopcode, h⟩ := decode_eq_ok h
  have hop := OpcodeTable.value_of_opcode hopcode
  have hpayload : i.opcode.format.isPayload = false := by
    rw [← hformat]
    exact hp
  have hlt := Opcode.lt_of_value hop hpayload
  have hne : i.opcode.format ≠ .arrayPayload := fun hf => by
    rw [hf] at hpayload
    cases hpayload
  obtain ⟨units, hunits, rfl, -, hheld⟩ := takes_decodeOperands hne h
  refine ⟨first :: units, ?_, ?_, fun position => ?_⟩
  · rw [List.flatMap_cons]
    exact hs.append hunits
  · rw [List.length_cons]
    omega
  · exact hheld.encode hsr hop hlt (first_eq first.toNat_lt) hp position

def calledMethod : MethodId := ⟨⟨"LA;"⟩, "a", ⟨⟨"V"⟩, []⟩⟩

/-- A call with two registers, behind which three more have been left in their places. -/
theorem encode_of_decode_call : ∃ p, Pools.build { methods := [calledMethod] } = .ok p ∧
    p.source.Inverse p.resolver ∧
    (decode (.ofTarget (WriteOptions.target {})) p.source).decodeAt
        ([0x6e, 0x2f, 0, 0, 0x21, 0x43] : Bytes).toByteArray 0 =
      .ok (⟨⟨104, by decide⟩, .f35c [1, 2] (.method calledMethod)⟩, 6) ∧
    ∀ position, Instruction.encode (.ofTarget (WriteOptions.target {})) p.resolver position
        ⟨⟨104, by decide⟩, .f35c [1, 2] (.method calledMethod)⟩ =
      .ok [0x6e, 0x20, 0, 0, 0x21, 0] := by
  have hd : PoolEntries.Distinct { methods := [calledMethod] } := by constructor <;> decide
  have hsize : ¬ PoolEntries.Oversized { methods := [calledMethod] } := by
    simp [PoolEntries.Oversized, Pools.maxSize]
  rcases Pools.build_cases { methods := [calledMethod] } with ⟨h, -⟩ | ⟨-, p, hp⟩
  · exact absurd h hsize
  have hranks := Pools.ranks_of_build hd hsize hp
  have hsr := Pools.source_inverse hranks (Nat.zero_le _)
  have hmethod : p.source.method 0 = .ok calledMethod := by
    have hlist := List.perm_singleton.mp hranks.methods.perm
    have hget : p.methods.get? 0 = some calledMethod := by
      rw [← ItemSet.getElem?_toList, hlist]
      rfl
    change Pools.fetch p.methods .method 0 = _
    rw [Pools.fetch, UInt32.toNat_zero, hget]
  have ht := WriteOptions.faithful (o := {}) rfl
  have hop : (OpcodeTable.ofTarget (WriteOptions.target {})).value ⟨104, by decide⟩ = .ok 0x6e := by
    decide +kernel
  have hf : (⟨104, by decide⟩ : Opcode).format = .f35c := by decide +kernel
  have hr : (⟨104, by decide⟩ : Opcode).reference = .method := by decide +kernel
  have hrest : (decodeOperands p.source ⟨104, by decide⟩ 0x2f).Reads
      (unitBytes 0 ++ unitBytes 0x4321) (.f35c [1, 2] (.method calledMethod)) := by
    simp only [decodeOperands, hf, hr]
    refine (unit_reads (by decide)).map.bind ((unit_reads (by decide)).bind_last ?_)
    exact .lift rfl (.lift (show resolve p.source .method 0 = _ by rw [resolve, hmethod]; rfl) (.pure _))
  have hfirst : firstUnit 0x6e 0x2f = .ok [0x6e, 0x2f] := rfl
  have hread := decode_reads ht hop (by rw [hf]; rfl) hfirst (by rw [hf]; decide) hrest
  have h := hread.decodeAt (Bytes.stands_toByteArray [] [0x6e, 0x2f, 0, 0, 0x21, 0x43] [])
  refine ⟨p, hp, hsr, h, ?_⟩
  obtain ⟨units, hunits, hafter, hencode⟩ := encode_of_decode hsr h rfl
  have hlength : (units.flatMap Bytes.u2).length = 6 := by
    rw [Bytes.length_flatMap_u2]
    simpa using hafter.symm
  obtain rfl : units = [0x2f6e, 0, 0x4321] :=
    Bytes.flatMap_u2_injective (hunits.eq_of_length hlength)
  exact hencode

end Instruction

end Dalvik
