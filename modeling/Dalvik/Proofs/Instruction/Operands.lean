import Dalvik.Instruction.Decode
import Dalvik.Instruction.Encode
import Dalvik.Proofs.Packed
import Dalvik.Proofs.Pools
import Dalvik.Proofs.Result

/-!
# Operands in their places

An operand that fits its place is what the reader takes out of the place again: numbers of a few
bits, literals of which only the top is stored, indices of references and lists of registers. The
name of a call site is not stored, so references come back with their call sites renamed.
-/
namespace Dalvik

/-! ## Call sites that change -/

/-- The reference with its call site changed, if it is one. -/
def Reference.renamed (site : CallSite → CallSite) : Reference → Reference
  | .callSite c => .callSite (site c)
  | reference => reference

namespace Operands

/-- The operands with the call sites among them changed. -/
def renamed (site : CallSite → CallSite) : Operands → Operands
  | f21c a r => f21c a (r.renamed site)
  | f22c a b r => f22c a b (r.renamed site)
  | f31c a r => f31c a (r.renamed site)
  | f35c registers r => f35c registers (r.renamed site)
  | f3rc start count r => f3rc start count (r.renamed site)
  | f45cc registers r s => f45cc registers (r.renamed site) (s.renamed site)
  | f4rcc start count r s => f4rcc start count (r.renamed site) (s.renamed site)
  | operands => operands

end Operands

theorem Operands.references_renamed (site : CallSite → CallSite) (operands : Operands) :
    (operands.renamed site).references = operands.references.map (Reference.renamed site) := by
  cases operands <;> rfl

@[simp] theorem Reference.renamed_id (reference : Reference) : reference.renamed id = reference := by
  cases reference <;> rfl

@[simp] theorem Operands.renamed_id (operands : Operands) : operands.renamed id = operands := by
  cases operands <;> simp [renamed]

namespace Instruction

/-- The instruction with the call sites among its operands changed. -/
def renamed (site : CallSite → CallSite) (i : Instruction) : Instruction :=
  { i with operands := i.operands.renamed site }

@[simp] theorem renamed_id (i : Instruction) : i.renamed id = i := by simp [renamed]

open Decoder

/-! ## Numbers of a few bits -/

theorem toUInt8_toNat (a : UInt8) : a.toNat.toUInt8 = a := by
  rw [Nat.toUInt8_eq, UInt8.ofNat_toNat]

theorem fitUnsigned_eq_ok {width n m : Nat} :
    fitUnsigned width n = .ok m ↔ n < 2 ^ width ∧ n = m := by
  rw [fitUnsigned, Result.ite_violation_eq_ok, Nat.shiftLeft_eq, Nat.one_mul, Except.ok.injEq]

/-- A pair of registers is its two hexadecimal digits. -/
theorem fitPair_eq_ok {a b : UInt8} {pair : Nat} (h : fitPair a b = .ok pair) :
    pair < 256 ∧ (pair % 16).toUInt8 = a ∧ (pair / 16).toUInt8 = b := by
  obtain ⟨_, ha, h⟩ := Result.bind_eq_ok.mp h
  obtain ⟨_, hb, h⟩ := Result.bind_eq_ok.mp h
  obtain ⟨ha, rfl⟩ := fitUnsigned_eq_ok.mp ha
  obtain ⟨hb, rfl⟩ := fitUnsigned_eq_ok.mp hb
  obtain rfl := Result.pure_eq_ok.mp h
  have hmod : (b.toNat * 16 + a.toNat) % 16 = a.toNat := by omega
  have hdiv : (b.toNat * 16 + a.toNat) / 16 = b.toNat := by omega
  refine ⟨by omega, ?_, ?_⟩
  · rw [hmod, toUInt8_toNat]
  · rw [hdiv, toUInt8_toNat]

/-- The low bits of a signed number that fits them are extended to the number again. -/
theorem fitSigned_eq_ok {width : Nat} {n : Int32} {m : Nat}
    (hw : width = 4 ∨ width = 8 ∨ width = 16) (h : fitSigned width n = .ok m) :
    m < 2 ^ width ∧ extendSign width m = n := by
  rw [fitSigned, Result.ite_violation_eq_ok, fitsSigned, decide_eq_true_eq] at h
  obtain ⟨hfits, h⟩ := h
  cases h
  have hn : n.toInt = if 2 * n.toUInt32.toNat < 2 ^ 32 then (n.toUInt32.toNat : Int)
      else n.toUInt32.toNat - (2 ^ 32 : Nat) := BitVec.toInt_eq_toNat_cond n.toBitVec
  have hlt := n.toUInt32.toNat_lt
  generalize n.toUInt32.toNat = k at hn hlt
  have hext : (if k % (1 <<< width) < 1 <<< (width - 1) then ((k % (1 <<< width) : Nat) : Int)
      else (k % (1 <<< width) : Nat) - (1 <<< width : Nat)) = n.toInt := by
    obtain rfl | rfl | rfl := hw <;> simp at hfits ⊢ <;> split_ifs at hn ⊢ <;> omega
  refine ⟨?_, ?_⟩
  · rw [Nat.shiftLeft_eq, Nat.one_mul]
    exact Nat.mod_lt _ (Nat.two_pow_pos width)
  · rw [extendSign, hext, Int32.ofInt_toInt]

theorem fitTop32_eq_ok {n : Int32} {m : Nat} (h : fitTop32 n = .ok m) :
    m < 65536 ∧ (UInt32.ofNat (m * 0x10000)).toInt32 = n := by
  rw [fitTop32, Result.ite_violation_eq_ok] at h
  obtain ⟨hm, h⟩ := h
  cases h
  have := n.toUInt32.toNat_lt
  refine ⟨by omega, ?_⟩
  rw [Nat.div_mul_cancel (Nat.dvd_of_mod_eq_zero hm), UInt32.ofNat_toNat]
  rfl

theorem fitTop64_eq_ok {n : Int64} {m : Nat} (h : fitTop64 n = .ok m) :
    m < 65536 ∧ (UInt64.ofNat (m * 0x1000000000000)).toInt64 = n := by
  rw [fitTop64, Result.ite_violation_eq_ok] at h
  obtain ⟨hm, h⟩ := h
  cases h
  have := n.toUInt64.toNat_lt
  refine ⟨by omega, ?_⟩
  rw [Nat.div_mul_cancel (Nat.dvd_of_mod_eq_zero hm), UInt64.ofNat_toNat]
  rfl

/-! ## Code units -/

@[simp] theorem length_unitBytes (n : Nat) : (unitBytes n).length = 2 := rfl

@[simp] theorem length_pairBytes (n : UInt32) : (pairBytes n).length = 4 := rfl

theorem unit_reads {n : Nat} (hn : n < 65536) : unit.Reads (unitBytes n) n := by
  have h : unit.Reads (unitBytes n) n.toUInt16.toNat := (u2_reads n.toUInt16).map
  rwa [Nat.toUInt16_eq, UInt16.toNat_ofNat', Nat.mod_eq_of_lt hn] at h

theorem signedUnit_reads {m : Nat} {n : Int32} (h : fitSigned 16 n = .ok m) :
    signedUnit.Reads (unitBytes m) n := by
  obtain ⟨hm, rfl⟩ := fitSigned_eq_ok (by simp) h
  exact (unit_reads hm).map

theorem unitPair_reads (n : UInt32) : unitPair.Reads (pairBytes n) n := by
  have := n.toNat_lt
  have hlow : unit.Reads (unitBytes (n.toNat % 0x10000)) _ := unit_reads (by omega)
  have hhigh : unit.Reads (unitBytes (n.toNat / 0x10000)) _ := unit_reads (by omega)
  have h : unitPair.Reads (pairBytes n)
      (UInt32.ofNat (n.toNat % 0x10000 + 0x10000 * (n.toNat / 0x10000))) := hlow.bind hhigh.map
  rwa [Nat.mod_add_div, UInt32.ofNat_toNat] at h

theorem word_reads (n : Int32) : word.Reads (Bytes.u4 n.toUInt32) n := (u4_reads n.toUInt32).map

/-! ## References -/

variable {r : Resolver} {s : Source} {site : CallSite → CallSite}

theorem referenceIndex_eq_ok (hrs : r.InverseUpTo s site) {kind : ReferenceKind} {reference : Reference}
    {index : UInt32} (h : referenceIndex r kind reference = .ok index) :
    resolve s kind index = .ok (reference.renamed site) := by
  cases kind <;> cases reference <;> simp only [referenceIndex, Result.violation_ne_ok] at h
  case string => rw [resolve, hrs.string h, Result.ok_bind]; rfl
  case type => rw [resolve, hrs.type h, Result.ok_bind]; rfl
  case field => rw [resolve, hrs.field h, Result.ok_bind]; rfl
  case method => rw [resolve, hrs.method h, Result.ok_bind]; rfl
  case proto => rw [resolve, hrs.proto h, Result.ok_bind]; rfl
  case callSite => rw [resolve, hrs.callSite h, Result.ok_bind]; rfl
  case methodHandle => rw [resolve, hrs.methodHandle h, Result.ok_bind]; rfl
  case raw =>
    cases h
    rfl

/-- The unit of an index leads back to the reference. -/
theorem shortIndex_eq_ok (hrs : r.InverseUpTo s site) {kind : ReferenceKind} {reference : Reference}
    {out : Bytes} (h : shortIndex r kind reference = .ok out) :
    ∃ n, n < 65536 ∧ out = unitBytes n ∧
      resolve s kind (UInt32.ofNat n) = .ok (reference.renamed site) := by
  obtain ⟨index, hi, h⟩ := Result.bind_eq_ok.mp h
  obtain ⟨_, hn, h⟩ := Result.bind_eq_ok.mp h
  obtain ⟨hlt, rfl⟩ := fitUnsigned_eq_ok.mp hn
  obtain rfl := Result.pure_eq_ok.mp h
  refine ⟨_, hlt, rfl, ?_⟩
  rw [UInt32.ofNat_toNat]
  exact referenceIndex_eq_ok hrs hi

/-! ## Lists of registers -/

theorem take_getD (ns : List Nat) (h : ns.length ≤ 5) :
    [ns.getD 0 0, ns.getD 1 0, ns.getD 2 0, ns.getD 3 0, ns.getD 4 0].take ns.length = ns :=
  match ns, h with
  | [], _ | [_], _ | [_, _], _ | [_, _, _], _ | [_, _, _, _], _ | [_, _, _, _, _], _ => rfl

theorem getD_lt {ns : List Nat} {k : Nat} (hk : 0 < k) (h : ∀ n ∈ ns, n < k) (i : Nat) :
    ns.getD i 0 < k := by
  rw [List.getD_eq_getElem?_getD]
  cases hi : ns[i]? with
  | none => exact hk
  | some n => exact h n (List.mem_of_getElem? hi)

theorem mapM_fitUnsigned_eq_ok {width : Nat} {registers : List UInt8} {ns : List Nat}
    (h : registers.mapM (fun register => fitUnsigned width register.toNat) = .ok ns) :
    ns = registers.map UInt8.toNat ∧ ∀ n ∈ ns, n < 2 ^ width := by
  rw [Result.mapM_eq_ok] at h
  induction h with
  | nil => simp
  | cons hn _ ih =>
    obtain ⟨hlt, rfl⟩ := fitUnsigned_eq_ok.mp hn
    exact ⟨by rw [ih.1, List.map_cons], List.forall_mem_cons.mpr ⟨hlt, ih.2⟩⟩

theorem unpackRegisters_of_lt (o : Opcode) {count c d e f g : Nat} (hcount : count ≤ 5)
    (hc : c < 16) (hd : d < 16) (he : e < 16) (hg : g < 16) :
    unpackRegisters o ((count * 16 + g) / 16) ((count * 16 + g) % 16)
      (f * 4096 + e * 256 + d * 16 + c) = .ok (([c, d, e, f, g].take count).map Nat.toUInt8) := by
  have hcount' : (count * 16 + g) / 16 = count := by omega
  have hg' : (count * 16 + g) % 16 = g := by omega
  have hc' : (f * 4096 + e * 256 + d * 16 + c) % 16 = c := by omega
  have hd' : (f * 4096 + e * 256 + d * 16 + c) / 16 % 16 = d := by omega
  have he' : (f * 4096 + e * 256 + d * 16 + c) / 256 % 16 = e := by omega
  have hf' : (f * 4096 + e * 256 + d * 16 + c) / 4096 = f := by omega
  rw [unpackRegisters, hcount', hg', hc', hd', he', hf', if_neg (by omega)]
  exact congrArg (· >>= _) (Access.range_eq_ok (Nat.zero_le _) hcount)

theorem packRegisters_eq_ok {o : Opcode} {registers : List UInt8} {argument : Nat} {out : Bytes}
    (h : packRegisters o registers = .ok (argument, out)) :
    argument < 256 ∧ ∃ fedc, fedc < 65536 ∧ out = unitBytes fedc ∧
      unpackRegisters o (argument / 16) (argument % 16) fedc = .ok registers := by
  obtain ⟨hlen, h⟩ := Result.violation_guard_eq_ok.mp h
  obtain ⟨ns, hns, h⟩ := Result.bind_eq_ok.mp h
  obtain ⟨hmap, hlt⟩ := mapM_fitUnsigned_eq_ok hns
  simp only [Result.pure_eq_ok, Prod.mk.injEq] at h
  obtain ⟨rfl, rfl⟩ := h
  have hn := getD_lt (by decide) hlt
  have h0 := hn 0
  have h1 := hn 1
  have h2 := hn 2
  have h3 := hn 3
  have h4 := hn 4
  refine ⟨by omega, _, by omega, rfl, ?_⟩
  have hlen' : registers.length = ns.length := by rw [hmap, List.length_map]
  rw [unpackRegisters_of_lt o (by omega) h0 h1 h2 h4, hlen', take_getD ns (by omega), hmap,
    List.map_map]
  congr 1
  exact (List.map_congr_left fun b _ => toUInt8_toNat b).trans (List.map_id _)

end Instruction

end Dalvik
