import Dalvik.Debug.Decode
import Dalvik.Proofs.Along
import Dalvik.Proofs.Pools

/-!
# What is read as absent

A name or type that may be absent is stored as its index plus one, and absence as 0. The reader
takes the low 32 bits of what is stored, subtracts one modulo 2^32 and calls every index absent that
is negative then. It finds what was meant in the numbers up to 2^31 and in no other ones: those above
are neither refused nor looked up where they point to.
-/
namespace Dalvik
open DebugOp

/-- A number with all of its 64 bits. -/
def Decoder.ulebWide : Decoder UInt64 := do
  let (n, size) ← Leb128.decodeUnsigned (← lebWindow)
  advance size
  pure n

/-! ## The numbers that are stored -/

/-- The numbers from which an event takes its names and its type. -/
inductive DebugItem.Stored where
  | startLocal (name type : UInt64) (signature : Option UInt64)
  | setFile (name : UInt64)

namespace DebugItem

/-- Whether an event has names. -/
def named : DebugItem → Bool
  | startLocal .. => true
  | setFile _ => true
  | _ => false

/-- The numbers that one instruction stores for the names of its event. -/
def stepStored (op : UInt8) : Decoder (List Stored) := do
  match op.toNat with
  | 0x01 => do
    let _ ← Decoder.uleb
    return []
  | 0x02 => do
    let _ ← Decoder.sleb
    return []
  | 0x03 => do
    let _ ← Decoder.uleb
    let name ← Decoder.ulebWide
    return [.startLocal name (← Decoder.ulebWide) none]
  | 0x04 => do
    let _ ← Decoder.uleb
    let name ← Decoder.ulebWide
    let type ← Decoder.ulebWide
    return [.startLocal name type (some (← Decoder.ulebWide))]
  | 0x05 => do
    let _ ← Decoder.uleb
    return []
  | 0x06 => do
    let _ ← Decoder.uleb
    return []
  | 0x09 => return [.setFile (← Decoder.ulebWide)]
  | _ => return []

def runStored : (room : Nat) → List Stored → Decoder (List Stored)
  | 0, found => return found.reverse
  | room + 1, found => do
    let op ← Decoder.u1
    if op = endSequence then return found.reverse
    let more ← stepStored op
    runStored room (more.reverse ++ found)

end DebugItem

open DebugItem in
/-- The numbers stored for the names of the parameters, and those stored in the program. -/
def DebugInfo.decodeStored : Decoder (List UInt64 × List Stored) := do
  let _ ← Decoder.uleb
  let count := (← Decoder.uleb).toNat
  let parameters ← Decoder.ulebWide.repeated count
  return (parameters, ← runStored ((← Decoder.available) + 1) [])

/-! ## What is made of one number -/

section
variable {α : Type} {fetch : UInt32 → Result α} {value : Option α} {n : UInt32} {x : UInt64}

/-- What is meant by a stored number: nothing by 0, and by every other one the entry before it. -/
def MeantBy (fetch : UInt32 → Result α) (x : UInt64) : Option α → Prop
  | none => x = 0
  | some a => ∃ i : UInt32, x.toNat = i.toNat + 1 ∧ fetch i = .ok a

/-- What the reader makes of a stored number. -/
structure ReadFrom (fetch : UInt32 → Result α) (value : Option α) (x : UInt64) : Prop where
  absent_iff : value = none ↔ x.toUInt32 = 0 ∨ 2 ^ 31 < x.toUInt32.toNat
  entry : ∀ a ∈ value, fetch (x.toUInt32 - 1) = .ok a
  meant_iff : MeantBy fetch x value ↔ x.toNat ≤ 2 ^ 31

theorem toInt32_pred_neg_iff : (n - 1).toInt32 < 0 ↔ n = 0 ∨ 2 ^ 31 < n.toNat := by
  have hcases := BitVec.toInt_eq_toNat_cond (n - 1).toBitVec
  rw [Int32.lt_iff_toInt_lt, ← UInt32.toNat_inj, UInt32.toNat_zero]
  change (n - 1).toBitVec.toInt < 0 ↔ _
  have hpred : (n - 1).toBitVec.toNat = (n.toNat + (2 ^ 32 - 1)) % 2 ^ 32 := by
    rw [UInt32.toNat_toBitVec, UInt32.toNat_sub, Nat.add_comm]
    rfl
  rw [hpred] at hcases
  rw [hcases]
  have := n.toNat_lt
  split <;> omega

theorem optionalAt_eq_ok (h : optionalAt fetch (n - 1).toInt32 = .ok value) :
    (value = none ↔ n = 0 ∨ 2 ^ 31 < n.toNat) ∧ ∀ a ∈ value, fetch (n - 1) = .ok a := by
  rw [← toInt32_pred_neg_iff]
  unfold optionalAt at h
  split at h
  next hneg =>
    cases h
    exact ⟨iff_of_true rfl hneg, nofun⟩
  next hpos =>
    obtain ⟨a, ha, h⟩ := Result.bind_eq_ok.mp h
    obtain rfl := Result.pure_eq_ok.mp h
    refine ⟨iff_of_false nofun hpos, ?_⟩
    rintro _ ⟨⟩
    rwa [UInt32.toUInt32_toInt32] at ha

theorem readFrom_of_optionalAt (h : optionalAt fetch (x.toUInt32 - 1).toInt32 = .ok value) :
    ReadFrom fetch value x := by
  obtain ⟨habsent, hentry⟩ := optionalAt_eq_ok h
  refine ⟨habsent, hentry, ?_⟩
  have hlow : x.toUInt32.toNat = x.toNat % 2 ^ 32 := UInt64.toNat_toUInt32 x
  cases value with
  | none =>
    rw [← UInt32.toNat_inj, hlow, UInt32.toNat_zero] at habsent
    rw [MeantBy, ← UInt64.toNat_inj, UInt64.toNat_zero]
    have := habsent.mp rfl
    omega
  | some a =>
    have hlookup := hentry a rfl
    have hpresent : ¬ (x.toUInt32 = 0 ∨ 2 ^ 31 < x.toUInt32.toNat) := fun h =>
      Option.some_ne_none a (habsent.mpr h)
    rw [← UInt32.toNat_inj, hlow, UInt32.toNat_zero] at hpresent
    constructor
    · rintro ⟨i, hx, -⟩
      have := i.toNat_lt
      omega
    · intro hx
      refine ⟨x.toUInt32 - 1, ?_, hlookup⟩
      rw [UInt32.toNat_sub_of_le, hlow, UInt32.toNat_one]
      · omega
      · rw [UInt32.le_iff_toNat_le, hlow, UInt32.toNat_one]
        omega

/-- The same bytes give the whole number. -/
theorem Decoder.along_ulebPlusOne :
    Along (fun v x => v = (x.toUInt32 - 1).toInt32) ulebPlusOne ulebWide := by
  refine Along.self_bind fun window => Along.lift fun (v, size) h => ?_
  obtain ⟨⟨x, _⟩, hx, h⟩ := Result.bind_eq_ok.mp h
  cases h
  exact ⟨(x, size), hx, Along.self_bind fun _ => Along.pure rfl⟩

/-- What the lookup of a stored number gives goes on to the rest. -/
theorem Decoder.along_optionalAt {β γ : Type} {S : β → γ → Prop} {f : Option α → Decoder β}
    {g : UInt64 → Decoder γ} (h : ∀ value x, ReadFrom fetch value x → Along S (f value) (g x)) :
    Along S (do f (← optionalAt fetch (← ulebPlusOne))) (ulebWide >>= g) :=
  along_ulebPlusOne.bind fun _ x hx => Along.lift_bind fun value hvalue =>
    h value x (readFrom_of_optionalAt (hx ▸ hvalue))

theorem Decoder.along_optional :
    Along (ReadFrom fetch) (do optionalAt fetch (← ulebPlusOne)) ulebWide := by
  intro bytes index value after hrun
  obtain ⟨n, between, hn, hrun⟩ := bind_eq_ok.mp hrun
  obtain ⟨hvalue, rfl⟩ := lift_eq_ok.mp hrun
  obtain ⟨x, hx, rfl⟩ := along_ulebPlusOne hn
  exact ⟨x, hx, readFrom_of_optionalAt hvalue⟩

end

/-! ## What is made of a program -/

open Decoder

namespace DebugItem

/-- An event with the numbers stored for its names. The short form of a local has no signature. -/
inductive Gives (s : Source) : DebugItem → Stored → Prop
  | startLocal {register : UInt32} {name : Option String} {type : Option TypeId} {n t : UInt64}
      (hname : ReadFrom s.string name n) (htype : ReadFrom s.type type t) :
      Gives s (.startLocal register name type none) (.startLocal n t none)
  | startLocalExtended {register : UInt32} {name signature : Option String} {type : Option TypeId}
      {n t x : UInt64} (hname : ReadFrom s.string name n) (htype : ReadFrom s.type type t)
      (hsignature : ReadFrom s.string signature x) :
      Gives s (.startLocal register name type signature) (.startLocal n t (some x))
  | setFile {name : Option String} {n : UInt64} (hname : ReadFrom s.string name n) :
      Gives s (.setFile name) (.setFile n)

/-- The events that have names, with the numbers stored for them. -/
abbrev Shows (s : Source) (items : List DebugItem) (stored : List Stored) : Prop :=
  List.Forall₂ (Gives s) (items.filter named) stored

variable {s : Source} {m : Machine} {op : UInt8} {item : DebugItem}

theorem filter_report : (m.report item).1.filter named = [item].filter named := by
  unfold Machine.report
  dsimp only
  split_ifs
  · rfl
  · rfl

theorem filter_special : (m.special op).1.filter named = [] := by
  unfold Machine.special
  dsimp only
  split_ifs <;> rfl

/-- A step of which nothing is a name. -/
theorem along_unnamed {β : Type} {d : Decoder β} {f : β → List DebugItem × Machine}
    (h : ∀ b, (f b).1.filter named = []) :
    Along (fun out stored => Shows s out.1 stored) (do return f (← d)) (do let _ ← d; return []) :=
  Along.self_bind fun b => Along.pure (by rw [Shows, h b]; exact .nil)

theorem along_step :
    Along (fun out stored => Shows s out.1 stored) (step s m op) (stepStored op) := by
  unfold step stepStored
  dsimp only
  generalize op.toNat = code
  split
  · exact along_unnamed fun n => rfl
  · exact along_unnamed fun n => rfl
  · refine Along.self_bind fun register => along_optional.bind fun name n hname => ?_
    refine along_optionalAt fun type t htype => Along.pure ?_
    rw [Shows, filter_report]
    exact .cons (.startLocal hname htype) .nil
  · refine Along.self_bind fun register => along_optional.bind fun name n hname => ?_
    refine along_optionalAt fun type t htype => along_optional.bind fun signature x hsignature => ?_
    refine Along.pure ?_
    rw [Shows, filter_report]
    exact .cons (.startLocalExtended hname htype hsignature) .nil
  · exact along_unnamed fun n => filter_report
  · exact along_unnamed fun n => filter_report
  · exact Along.pure (by rw [Shows, filter_report]; exact .nil)
  · exact Along.pure (by rw [Shows, filter_report]; exact .nil)
  · refine along_optional.bind fun name n hname => Along.pure ?_
    rw [Shows, filter_report]
    exact .cons (.setFile hname) .nil
  next hdefault =>
    simp only
    exact Along.pure (by rw [Shows, filter_special]; exact .nil)

theorem along_run {room : Nat} {m : Machine} {items : List DebugItem} {stored : List Stored}
    (h : Shows s items.reverse stored.reverse) :
    Along (Shows s) (run s room m items) (runStored room stored) := by
  induction room generalizing m items stored with
  | zero => exact Along.pure h
  | succ room ih =>
    refine Along.self_bind fun op => ?_
    split
    · exact Along.pure h
    · refine along_step.bind fun out more hmore => ih ?_
      rw [List.reverse_append, List.reverse_append, List.reverse_reverse, List.reverse_reverse,
        Shows, List.filter_append]
      exact List.rel_append h hmore

end DebugItem

namespace DebugInfo

variable {s : Source}

theorem along_decode :
    Along (fun d stored => List.Forall₂ (ReadFrom s.string) d.parameters stored.1 ∧
      DebugItem.Shows s d.items stored.2) (decode s) decodeStored := by
  refine Along.position_bind fun start => Along.self_bind fun line => ?_
  refine Along.self_bind fun count => Along.available_bind fun room => Along.guard fun hroom => ?_
  refine (along_optional.repeated count.toNat).bind fun names stored hnames => ?_
  apply Along.bind (R := DebugItem.Shows s)
  · exact Along.self_bind fun room => DebugItem.along_run .nil
  · exact fun items more hitems => Along.pure ⟨hnames, hitems⟩

/-- Every name, type and signature that reading gives comes from a number stored for it, read in the
same bytes. It is absent if the low 32 bits of the number are 0 or more than 2^31, and the entry
before those low bits otherwise; this is what the number means if and only if it is no more than
2^31. -/
theorem readFrom_of_decodeAt {bytes : ByteArray} {index after : Nat} {d : DebugInfo}
    (h : (decode s).decodeAt bytes index = .ok (d, after)) :
    ∃ parameters stored, decodeStored.decodeAt bytes index = .ok ((parameters, stored), after) ∧
      List.Forall₂ (ReadFrom s.string) d.parameters parameters ∧
      List.Forall₂ (DebugItem.Gives s) (d.items.filter DebugItem.named) stored := by
  obtain ⟨⟨parameters, stored⟩, hstored, hparameters, hitems⟩ := along_decode.decodeAt h
  exact ⟨parameters, stored, hstored, hparameters, hitems⟩

/-- Parameters stored as 1 and 2^32, and a file stored as 2^32 + 1. -/
def storedAbove : ByteArray :=
  ([1, 2, 1, 0x80, 0x80, 0x80, 0x80, 0x10, 9, 0x81, 0x80, 0x80, 0x80, 0x10, 0] : Bytes).toByteArray

theorem readFrom_of_decodeAt_storedAbove :
    ∃ parameters stored, decodeStored.decodeAt storedAbove 0 = .ok ((parameters, stored), 15) ∧
      List.Forall₂ (ReadFrom twoNamesSource.string) [some "a", none] parameters ∧
      List.Forall₂ (DebugItem.Gives twoNamesSource) [.setFile (some "a")] stored :=
  have h : (decode twoNamesSource).decodeAt storedAbove 0 =
      .ok (⟨[some "a", none], [.setFile (some "a")]⟩, 15) := by cbv
  readFrom_of_decodeAt h

/-- The second parameter is read as absent although 2^32 is stored for it, and the file as entry 0
although that is not the entry before 2^32 + 1. -/
theorem decode_storedAbove :
    decodeStored.decodeAt storedAbove 0 =
        .ok (([1, 4294967296], [.setFile 4294967297]), 15) ∧
      (decode twoNamesSource).decodeAt storedAbove 0 =
        .ok (⟨[some "a", none], [.setFile (some "a")]⟩, 15) ∧
      ¬ MeantBy twoNamesSource.string 4294967296 none ∧
      ¬ MeantBy twoNamesSource.string 4294967297 (some "a") := by
  refine ⟨by cbv, by cbv, show (4294967296 : UInt64) ≠ 0 by decide, ?_⟩
  rintro ⟨i, hi, -⟩
  have := i.toNat_lt
  simp at hi
  omega

end DebugInfo

end Dalvik
