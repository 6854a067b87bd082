import Dalvik.Proofs.Placement.Decoders
import Dalvik.Proofs.Faultless
import Dalvik.Proofs.Yields

/-!
# What decoders take

A decoder that gives a value has moved the cursor over whole code units, and a relation says which
value belongs to which units. The rules follow the ways in which decoders are put together: the one
that comes first in a sequence sees the units in front.
-/
namespace Dalvik

namespace Decoder
variable {α β : Type}

theorem u2_eq_ok {bytes : ByteArray} {index after : Nat} {v : UInt16}
    (h : u2 bytes index = .ok v after) : (Bytes.u2 v).Stands bytes index ∧ after = index + 2 := by
  change (if bytes.size < index + 2 then _ else _ : Decoder UInt16) bytes index = _ at h
  split at h
  · cases h
  next hle =>
    have h0 : index < bytes.size := by omega
    have h1 : index + 1 < bytes.size := by omega
    have hbyte {i : Nat} (hi : i < bytes.size) := Access.byte_eq_ok (getElem?_pos bytes i hi)
    rw [lift_of_ok (hbyte h1), lift_of_ok (hbyte h0), seek_bind] at h
    cases h
    refine ⟨⟨bytes.data.toList.drop (index + 2), ?_⟩, rfl⟩
    have hfirst := List.drop_eq_getElem_cons (l := bytes.data.toList) (by simpa using h0)
    have hsecond := List.drop_eq_getElem_cons (l := bytes.data.toList) (by simpa using h1)
    rw [Bytes.u2_toWord16, hfirst, hsecond]
    rfl

/-- Any bytes of an even number are code units. -/
theorem exists_units {bytes : ByteArray} {index n : Nat} (h : index + 2 * n ≤ bytes.size) :
    ∃ units : List UInt16, units.length = n ∧ Bytes.Stands (units.flatMap Bytes.u2) bytes index := by
  induction n generalizing index with
  | zero => exact ⟨[], rfl, Bytes.Stands.nil⟩
  | succ n ih =>
    obtain ⟨units, hlen, after, hs⟩ := ih (show index + 2 + 2 * n ≤ bytes.size by omega)
    have h0 : index < bytes.data.toList.length := by simp; omega
    have h1 : index + 1 < bytes.data.toList.length := by simp; omega
    refine ⟨Bytes.toWord16 bytes.data.toList[index] bytes.data.toList[index + 1] :: units,
      by simp [hlen], after, ?_⟩
    rw [List.flatMap_cons, Bytes.u2_toWord16, List.drop_eq_getElem_cons h0,
      List.drop_eq_getElem_cons h1, ← hs]
    rfl

/-- If the decoder gives a value, then it has taken whole code units, and they belong to the value. -/
def Takes (d : Decoder α) (R : List UInt16 → α → Prop) : Prop :=
  ∀ ⦃bytes : ByteArray⦄ ⦃index : Nat⦄ ⦃a : α⦄ ⦃after : Nat⦄, d bytes index = .ok a after →
    ∃ units : List UInt16, Bytes.Stands (units.flatMap Bytes.u2) bytes index ∧
      after = index + 2 * units.length ∧ R units a

namespace Takes
variable {d : Decoder α} {f : α → Decoder β} {R : List UInt16 → α → Prop} {S : List UInt16 → β → Prop}
  {a : α} {b : β}

theorem mono {T : List UInt16 → α → Prop} (hd : Takes d R) (h : ∀ units a, R units a → T units a) :
    Takes d T := by
  intro bytes index a after hrun
  obtain ⟨units, hunits, hafter, ha⟩ := hd hrun
  exact ⟨units, hunits, hafter, h units a ha⟩

theorem pure (h : R [] a) : Takes (Pure.pure a) R := by
  intro bytes index b after hrun
  obtain ⟨rfl, rfl⟩ := pure_eq_ok.mp hrun
  exact ⟨[], Bytes.Stands.nil, rfl, h⟩

theorem bind (hd : Takes d R)
    (hf : ∀ units a, R units a → Takes (f a) fun more b => S (units ++ more) b) :
    Takes (d >>= f) S := by
  intro bytes index b after hrun
  obtain ⟨a, between, hfirst, hrun⟩ := bind_eq_ok.mp hrun
  obtain ⟨units, hunits, rfl, ha⟩ := hd hfirst
  obtain ⟨more, hmore, rfl, hb⟩ := hf units a ha hrun
  refine ⟨units ++ more, ?_, ?_, hb⟩
  · rw [List.flatMap_append]
    refine hunits.append ?_
    rwa [Bytes.length_flatMap_u2]
  · rw [List.length_append]
    omega

theorem lift_bind {r : Result α} (hf : ∀ a, r = .ok a → Takes (f a) S) :
    Takes (liftM r >>= f) S := by
  intro bytes index b after hrun
  obtain ⟨a, ha, hrun⟩ := lift_bind_eq_ok.mp hrun
  exact hf a ha hrun

theorem u2 : Takes u2 fun units v => units = [v] := by
  intro bytes index v after hrun
  obtain ⟨hs, rfl⟩ := u2_eq_ok hrun
  exact ⟨[v], by simpa using hs, rfl, rfl⟩

theorem u2_bind {f : UInt16 → Decoder β} (hf : ∀ v, Takes (f v) fun more b => S (v :: more) b) :
    Takes (Decoder.u2 >>= f) S := by
  refine u2.bind ?_
  rintro _ v rfl
  exact hf v

/-- A check that reads nothing. -/
theorem check_bind {c : Prop} [Decidable c] {reason : Malformed} {f : Unit → Decoder β}
    (hf : c → Takes (f ()) S) :
    Takes ((if c then Pure.pure () else Decoder.fail reason) >>= f) S := by
  intro bytes index b after hrun
  split at hrun
  next hc => exact hf hc hrun
  · cases hrun

theorem u4 : Takes u4 fun units _ => units.length = 2 := by
  intro bytes index v after hrun
  obtain ⟨rfl, hle⟩ := after_of_u4 hrun
  obtain ⟨units, hlen, hs⟩ := exists_units (n := 2) hle
  exact ⟨units, hs, by rw [hlen], hlen⟩

theorem go {size : Nat} (hd : Takes d fun units _ => units.length = size) (count : Nat)
    (found : List α) : Takes (repeated.go d count found) fun units _ =>
      units.length = size * count := by
  induction count generalizing found with
  | zero => exact pure rfl
  | succ count ih =>
    refine hd.bind fun units a hunits => (ih (a :: found)).mono fun more as hmore => ?_
    rw [List.length_append, hunits, hmore, Nat.mul_succ, Nat.add_comm]

theorem repeated {size : Nat} (hd : Takes d fun units _ => units.length = size) (count : Nat) :
    Takes (d.repeated count) fun units as => units.length = size * count ∧ as.length = count := by
  intro bytes index as after hrun
  obtain ⟨units, hunits, hafter, hlength⟩ := hd.go count [] hrun
  exact ⟨units, hunits, hafter, hlength, length_of_repeated hrun⟩

end Takes
end Decoder

end Dalvik
