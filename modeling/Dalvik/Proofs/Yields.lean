import Dalvik.Proofs.Placement.Decoders
import Dalvik.Value.Codec

/-!
# What decoders give

A property of all values that a decoder gives, whatever bytes it is run on. The rules follow the ways
in which decoders are put together.
-/
namespace Dalvik

namespace Decoder

variable {α β : Type} {d : Decoder α} {f : α → Decoder β} {P : α → Prop} {Q : β → Prop}

theorem length_of_go {bytes : ByteArray} {index after count : Nat} {found as : List α}
    (h : repeated.go d count found bytes index = .ok as after) :
    as.length = found.length + count := by
  induction count generalizing found index with
  | zero =>
    obtain ⟨rfl, -⟩ := pure_eq_ok.mp h
    exact List.length_reverse
  | succ count ih =>
    obtain ⟨a, between, -, h⟩ := bind_eq_ok.mp h
    rw [ih h, List.length_cons]
    omega

theorem length_of_repeated {bytes : ByteArray} {index after count : Nat}
    {as : List α} (h : d.repeated count bytes index = .ok as after) : as.length = count := by
  rw [length_of_go h, List.length_nil, Nat.zero_add]

/-- Wherever the decoder gives a value, the value has the property. -/
def Yields (d : Decoder α) (P : α → Prop) : Prop :=
  ∀ ⦃bytes : ByteArray⦄ ⦃index : Nat⦄ ⦃a : α⦄ ⦃after : Nat⦄, d bytes index = .ok a after → P a

namespace Yields

theorem pure {a : α} (h : P a) : Yields (Pure.pure a) P := fun _ _ _ _ hrun =>
  (pure_eq_ok.mp hrun).1 ▸ h

theorem fail (reason : Malformed) : Yields (Decoder.fail reason) P := nofun

theorem bind (hd : Yields d P) (hf : ∀ a, P a → Yields (f a) Q) : Yields (d >>= f) Q := by
  intro bytes index b after hrun
  obtain ⟨a, between, ha, hrun⟩ := bind_eq_ok.mp hrun
  exact hf a (hd ha) hrun

/-- Whatever the first step gives. -/
theorem behind (hf : ∀ a, Yields (f a) Q) : Yields (d >>= f) Q :=
  bind (P := fun _ => True) (fun _ _ _ _ _ => trivial) fun a _ => hf a

theorem lift_bind {r : Result α} (hf : ∀ a, r = .ok a → Yields (f a) Q) :
    Yields (liftM r >>= f) Q := by
  intro bytes index b after hrun
  obtain ⟨a, ha, hrun⟩ := lift_bind_eq_ok.mp hrun
  exact hf a ha hrun

theorem mono {P' : α → Prop} (hd : Yields d P) (h : ∀ a, P a → P' a) : Yields d P' :=
  fun _ _ a _ hrun => h a (hd hrun)

/-- A check that fails on purpose. -/
theorem guard {c : Prop} [Decidable c] {reason : Malformed} {g : β → Decoder α} {next : Decoder α}
    (h : ¬ c → Yields next P) : Yields (if c then Decoder.fail reason >>= g else next) P := by
  split
  · nofun
  next hc => exact h hc

theorem go (hd : Yields d P) (count : Nat) {found : List α} (hfound : ∀ a ∈ found, P a) :
    Yields (repeated.go d count found) fun as => ∀ a ∈ as, P a := by
  induction count generalizing found with
  | zero => exact pure fun a ha => hfound a (List.mem_reverse.mp ha)
  | succ count ih => exact hd.bind fun a ha => ih (List.forall_mem_cons.mpr ⟨ha, hfound⟩)

theorem repeated (hd : Yields d P) (count : Nat) :
    Yields (d.repeated count) fun as => as.length = count ∧ ∀ a ∈ as, P a :=
  fun _ _ _ _ hrun => ⟨length_of_repeated hrun, hd.go count (List.forall_mem_nil P) hrun⟩

/-- As many values are given as a word of 32 bits says. -/
theorem counted (hd : Yields d P) :
    Yields (Dalvik.counted d) fun as => as.length < UInt32.size ∧ ∀ a ∈ as, P a := by
  refine behind fun count => (hd.repeated count.toNat).mono ?_
  rintro as ⟨hlength, has⟩
  exact ⟨hlength ▸ count.toNat_lt, has⟩

theorem mapM {f : α → Decoder β} {as : List α} (h : ∀ a, Yields (f a) Q) :
    Yields (as.mapM f) fun bs => ∀ b ∈ bs, Q b := by
  induction as with
  | nil =>
    rw [List.mapM_nil]
    exact pure nofun
  | cons a as ih =>
    rw [List.mapM_cons]
    exact (h a).bind fun b hb => ih.bind fun bs hbs => pure (List.forall_mem_cons.mpr ⟨hb, hbs⟩)

theorem decodeAt (hd : Yields d P) {bytes : ByteArray} {index after : Nat} {a : α}
    (h : d.decodeAt bytes index = .ok (a, after)) : P a :=
  hd (decodeAt_eq_ok.mp h)

theorem valueAt (hd : Yields d P) {bytes : ByteArray} {index : Nat} {a : α}
    (h : d.valueAt bytes index = .ok a) : P a := by
  obtain ⟨_, hrun⟩ := valueAt_eq_ok.mp h
  exact hd hrun

end Yields
end Decoder

end Dalvik
