import Dalvik.Proofs.Placement.Decoders
import Dalvik.Value.Codec

/-!
# Two decoders along the same bytes

A decoder that looks entries up, checks numbers or narrows them goes along with one that takes the
bytes as they stand: where the first one gives a value, the second one gives what the value was made
of and stops at the same place. The rules follow the ways in which decoders are put together.
-/
namespace Dalvik.Decoder

variable {α β γ δ : Type}

/-- If the first decoder gives a value, then the second one gives a related value and stops at the
same place. -/
def Along (R : α → β → Prop) (d : Decoder α) (e : Decoder β) : Prop :=
  ∀ ⦃bytes : ByteArray⦄ ⦃index : Nat⦄ ⦃a : α⦄ ⦃after : Nat⦄, d bytes index = .ok a after →
    ∃ b, e bytes index = .ok b after ∧ R a b

namespace Along

variable {R : α → β → Prop} {S : γ → δ → Prop} {d : Decoder α} {e : Decoder β} {f : α → Decoder γ}
  {g : β → Decoder δ} {k : Decoder δ} {a : α} {b : β}

theorem self (d : Decoder α) : Along Eq d d := fun _ _ a _ hrun => ⟨a, hrun, rfl⟩

theorem pure (h : R a b) : Along R (Pure.pure a) (Pure.pure b) := by
  intro bytes index c after hrun
  obtain ⟨rfl, rfl⟩ := pure_eq_ok.mp hrun
  exact ⟨b, rfl, h⟩

theorem fail (reason : Malformed) : Along R (Decoder.fail reason) e := nofun

theorem bind (h : Along R d e) (hf : ∀ a b, R a b → Along S (f a) (g b)) :
    Along S (d >>= f) (e >>= g) := by
  intro bytes index c after hrun
  obtain ⟨a, between, hd, hrun⟩ := bind_eq_ok.mp hrun
  obtain ⟨b, he, hab⟩ := h hd
  obtain ⟨c', hg, hc⟩ := hf a b hab hrun
  exact ⟨c', bind_eq_ok.mpr ⟨b, between, he, hg⟩, hc⟩

/-- After the same step. -/
theorem self_bind {g : α → Decoder δ} (h : ∀ a, Along S (f a) (g a)) :
    Along S (d >>= f) (d >>= g) :=
  (self d).bind fun a _ hab => hab ▸ h a

/-- Last steps that read nothing. -/
theorem map {p : α → γ} {q : β → δ} (h : Along R d e) (hpq : ∀ a b, R a b → S (p a) (q b)) :
    Along S (d >>= fun a => Pure.pure (p a)) (e >>= fun b => Pure.pure (q b)) :=
  h.bind fun a b hab => pure (hpq a b hab)

/-- A last step of the first decoder that reads nothing. -/
theorem map_left {T : γ → β → Prop} {p : α → γ} (h : Along R d e) (hp : ∀ a b, R a b → T (p a) b) :
    Along T (d >>= fun a => Pure.pure (p a)) e := by
  intro bytes index c after hrun
  obtain ⟨a, between, hd, hrun⟩ := bind_eq_ok.mp hrun
  obtain ⟨rfl, rfl⟩ := pure_eq_ok.mp hrun
  obtain ⟨b, he, hab⟩ := h hd
  exact ⟨b, he, hp a b hab⟩

/-- Two results. -/
theorem lift {r : Result α} {r' : Result β}
    (h : ∀ a, r = .ok a → ∃ b, r' = .ok b ∧ Along S (f a) (g b)) :
    Along S (liftM r >>= f) (liftM r' >>= g) := by
  intro bytes index c after hrun
  obtain ⟨a, ha, hrun⟩ := lift_bind_eq_ok.mp hrun
  obtain ⟨b, hb, hab⟩ := h a ha
  obtain ⟨c', hg, hc⟩ := hab hrun
  exact ⟨c', lift_bind_eq_ok.mpr ⟨b, hb, hg⟩, hc⟩

/-! ## Steps of the first decoder alone -/

theorem lift_bind {r : Result α} (h : ∀ a, r = .ok a → Along S (f a) k) :
    Along S (liftM r >>= f) k := by
  intro bytes index c after hrun
  obtain ⟨a, ha, hrun⟩ := lift_bind_eq_ok.mp hrun
  exact h a ha hrun

theorem position_bind {f : Nat → Decoder γ} (h : ∀ n, Along S (f n) k) :
    Along S (position >>= f) k := fun _ index _ _ hrun => h index hrun

theorem available_bind {f : Nat → Decoder γ} (h : ∀ n, Along S (f n) k) :
    Along S (available >>= f) k := fun bytes index _ _ hrun => h (bytes.size - index) hrun

/-- A check. -/
theorem guard {c : Prop} [Decidable c] {reason : Malformed} {next : α → Decoder γ} {y : Decoder γ}
    (h : ¬ c → Along S y k) :
    Along S (if c then (Decoder.fail reason : Decoder α) >>= next else y) k := by
  split
  · exact nofun
  next hc => exact h hc

/-! ## Runs of values -/

theorem go (h : Along R d e) {found : List α} {found' : List β}
    (hfound : List.Forall₂ R found found') (count : Nat) :
    Along (List.Forall₂ R) (repeated.go d count found) (repeated.go e count found') := by
  induction count generalizing found found' with
  | zero => exact pure (List.forall₂_reverse_iff.mpr hfound)
  | succ count ih => exact h.bind fun _ _ hab => ih (.cons hab hfound)

theorem repeated (h : Along R d e) (count : Nat) :
    Along (List.Forall₂ R) (d.repeated count) (e.repeated count) :=
  h.go .nil count

theorem counted (h : Along R d e) : Along (List.Forall₂ R) (Dalvik.counted d) (Dalvik.counted e) :=
  self_bind fun count => h.repeated count.toNat

/-! ## Payloads of values -/

section
variable {width : UInt8} {S : γ → δ → Prop} {value : α → γ} {c : δ}

theorem readIndex : Along (fun _ _ => True) (Dalvik.readIndex width) (Packed.payload width) := by
  intro bytes index i after h
  obtain ⟨n, between, hn, hi⟩ := bind_eq_ok.mp h
  obtain ⟨part, rest, hpart, hn⟩ := bind_eq_ok.mp hn
  obtain ⟨rfl, rfl⟩ := pure_eq_ok.mp hn
  split at hi
  · obtain ⟨-, rfl⟩ := pure_eq_ok.mp hi
    exact ⟨part, hpart, trivial⟩
  · cases hi

/-- A number of which nothing is asked. -/
theorem number {f : Bytes → α} (h : ∀ a, S (value a) c) :
    Along S (do return value (← (do return f (← Packed.payload width) : Decoder α)))
      (do let _ ← Packed.payload width; return c) :=
  ((self _).map_left fun _ _ _ => trivial).map (R := fun _ _ => True) fun a _ _ => h a

theorem float {value : UInt32 → γ} (h : ∀ bits, S (value bits) c) :
    Along S (do return value (← Packed.readFloat width))
      (do let _ ← Packed.payload width; return c) := by
  have hreader : Along (fun _ _ => True) (Packed.readFloat width) (Packed.payload width) :=
    ((self _).map_left fun _ _ _ => trivial).map_left (R := fun _ _ => True) fun _ _ _ => trivial
  exact hreader.map fun bits _ _ => h bits

/-- An entry of a pool, by an index of which nothing is asked. -/
theorem entry {fetch : UInt32 → Result α} (h : ∀ a, S (value a) c) :
    Along S (do return value (← fetch (← Dalvik.readIndex width)))
      (do let _ ← Packed.payload width; return c) :=
  readIndex.bind fun _ _ _ => lift_bind fun a _ => pure (h a)

end

theorem decodeAt (h : Along R d e) {bytes : ByteArray} {index after : Nat}
    (hrun : d.decodeAt bytes index = .ok (a, after)) :
    ∃ b, e.decodeAt bytes index = .ok (b, after) ∧ R a b := by
  obtain ⟨b, he, hab⟩ := h (decodeAt_eq_ok.mp hrun)
  exact ⟨b, decodeAt_eq_ok.mpr he, hab⟩

end Along
end Dalvik.Decoder
