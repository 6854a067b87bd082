import Dalvik.Proofs.Leb128
import Dalvik.Proofs.Reads

/-!
# The same contents at two places

What one decoder reads at one place another one reads at another place. The bytes there may differ
where they hold offsets, and nothing is said about a run that fails, so no decoder has to know
beforehand what it will find. A decoder that only looks at the bytes it takes reads the same wherever
they lie; one that asks how many bytes are left reads the same where as many are left.
-/
namespace Dalvik

/-- Parts one behind the other stand together. -/
theorem Bytes.Stands.append {part rest : Bytes} {bytes : ByteArray} {index : Nat}
    (h : part.Stands bytes index) (hrest : rest.Stands bytes (index + part.length)) :
    (part ++ rest).Stands bytes index := by
  obtain ⟨after, h⟩ := h
  rw [Stands, ← List.drop_drop, ← h, List.drop_left] at hrest
  rw [Stands, ← h]
  exact List.prefix_append_right_inj part |>.mpr hrest

namespace Decoder

variable {α β γ δ : Type}

/-! ## Runs that succeed -/

theorem bind_eq_ok {d : Decoder α} {f : α → Decoder β} {bytes : ByteArray} {index after : Nat} {b : β} :
    (d >>= f) bytes index = .ok b after ↔
      ∃ a between, d bytes index = .ok a between ∧ f a bytes between = .ok b after := by
  change EStateM.bind (d bytes) (fun a => f a bytes) index = _ ↔ _
  unfold EStateM.bind
  cases d bytes index <;> simp

theorem lift_eq_ok {r : Result α} {bytes : ByteArray} {index after : Nat} {a : α} :
    (liftM r : Decoder α) bytes index = .ok a after ↔ r = .ok a ∧ index = after := by
  cases r with
  | ok b =>
    change (EStateM.Result.ok b index : EStateM.Result Error Nat α) = _ ↔ _
    simp
  | error e => exact iff_of_false nofun nofun

theorem lift_bind_eq_ok {r : Result α} {f : α → Decoder β} {bytes : ByteArray} {index after : Nat}
    {b : β} : (liftM r >>= f) bytes index = .ok b after ↔
      ∃ a, r = .ok a ∧ f a bytes index = .ok b after := by
  cases r with
  | ok a => simp [lift_of_ok]
  | error e => exact iff_of_false nofun nofun

theorem pure_eq_ok {bytes : ByteArray} {index after : Nat} {a b : α} :
    (pure a : Decoder α) bytes index = .ok b after ↔ a = b ∧ index = after := by
  change (EStateM.Result.ok a index : EStateM.Result Error Nat α) = _ ↔ _
  simp

theorem valueAt_eq_ok {d : Decoder α} {bytes : ByteArray} {index : Nat} {a : α} :
    d.valueAt bytes index = .ok a ↔ ∃ after, d bytes index = .ok a after := by
  unfold Decoder.valueAt
  cases d bytes index <;> simp

theorem decodeAt_eq_ok {d : Decoder α} {bytes : ByteArray} {index after : Nat} {a : α} :
    d.decodeAt bytes index = .ok (a, after) ↔ d bytes index = .ok a after := by
  unfold Decoder.decodeAt
  cases d bytes index <;> simp

theorem u1_eq_ok {bytes : ByteArray} {index after : Nat} {b : UInt8}
    (h : u1 bytes index = .ok b after) : (Bytes.u1 b).Stands bytes index ∧ after = index + 1 := by
  change (if bytes.size < index + 1 then _ else _ : Decoder UInt8) bytes index = _ at h
  split at h
  · cases h
  next hle =>
    have hlt : index < bytes.size := by omega
    rw [lift_of_ok (Access.byte_eq_ok (getElem?_pos bytes index hlt)), seek_bind] at h
    cases h
    refine ⟨⟨bytes.data.toList.drop (index + 1), ?_⟩, rfl⟩
    exact (List.drop_eq_getElem_cons (by simpa using hlt)).symm

theorem repeated_go_u1_eq_ok {bytes : ByteArray} {index after count : Nat} {found part : Bytes}
    (h : repeated.go u1 count found bytes index = .ok part after) :
    part.length = found.length + count ∧ after = index + count := by
  induction count generalizing found index with
  | zero =>
    obtain ⟨rfl, rfl⟩ := pure_eq_ok.mp h
    exact ⟨List.length_reverse, rfl⟩
  | succ count ih =>
    obtain ⟨b, between, hb, h⟩ := bind_eq_ok.mp h
    obtain ⟨-, rfl⟩ := u1_eq_ok hb
    obtain ⟨hlen, hafter⟩ := ih h
    rw [List.length_cons] at hlen
    exact ⟨by omega, by omega⟩

theorem repeated_u1_eq_ok {bytes : ByteArray} {index after count : Nat} {part : Bytes}
    (h : u1.repeated count bytes index = .ok part after) :
    part.length = count ∧ after = index + count := by
  simpa using repeated_go_u1_eq_ok h

/-! ## Parts that differ -/

/-- Wherever the two parts lie: if the first decoder gives a value, then it stops behind the first
part, and the second decoder gives a related value and stops behind the second part. -/
def Follows (R : α → β → Prop) (d : Decoder α) (e : Decoder β) (part part' : Bytes) : Prop :=
  ∀ ⦃bytes bytes' : ByteArray⦄ ⦃index index' : Nat⦄, part.Stands bytes index →
    part'.Stands bytes' index' → ∀ a after, d bytes index = .ok a after →
      after = index + part.length ∧ ∃ b, R a b ∧ e bytes' index' = .ok b (index' + part'.length)

namespace Follows

variable {R : α → β → Prop} {S : γ → δ → Prop} {d : Decoder α} {e : Decoder β} {f : α → Decoder γ}
  {g : β → Decoder δ} {part part' rest rest' : Bytes} {a : α} {b : β}

theorem pure (h : R a b) : Follows R (Pure.pure a) (Pure.pure b) [] [] := by
  intro bytes bytes' index index' _ _ c after hrun
  cases hrun
  exact ⟨rfl, b, h, rfl⟩

theorem bind (h : Follows R d e part part') (hf : ∀ a b, R a b → Follows S (f a) (g b) rest rest') :
    Follows S (d >>= f) (e >>= g) (part ++ rest) (part' ++ rest') := by
  intro bytes bytes' index index' hs hs' c after hrun
  obtain ⟨a, between, hd, hrun⟩ := bind_eq_ok.mp hrun
  obtain ⟨rfl, b, hab, he⟩ := h hs.left hs'.left a between hd
  obtain ⟨rfl, c', hc, hg⟩ := hf a b hab hs.right hs'.right c after hrun
  rw [bind_of_ok he, hg, List.length_append, List.length_append, ← Nat.add_assoc, ← Nat.add_assoc]
  exact ⟨rfl, c', hc, rfl⟩

/-- A last step that reads nothing. -/
theorem bind_last (h : Follows R d e part part') (hf : ∀ a b, R a b → Follows S (f a) (g b) [] []) :
    Follows S (d >>= f) (e >>= g) part part' := by
  simpa using h.bind hf

/-- What is known of both. -/
theorem of_reads (hd : d.Reads part a) (he : e.Reads part' b) :
    Follows (fun x y => x = a ∧ y = b) d e part part' := by
  intro bytes bytes' index index' hs hs' c after hrun
  rw [hd hs] at hrun
  cases hrun
  exact ⟨rfl, b, ⟨rfl, rfl⟩, he hs'⟩

theorem reads_bind (hd : d.Reads part a) (he : e.Reads part' b)
    (hf : Follows S (f a) (g b) rest rest') :
    Follows S (d >>= f) (e >>= g) (part ++ rest) (part' ++ rest') :=
  (of_reads hd he).bind fun _ _ ⟨hx, hy⟩ => hx ▸ hy ▸ hf

theorem lift {r : Result α} {r' : Result β} (h : ∀ a, r = .ok a → ∃ b, r' = .ok b ∧ R a b)
    (hf : ∀ a b, R a b → Follows S (f a) (g b) rest rest') :
    Follows S (liftM r >>= f) (liftM r' >>= g) rest rest' := by
  have hlift : Follows R (liftM r) (liftM r') [] [] := by
    intro bytes bytes' index index' _ _ a after hrun
    obtain ⟨ha, rfl⟩ := lift_eq_ok.mp hrun
    obtain ⟨b, hb, hab⟩ := h a ha
    exact ⟨rfl, b, hab, lift_eq_ok.mpr ⟨hb, rfl⟩⟩
  exact hlift.bind hf

/-- A result that is the same if there is one. -/
theorem lift_eq {r r' : Result α} {f g : α → Decoder γ} {S : γ → γ → Prop}
    (h : ∀ a, r = .ok a → r' = .ok a) (hf : ∀ a, Follows S (f a) (g a) rest rest') :
    Follows S (liftM r >>= f) (liftM r' >>= g) rest rest' :=
  lift (R := Eq) (fun a ha => ⟨a, h a ha, rfl⟩) fun a _ hab => hab ▸ hf a

/-- Steps for lists whose entries belong together that read nothing. -/
theorem mapM {step : α → Decoder γ} {step' : β → Decoder γ} {as : List α} {bs : List β}
    (h : List.Forall₂ (fun a b => Follows Eq (step a) (step' b) [] []) as bs) :
    Follows Eq (as.mapM step) (bs.mapM step') [] [] := by
  induction h with
  | nil => exact pure rfl
  | cons hab _ ih =>
    rw [List.mapM_cons, List.mapM_cons]
    exact hab.bind_last fun c _ hc => ih.bind_last fun cs _ hcs => pure (by rw [hc, hcs])

/-- What depends on the bytes that are left can rely on those that are still to be read. -/
theorem available {f : Nat → Decoder γ} {g : Nat → Decoder δ}
    (h : ∀ n n', part.length ≤ n → part'.length ≤ n' → Follows S (f n) (g n') part part') :
    Follows S (Decoder.available >>= f) (Decoder.available >>= g) part part' :=
  fun _ _ _ _ hs hs' => h _ _ hs.length_le hs'.length_le hs hs'

theorem valueAt (h : Follows R d e part part') {bytes bytes' : ByteArray} {index index' : Nat}
    (hs : part.Stands bytes index) (hs' : part'.Stands bytes' index')
    (hrun : d.valueAt bytes index = .ok a) : ∃ b, R a b ∧ e.valueAt bytes' index' = .ok b := by
  obtain ⟨after, hrun⟩ := valueAt_eq_ok.mp hrun
  obtain ⟨-, b, hab, he⟩ := h hs hs' a after hrun
  exact ⟨b, hab, valueAt_eq_ok.mpr ⟨_, he⟩⟩

end Follows

/-! ## The same bytes, whatever is around them -/

/-- Whatever the first decoder reads it reads wherever the same bytes lie, and the second decoder
reads something in them too. -/
def Tracks (d : Decoder α) (e : Decoder β) : Prop :=
  ∀ ⦃bytes : ByteArray⦄ ⦃index : Nat⦄ ⦃a : α⦄ ⦃after : Nat⦄, d bytes index = .ok a after →
    ∃ part b, part.Stands bytes index ∧ after = index + part.length ∧ d.Reads part a ∧
      e.Reads part b

namespace Tracks

variable {d : Decoder α} {e : Decoder β} {f : α → Decoder γ} {g : α → Decoder δ}

theorem pure (a : α) (b : β) : Tracks (Pure.pure a) (Pure.pure b) := by
  intro bytes index c after hrun
  cases hrun
  exact ⟨[], b, .nil, rfl, .pure a, .pure b⟩

/-- What fails has nothing to keep up with. -/
theorem of_fails (h : ∀ bytes index a after, d bytes index ≠ .ok a after) : Tracks d e :=
  fun bytes index a after hrun => absurd hrun (h bytes index a after)

/-- After the same step. -/
theorem bind {d : Decoder α} (hd : Tracks d d) (hf : ∀ a, Tracks (f a) (g a)) :
    Tracks (d >>= f) (d >>= g) := by
  intro bytes index c after hrun
  obtain ⟨a, between, hrun, hlast⟩ := bind_eq_ok.mp hrun
  obtain ⟨part, -, hstands, rfl, hread, -⟩ := hd hrun
  obtain ⟨rest, b, hrest, rfl, hfirst, hsecond⟩ := hf a hlast
  refine ⟨part ++ rest, b, hstands.append hrest, ?_, hread.bind hfirst, hread.bind hsecond⟩
  rw [List.length_append, Nat.add_assoc]

/-- A last step that reads nothing. -/
theorem map {k : α → γ} {l : β → δ} (h : Tracks d e) :
    Tracks (d >>= fun a => Pure.pure (k a)) (e >>= fun b => Pure.pure (l b)) := by
  intro bytes index c after hrun
  obtain ⟨a, between, hd, hlast⟩ := bind_eq_ok.mp hrun
  obtain ⟨rfl, rfl⟩ := pure_eq_ok.mp hlast
  obtain ⟨part, b, hstands, hafter, hfirst, hsecond⟩ := h hd
  exact ⟨part, l b, hstands, hafter, hfirst.map, hsecond.map⟩

theorem lift {r : Result α} {r' : Result β} (h : ∀ a, r = .ok a → ∃ b, r' = .ok b) :
    Tracks (liftM r : Decoder α) (liftM r' : Decoder β) := by
  intro bytes index a after hrun
  obtain ⟨ha, rfl⟩ := lift_eq_ok.mp hrun
  obtain ⟨b, hb⟩ := h a ha
  exact ⟨[], b, .nil, rfl, .ofResult ha, .ofResult hb⟩

theorem lift_self (r : Result α) : Tracks (liftM r : Decoder α) (liftM r : Decoder α) :=
  lift fun a ha => ⟨a, ha⟩

/-- Values one after another; the ones found before do not matter. -/
theorem go (h : Tracks d e) (count : Nat) (found : List α) (found' : List β) :
    Tracks (repeated.go d count found) (repeated.go e count found') := by
  induction count generalizing found found' with
  | zero => exact pure found.reverse found'.reverse
  | succ count ih =>
    intro bytes index as after hrun
    obtain ⟨a, between, hrun, hlast⟩ := bind_eq_ok.mp hrun
    obtain ⟨part, b, hstands, rfl, hfirst, hsecond⟩ := h hrun
    obtain ⟨rest, bs, hrest, rfl, hfirsts, hseconds⟩ := ih (a :: found) (b :: found') hlast
    refine ⟨part ++ rest, bs, hstands.append hrest, ?_, hfirst.bind hfirsts, hsecond.bind hseconds⟩
    rw [List.length_append, Nat.add_assoc]

theorem repeated (h : Tracks d e) (count : Nat) : Tracks (d.repeated count) (e.repeated count) :=
  h.go count [] []

/-- Where it is known what the second decoder reads, the first one stops at the same place, so it
does not look behind the part. -/
theorem follows (h : Tracks d e) {part : Bytes} {b : β} (he : e.Reads part b) :
    Follows Eq d d part part := by
  intro bytes bytes' index index' hs hs' a after hrun
  obtain ⟨taken, c, hstands, rfl, hread, hother⟩ := h hrun
  have hsame := (hother hstands).symm.trans (he hs)
  have hlength : taken.length = part.length := by
    injection hsame with _ hafter
    omega
  obtain rfl : taken = part :=
    (List.prefix_of_prefix_length_le hstands hs hlength.le).eq_of_length hlength
  exact ⟨rfl, a, rfl, hread hs'⟩

theorem u1 : Tracks u1 u1 := by
  intro bytes index b after hrun
  obtain ⟨hstands, rfl⟩ := u1_eq_ok hrun
  exact ⟨_, _, hstands, rfl, u1_reads b, u1_reads b⟩

/-- A number ends with its last group, so the window behind it does not matter. -/
theorem uleb : Tracks uleb uleb := by
  intro bytes index n after hrun
  obtain ⟨window, between, hwindow, hnumber⟩ := bind_eq_ok.mp hrun
  obtain ⟨rfl, hstands⟩ := stands_of_lebWindow hwindow
  obtain ⟨⟨m, size⟩, hdecode, hlast⟩ := lift_bind_eq_ok.mp hnumber
  obtain ⟨groups, hended, hfront, rfl, hle, hm⟩ := Leb128.decodeUnsigned_eq_ok_iff.mp hdecode
  dsimp only at hlast
  split at hlast
  next hfit =>
    cases hlast
    have hread : Decoder.uleb.Reads groups m.toUInt32 := by
      intro bytes index hs
      obtain ⟨others, hw⟩ := lebWindow_eq hs hended.ne_nil hle
      have hagain : Leb128.decodeUnsigned (groups ++ others) = .ok (m, groups.length) :=
        Leb128.decodeUnsigned_eq_ok_iff.mpr
          ⟨groups, hended, List.prefix_append _ _, rfl, hle, hm⟩
      rw [Decoder.uleb, bind_of_ok hw, lift_of_ok hagain]
      simp only [hfit, if_true]
      rfl
    exact ⟨groups, _, hfront.trans hstands, rfl, hread, hread⟩
  · cases hlast

end Tracks

end Decoder

end Dalvik
