import Dalvik.Recall
import Dalvik.Proofs.Result

/-!
# What is kept changes no result

A memory is sound if it keeps for a key what the key leads to. A reading agrees with a result if it
gives that result from every sound memory and leaves a sound one. Steps that agree can be put
together, and what has been found for a key can be kept.
-/
namespace Dalvik

/-- What every key leads to. -/
abbrev Answers := (key : Key) → Result key.Value

/-- For a key nothing is kept but what it leads to. -/
def Memory.Sound (answer : Answers) (μ : Memory) : Prop :=
  ∀ key value, μ.get? key = some value → answer key = .ok value

namespace Memory.Sound
variable {answer : Answers} {μ : Memory}

theorem empty : Sound answer ∅ := by
  intro key value h
  simp at h

theorem insert (h : μ.Sound answer) {key : Key} {value : key.Value}
    (hvalue : answer key = .ok value) : Sound answer (μ.insert key value) := by
  intro other found hfound
  rw [Std.DHashMap.get?_insert] at hfound
  split at hfound
  next heq =>
    obtain rfl : key = other := by simpa using heq
    obtain rfl : value = found := by simpa using hfound
    exact hvalue
  · exact h other found hfound

end Memory.Sound

namespace Recall

/-- From every sound memory the reading gives the result, and leaves a sound memory. -/
def Agrees {α : Type} (answer : Answers) (x : Recall α) (r : Result α) : Prop :=
  ∀ μ : Memory, μ.Sound answer → ∃ μ' : Memory, x μ = (r, μ') ∧ μ'.Sound answer

theorem bind_apply {α β : Type} {x : Recall α} {f : α → Recall β} {μ : Memory} :
    (x >>= f) μ = match x μ with
      | (.ok a, μ') => f a μ'
      | (.error e, μ') => (.error e, μ') := by
  change (ExceptT.bindCont f (x μ).1 : StateM Memory (Result β)) (x μ).2 = _
  obtain ⟨r, μ'⟩ := x μ
  cases r <;> rfl

theorem get_apply {μ : Memory} : (get : Recall Memory) μ = (.ok μ, μ) := rfl

theorem remembered_of_some {key : Key} {find : Recall key.Value} {μ : Memory} {value : key.Value}
    (h : μ.get? key = some value) : remembered key find μ = (.ok value, μ) := by
  rw [remembered, bind_apply, get_apply]
  dsimp only
  rw [h]
  rfl

theorem remembered_of_none {key : Key} {find : Recall key.Value} {μ : Memory}
    (h : μ.get? key = none) : remembered key find μ =
      match find μ with
      | (.ok value, μ') => (.ok value, μ'.insert key value)
      | (.error e, μ') => (.error e, μ') := by
  rw [remembered, bind_apply, get_apply]
  dsimp only
  rw [h]
  dsimp only
  rw [bind_apply]
  obtain ⟨r, μ'⟩ := find μ
  cases r <;> rfl

namespace Agrees
variable {α β : Type} {answer : Answers} {x : Recall α} {r : Result α}

/-- A result that does not depend on the memory. -/
theorem result (r : Result α) : Agrees answer (liftM r) r :=
  fun μ h => ⟨μ, rfl, h⟩

theorem pure (a : α) : Agrees answer (Pure.pure a) (Pure.pure a) :=
  fun μ h => ⟨μ, rfl, h⟩

theorem bind {f : α → Recall β} {k : α → Result β} (hx : Agrees answer x r)
    (hf : ∀ a, Agrees answer (f a) (k a)) : Agrees answer (x >>= f) (r >>= k) := by
  intro μ h
  obtain ⟨μ₁, hrun, h₁⟩ := hx μ h
  cases r with
  | error e =>
    exact ⟨μ₁, by rw [bind_apply, hrun]; rfl, h₁⟩
  | ok a =>
    obtain ⟨μ₂, hlast, h₂⟩ := hf a μ₁ h₁
    exact ⟨μ₂, by rw [bind_apply, hrun]; exact hlast, h₂⟩

/-- A first step that does not depend on the memory. -/
theorem result_bind {f : α → Recall β} {k : α → Result β} (hf : ∀ a, Agrees answer (f a) (k a)) :
    Agrees answer (liftM r >>= f) (r >>= k) :=
  (result r).bind hf

theorem ite {c : Prop} [Decidable c] {y : Recall α} {r' : Result α} (hx : Agrees answer x r)
    (hy : Agrees answer y r') : Agrees answer (if c then x else y) (if c then r else r') := by
  split
  · exact hx
  · exact hy

theorem within (hx : Agrees answer x r) (place : String) :
    Agrees answer (Recall.within place x) (r.within place) := by
  intro μ h
  obtain ⟨μ', hrun, h'⟩ := hx μ h
  refine ⟨μ', ?_, h'⟩
  change (fun p : Result α × Memory => (p.1.within place, p.2)) (x μ) = _
  rw [hrun]

/-- What is kept is what would be found, so it does not matter which of the two is taken. -/
theorem remembered {key : Key} {find : Recall key.Value} (h : Agrees answer find (answer key)) :
    Agrees answer (Recall.remembered key find) (answer key) := by
  intro μ hμ
  cases hkept : μ.get? key with
  | some value => exact ⟨μ, by rw [remembered_of_some hkept, hμ key value hkept], hμ⟩
  | none =>
    obtain ⟨μ', hrun, hμ'⟩ := h μ hμ
    rw [remembered_of_none hkept, hrun]
    cases hfound : answer key with
    | error e => exact ⟨μ', rfl, hμ'⟩
    | ok value => exact ⟨μ'.insert key value, rfl, hμ'.insert hfound⟩

/-- A value that is kept unless it is known beforehand. -/
theorem remembered_unless {key : Key} {c : Prop} [Decidable c] {find known : Recall key.Value}
    {r r' : Result key.Value} (hkey : answer key = if c then r else r')
    (hknown : Agrees answer known r) (hfind : Agrees answer find r') :
    Agrees answer (if c then known else Recall.remembered key find) (if c then r else r') := by
  by_cases hc : c
  · rw [if_pos hc, if_pos hc]
    exact hknown
  · rw [if_neg hc] at hkey ⊢
    rw [if_neg hc, ← hkey]
    exact remembered (hkey ▸ hfind)

theorem mapM {f : α → Recall β} {k : α → Result β} (h : ∀ a, Agrees answer (f a) (k a))
    (as : List α) : Agrees answer (as.mapM f) (as.mapM k) := by
  induction as with
  | nil => exact .pure []
  | cons a as ih =>
    rw [List.mapM_cons, List.mapM_cons]
    exact (h a).bind fun b => ih.bind fun bs => .pure (b :: bs)

theorem optionMapM {f : α → Recall β} {k : α → Result β} (h : ∀ a, Agrees answer (f a) (k a)) :
    (o : Option α) → Agrees answer (o.mapM f) (o.mapM k)
  | none => .pure none
  | some a => (h a).bind fun b => .pure (some b)

end Agrees
end Recall

/-- The values that one source gives with the help of the memory are those of the other. -/
structure RecallSource.Agrees (answer : Answers) (t : RecallSource) (s : Source) : Prop where
  string : ∀ i, (t.string i).Agrees answer (s.string i)
  type : ∀ i, (t.type i).Agrees answer (s.type i)
  proto : ∀ i, (t.proto i).Agrees answer (s.proto i)
  field : ∀ i, (t.field i).Agrees answer (s.field i)
  method : ∀ i, (t.method i).Agrees answer (s.method i)
  methodHandle : ∀ i, (t.methodHandle i).Agrees answer (s.methodHandle i)
  callSite : ∀ i, (t.callSite i).Agrees answer (s.callSite i)

/-! ## Decoders -/

namespace Decoder
variable {α β : Type} {bytes : ByteArray} {index : Nat}

theorem decodeAt_bind {d : Decoder α} {f : α → Decoder β} :
    (d >>= f).decodeAt bytes index =
      d.decodeAt bytes index >>= fun (a, after) => (f a).decodeAt bytes after := by
  have hstep : (d >>= f) bytes index = EStateM.bind (d bytes) (fun a => f a bytes) index := rfl
  unfold decodeAt
  rw [hstep, EStateM.bind]
  cases d bytes index <;> rfl

theorem decodeAt_lift (r : Result α) :
    (liftM r : Decoder α).decodeAt bytes index = r >>= fun a => pure (a, index) := by
  cases r <;> rfl

theorem decodeAt_within (place : String) (d : Decoder α) :
    (d.within place).decodeAt bytes index = (d.decodeAt bytes index).within place := by
  unfold decodeAt within
  cases d bytes index <;> rfl

theorem decodeAt_upTo (limit : Nat) (d : Decoder α) :
    (d.upTo limit).decodeAt bytes index =
      Access.slice bytes 0 limit >>= fun part => d.decodeAt part index := by
  unfold decodeAt upTo
  cases Access.slice bytes 0 limit <;> rfl

theorem valueAt_eq_decodeAt (d : Decoder α) :
    d.valueAt bytes index = d.decodeAt bytes index >>= fun p => pure p.1 := by
  unfold decodeAt valueAt
  cases d bytes index <;> rfl

end Decoder

namespace RecallDecoder

/-- At every position the two read the same, the one with the help of the memory. -/
def Agrees {α : Type} (answer : Answers) (x : RecallDecoder α) (d : Decoder α) : Prop :=
  ∀ bytes index, Recall.Agrees answer (x bytes index) (d.decodeAt bytes index)

namespace Agrees
variable {α β : Type} {answer : Answers} {x : RecallDecoder α} {d : Decoder α}

/-- A decoder that needs no memory. -/
theorem decoder (d : Decoder α) : Agrees answer (liftM d) d :=
  fun bytes index => .result (d.decodeAt bytes index)

theorem pure (a : α) : Agrees answer (Pure.pure a) (Pure.pure a) :=
  fun _ index => .pure (a, index)

theorem bind {f : α → RecallDecoder β} {k : α → Decoder β} (hx : Agrees answer x d)
    (hf : ∀ a, Agrees answer (f a) (k a)) : Agrees answer (x >>= f) (d >>= k) := by
  intro bytes index
  rw [Decoder.decodeAt_bind]
  exact (hx bytes index).bind fun (a, after) => hf a bytes after

theorem decoder_bind {f : α → RecallDecoder β} {k : α → Decoder β}
    (hf : ∀ a, Agrees answer (f a) (k a)) : Agrees answer (liftM d >>= f) (d >>= k) :=
  (decoder d).bind hf

theorem lifted {y : Recall α} {r : Result α} (h : y.Agrees answer r) :
    Agrees answer (liftM y) (liftM r) := by
  intro bytes index
  rw [Decoder.decodeAt_lift]
  exact h.bind fun a => .pure (a, index)

theorem lifted_bind {y : Recall α} {r : Result α} {f : α → RecallDecoder β} {k : α → Decoder β}
    (h : y.Agrees answer r) (hf : ∀ a, Agrees answer (f a) (k a)) :
    Agrees answer (liftM y >>= f) (liftM r >>= k) :=
  (lifted h).bind hf

theorem ite {c : Prop} [Decidable c] {y : RecallDecoder α} {e : Decoder α}
    (hx : Agrees answer x d) (hy : Agrees answer y e) :
    Agrees answer (if c then x else y) (if c then d else e) := by
  split
  · exact hx
  · exact hy

/-- A check before the rest. -/
theorem guard {c : Prop} [Decidable c] {reason : Malformed} (h : Agrees answer x d) :
    Agrees answer (if c then liftM (Decoder.fail reason : Decoder β) >>= fun _ => x else x)
      (if c then (Decoder.fail reason : Decoder β) >>= fun _ => d else d) :=
  ite (decoder_bind fun _ => h) h

theorem within (hx : Agrees answer x d) (place : String) :
    Agrees answer (x.within place) (d.within place) := by
  intro bytes index
  rw [Decoder.decodeAt_within]
  exact (hx bytes index).within place

theorem upTo (hx : Agrees answer x d) (limit : Nat) :
    Agrees answer (x.upTo limit) (d.upTo limit) := by
  intro bytes index
  rw [Decoder.decodeAt_upTo]
  exact .result_bind fun part => hx part index

theorem go (hx : Agrees answer x d) (count : Nat) (found : List α) :
    Agrees answer (repeated.go x count found) (Decoder.repeated.go d count found) := by
  induction count generalizing found with
  | zero => exact pure found.reverse
  | succ count ih => exact hx.bind fun a => ih (a :: found)

theorem repeated (hx : Agrees answer x d) (count : Nat) :
    Agrees answer (x.repeated count) (d.repeated count) :=
  hx.go count []

theorem mapM {f : α → RecallDecoder β} {k : α → Decoder β} (h : ∀ a, Agrees answer (f a) (k a))
    (as : List α) : Agrees answer (as.mapM f) (as.mapM k) := by
  induction as with
  | nil => exact .pure []
  | cons a as ih =>
    rw [List.mapM_cons, List.mapM_cons]
    exact (h a).bind fun b => ih.bind fun bs => .pure (b :: bs)

theorem valueAt (hx : Agrees answer x d) (bytes : ByteArray) (index : Nat) :
    Recall.Agrees answer (x.valueAt bytes index) (d.valueAt bytes index) := by
  rw [Decoder.valueAt_eq_decodeAt]
  exact (hx bytes index).bind fun p => .pure p.1

end Agrees
end RecallDecoder
end Dalvik
