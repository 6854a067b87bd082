import Dalvik.Error
import Mathlib

/-!
# Results that succeed

What it means for a sequence of steps to succeed: every step does. These rules turn a successful
run into the values of its steps.
-/
namespace Dalvik.Result
variable {α β γ δ : Type}

/-! ## Steps -/

theorem bind_eq_ok {x : Result α} {f : α → Result β} {b : β} :
    (x >>= f) = .ok b ↔ ∃ a, x = .ok a ∧ f a = .ok b := by
  cases x with
  | error e => simp [bind, Except.bind]
  | ok a => simp [bind, Except.bind]

theorem ok_bind {a : α} {f : α → Result β} : ((.ok a : Result α) >>= f) = f a := rfl

theorem pure_eq_ok {a b : α} : (pure a : Result α) = .ok b ↔ a = b := by
  simp [pure, Except.pure]

theorem map_eq_ok {x : Result α} {f : α → β} {b : β} :
    (f <$> x) = .ok b ↔ ∃ a, x = .ok a ∧ f a = b := by
  cases x <;> simp

theorem toOption_eq_some {x : Result α} {a : α} : x.toOption = some a ↔ x = .ok a := by
  cases x <;> simp [Except.toOption]

@[simp] theorem violation_ne_ok {reason : Violation} {a : α} : Result.violation reason ≠ .ok a :=
  nofun

@[simp] theorem unsupported_ne_ok {reason : Unsupported} {a : α} :
    Result.unsupported reason ≠ .ok a := nofun

@[simp] theorem unresolved_ne_ok {reason : Unresolved} {a : α} : Result.unresolved reason ≠ .ok a :=
  nofun

@[simp] theorem malformed_ne_ok {reason : Malformed} {a : α} : Result.malformed reason ≠ .ok a :=
  nofun

/-- A check that fails keeps what follows it from succeeding. -/
theorem guard_eq_ok {c : Prop} [Decidable c] {x : Result γ} {k : γ → Result β} {y : Result β}
    {b : β} (hx : ∀ a, x ≠ .ok a) :
    (if c then x >>= k else y) = .ok b ↔ ¬ c ∧ y = .ok b := by
  by_cases hc : c
  · simp only [hc, if_true, not_true, false_and, iff_false]
    intro h
    obtain ⟨a, ha, -⟩ := bind_eq_ok.mp h
    exact hx a ha
  · simp [hc]

theorem violation_guard_eq_ok {c : Prop} [Decidable c] {reason : Violation} {k : γ → Result β}
    {y : Result β} {b : β} :
    (if c then Result.violation reason >>= k else y) = .ok b ↔ ¬ c ∧ y = .ok b :=
  guard_eq_ok fun _ => violation_ne_ok

/-- A choice between a value and a violation. -/
theorem ite_violation_eq_ok {c : Prop} [Decidable c] {reason : Violation} {y : Result β} {b : β} :
    (if c then y else Result.violation reason) = .ok b ↔ c ∧ y = .ok b := by
  by_cases hc : c <;> simp [hc]

theorem violation_ite_eq_ok {c : Prop} [Decidable c] {reason : Violation} {y : Result β} {b : β} :
    (if c then Result.violation reason else y) = .ok b ↔ ¬ c ∧ y = .ok b := by
  by_cases hc : c <;> simp [hc]

theorem unsupported_ite_eq_ok {c : Prop} [Decidable c] {reason : Unsupported} {y : Result β} {b : β} :
    (if c then Result.unsupported reason else y) = .ok b ↔ ¬ c ∧ y = .ok b := by
  by_cases hc : c <;> simp [hc]

/-! ## Lists -/

theorem mapM_eq_ok {f : α → Result β} {as : List α} {bs : List β} :
    as.mapM f = .ok bs ↔ List.Forall₂ (fun a b => f a = .ok b) as bs := by
  induction as generalizing bs with
  | nil =>
    rw [List.mapM_nil, pure_eq_ok, List.forall₂_nil_left_iff, eq_comm]
  | cons a as ih =>
    rw [List.mapM_cons, bind_eq_ok]
    constructor
    · rintro ⟨b, hb, h⟩
      obtain ⟨rest, hr, h⟩ := bind_eq_ok.mp h
      obtain rfl := pure_eq_ok.mp h
      exact .cons hb (ih.mp hr)
    · rintro (_ | ⟨hb, hr⟩)
      exact ⟨_, hb, bind_eq_ok.mpr ⟨_, ih.mpr hr, rfl⟩⟩

theorem forM_eq_ok {f : α → Result Unit} {as : List α} {u : Unit} (h : as.forM f = .ok u) :
    ∀ a ∈ as, ∃ u, f a = .ok u := by
  induction as with
  | nil => exact nofun
  | cons a as ih =>
    obtain ⟨v, ha, h⟩ := bind_eq_ok.mp h
    exact List.forall_mem_cons.mpr ⟨⟨v, ha⟩, ih h⟩

/-- What every step keeps is kept by a run of them that succeeds. -/
theorem foldlM_induction {I : β → Prop} {f : β → α → Result β} {as : List α} {b b' : β}
    (hf : ∀ a ∈ as, ∀ b b', I b → f b a = .ok b' → I b') (hb : I b)
    (h : as.foldlM f b = .ok b') : I b' := by
  induction as generalizing b with
  | nil => exact pure_eq_ok.mp h ▸ hb
  | cons a as ih =>
    rw [List.foldlM_cons] at h
    obtain ⟨hfirst, hrest⟩ := List.forall_mem_cons.mp hf
    obtain ⟨b₁, ha, h⟩ := bind_eq_ok.mp h
    exact ih hrest (hfirst b b₁ hb ha) h

theorem exists_mapM_eq_ok {f : α → Result β} {as : List α} (h : ∀ a ∈ as, ∃ b, f a = .ok b) :
    ∃ bs, as.mapM f = .ok bs := by
  induction as with
  | nil => exact ⟨[], rfl⟩
  | cons a as ih =>
    obtain ⟨⟨b, hb⟩, hrest⟩ := List.forall_mem_cons.mp h
    obtain ⟨bs, hbs⟩ := ih hrest
    exact ⟨b :: bs, mapM_eq_ok.mpr (.cons hb (mapM_eq_ok.mp hbs))⟩

theorem exists_left_of_mem {R : α → β → Prop} {as : List α} {bs : List β}
    (h : List.Forall₂ R as bs) {b : β} (hb : b ∈ bs) : ∃ a ∈ as, R a b := by
  induction h with
  | nil => exact absurd hb List.not_mem_nil
  | cons hab _ ih =>
    rcases List.mem_cons.mp hb with rfl | hb
    · exact ⟨_, List.mem_cons_self, hab⟩
    · obtain ⟨a, ha, hr⟩ := ih hb
      exact ⟨a, List.mem_cons_of_mem _ ha, hr⟩

/-- Lists whose entries belong to those of the same list belong together. -/
theorem forall₂_of_common {R : α → β → Prop} {S : α → γ → Prop} {as : List α} {bs : List β}
    {cs : List γ} (h : List.Forall₂ R as bs) (h' : List.Forall₂ S as cs) :
    List.Forall₂ (fun b c => ∃ a, R a b ∧ S a c) bs cs := by
  induction h generalizing cs with
  | nil =>
    cases h'
    exact .nil
  | @cons a b _ _ hab _ ih =>
    cases h' with
    | cons hac hrest => exact .cons ⟨a, hab, hac⟩ (ih hrest)

/-- What holds of the entries of a list in their order carries over to what belongs to them. -/
theorem pairwise_of_forall₂ {R : α → β → Prop} {S : α → α → Prop} {T : β → β → Prop} {as : List α}
    {bs : List β} (h : List.Forall₂ R as bs) (hs : as.Pairwise S)
    (ht : ∀ a a' b b', S a a' → R a b → R a' b' → T b b') : bs.Pairwise T := by
  induction h with
  | nil => exact .nil
  | @cons a b _ _ hab hrest ih =>
    obtain ⟨hfirst, hs⟩ := List.pairwise_cons.mp hs
    refine List.pairwise_cons.mpr ⟨fun b' hb => ?_, ih hs⟩
    obtain ⟨a', ha, hr⟩ := exists_left_of_mem hrest hb
    exact ht a a' b b' (hfirst a' ha) hab hr

/-- Steps that succeed wherever others do give the same. -/
theorem mapM_eq_ok_of_forall₂ {f : α → Result γ} {k : β → Result γ} {as : List α} {bs : List β}
    {cs : List γ} (h : List.Forall₂ (fun a b => ∀ c, f a = .ok c → k b = .ok c) as bs)
    (hrun : as.mapM f = .ok cs) : bs.mapM k = .ok cs := by
  refine mapM_eq_ok.mpr ((forall₂_of_common h (mapM_eq_ok.mp hrun)).imp fun b c ⟨a, hab, hac⟩ => ?_)
  exact hab c hac

theorem map_eq_of_forall₂ {R : α → β → Prop} {f : α → γ} {k : β → γ}
    {as : List α} {bs : List β} (h : List.Forall₂ R as bs)
    (hk : ∀ a ∈ as, ∀ b, R a b → f a = k b) : as.map f = bs.map k := by
  induction h with
  | nil => rfl
  | @cons a b _ _ hab _ ih =>
    have hrest := ih fun x hx => hk x (List.mem_cons_of_mem a hx)
    rw [List.map_cons, List.map_cons, hk a List.mem_cons_self b hab, hrest]

/-- Where different names have different indices, owners with distinct names have distinct ones. -/
theorem nodup_of_forall₂ {f : α → Result β} (hf : ∀ a b c, f a = .ok c → f b = .ok c → a = b)
    {name : γ → α} {key : δ → β} {owners : List γ} {entries : List δ}
    (h : List.Forall₂ (fun w e => f (name w) = .ok (key e)) owners entries)
    (hd : (owners.map name).Nodup) : (entries.map key).Nodup := by
  have hrel : List.Forall₂ (fun a b => f a = .ok b) (owners.map name) (entries.map key) :=
    List.forall₂_map_left_iff.mpr (List.forall₂_map_right_iff.mpr h)
  refine (List.rel_nodup ⟨fun a b c ha hb => hf a b c ha hb, fun a b c hb hc => ?_⟩ hrel).mp hd
  exact Except.ok.inj (hb.symm.trans hc)

end Dalvik.Result
