import Dalvik.Proofs.Gather.Closure

/-!
# What a step of gathering ensures

Conditions speak of whatever is gathered later on, so that nothing has to be said about what a step
leaves alone. A step that succeeds keeps soundness, and none fails with a dangling reference.
-/
namespace Dalvik.Gather
open Gathered Result

variable {α β : Type} {o : WriteOptions} {P : Gathered → Prop} {Q : α → Gathered → Prop} {m : Gather α}

/-! ## Choices -/

/-- A choice between two ways to what the rest goes on with. -/
theorem ite_bind_eq {c : Prop} [Decidable c] {x y : Gather α} {f : α → Gather β} :
    (if c then x >>= f else y >>= f) = (if c then x else y) >>= f :=
  (apply_ite (· >>= f) c x y).symm

theorem ite_ite_bind_eq {c d : Prop} [Decidable c] [Decidable d] {x y z : Gather α}
    {f : α → Gather β} : (if c then x >>= f else if d then y >>= f else z >>= f) =
      (if c then x else if d then y else z) >>= f := by
  rw [ite_bind_eq, ite_bind_eq]

/-- If `P` holds from now on, then `Q` does after the step. -/
def Triple (o : WriteOptions) (P : Gathered → Prop) (m : Gather α) (Q : α → Gathered → Prop) : Prop :=
  ∀ g : Gathered, g.Sound o → (∀ g', g ≤ g' → P g') →
    (m g).Resolved ∧ ∀ a g₁, m g = .ok (a, g₁) →
      g₁.Sound o ∧ g ≤ g₁ ∧ ∀ g', g₁ ≤ g' → Q a g'

namespace Triple

/-! ## Rules -/

theorem pure {a : α} (h : ∀ g, P g → Q a g) : Triple o P (pure a) Q := by
  refine fun g hg hP => ⟨trivial, fun b g₁ hb => ?_⟩
  cases hb
  exact ⟨hg, le_rfl, fun g' hle => h g' (hP g' hle)⟩

theorem imp {R : α → Gathered → Prop} (hm : Triple o P m Q) (h : ∀ a g, P g → Q a g → R a g) :
    Triple o P m R := by
  refine fun g hg hP => ⟨(hm g hg hP).1, fun a g₁ ha => ?_⟩
  obtain ⟨hs, hle, hQ⟩ := (hm g hg hP).2 a g₁ ha
  exact ⟨hs, hle, fun g' hle' => h a g' (hP g' (hle.trans hle')) (hQ g' hle')⟩

/-- The condition may say more than the step asks for. -/
theorem weaken {P' : Gathered → Prop} (hm : Triple o P m Q) (h : ∀ g, P' g → P g) : Triple o P' m Q :=
  fun g hg hP => hm g hg fun g' hle => h g' (hP g' hle)

theorem bind {f : α → Gather β} {R : β → Gathered → Prop} (hm : Triple o P m Q)
    (hf : ∀ a, Triple o (fun g => P g ∧ Q a g) (f a) R) : Triple o P (m >>= f) R := by
  intro g hg hP
  obtain ⟨hres, hok⟩ := hm g hg hP
  have next {a g₁} (ha : m g = .ok (a, g₁)) := hf a g₁ (hok a g₁ ha).1 fun g' hle =>
    ⟨hP g' ((hok a g₁ ha).2.1.trans hle), (hok a g₁ ha).2.2 g' hle⟩
  refine ⟨hres.bind fun r hr => (next hr).1, fun b g₂ hb => ?_⟩
  obtain ⟨⟨a, g₁⟩, ha, hb⟩ := bind_eq_ok.mp hb
  obtain ⟨hs, hle, hR⟩ := (next ha).2 b g₂ hb
  exact ⟨hs, (hok a g₁ ha).2.1.trans hle, hR⟩

theorem map {f : α → β} {R : β → Gathered → Prop} (hm : Triple o P m fun a g => R (f a) g) :
    Triple o P (f <$> m) R := by
  refine fun g hg hP => ⟨(hm g hg hP).1.map _, fun b g₁ hb => ?_⟩
  obtain ⟨⟨a, g₂⟩, ha, hb⟩ := map_eq_ok.mp hb
  cases hb
  exact (hm g hg hP).2 a _ ha

theorem lift {x : Result α} (hx : x.Resolved) (h : ∀ a, x = .ok a → ∀ g, P g → Q a g) :
    Triple o P (liftM x) Q := by
  refine fun g hg hP => ⟨hx.map _, fun a g₁ ha => ?_⟩
  obtain ⟨b, hb, ha⟩ := bind_eq_ok.mp ha
  cases ha
  exact ⟨hg, le_rfl, fun g' hle => h a hb g' (hP g' hle)⟩

theorem within {place : String} (hm : Triple o P m Q) : Triple o P (Gather.within place m) Q :=
  fun g hg hP => ⟨resolved_within.mpr (hm g hg hP).1, fun a g₁ ha =>
    (hm g hg hP).2 a g₁ (within_eq_ok_iff.mp ha)⟩

theorem ite {c : Prop} [Decidable c] {x y : Gather α} (hx : c → Triple o P x Q)
    (hy : ¬ c → Triple o P y Q) : Triple o P (if c then x else y) Q := by
  split
  next h => exact hx h
  next h => exact hy h

theorem ite_bind {c : Prop} [Decidable c] {x y : Gather α} {f : α → Gather β}
    {R : β → Gathered → Prop} (hm : Triple o P (if c then x else y) Q)
    (hf : ∀ a, Triple o (fun g => P g ∧ Q a g) (f a) R) :
    Triple o P (if c then x >>= f else y >>= f) R := by
  rw [ite_bind_eq]
  exact bind hm hf

theorem ite_ite_bind {c d : Prop} [Decidable c] [Decidable d] {x y z : Gather α}
    {f : α → Gather β} {R : β → Gathered → Prop}
    (hm : Triple o P (if c then x else if d then y else z) Q)
    (hf : ∀ a, Triple o (fun g => P g ∧ Q a g) (f a) R) :
    Triple o P (if c then x >>= f else if d then y >>= f else z >>= f) R := by
  rw [ite_ite_bind_eq]
  exact bind hm hf

/-- A check that fails with a violation of its own. -/
theorem guard {c : Prop} [Decidable c] {reason : Violation} {k : β → Gather α} {y : Gather α}
    (hy : ¬ c → Triple o P y Q) :
    Triple o P (if c then liftM (Result.violation reason : Result β) >>= k else y) Q := by
  refine ite (fun _ => bind (Q := fun _ _ => False) (lift (resolved_violation reason) nofun) ?_) hy
  exact fun _ _ _ h => (h _ le_rfl).2.elim

theorem mapM {f : α → Gather β} {as : List α} {Q : α → β → Gathered → Prop}
    (h : ∀ a ∈ as, Triple o P (f a) (Q a)) :
    Triple o P (as.mapM f) fun bs g => List.Forall₂ (Q · · g) as bs := by
  induction as with
  | nil =>
    rw [List.mapM_nil]
    exact pure fun _ _ => .nil
  | cons a as ih =>
    rw [List.mapM_cons]
    refine bind (h a List.mem_cons_self) fun b => ?_
    have rest := ih fun x hx => h x (List.mem_cons_of_mem a hx)
    refine bind (fun g hg hP => rest g hg fun g' hle => (hP g' hle).1) fun bs => ?_
    exact pure fun g hg => .cons hg.1.2 hg.2

theorem forM {f : α → Gather PUnit} {as : List α} {Q : α → Gathered → Prop}
    (h : ∀ a ∈ as, Triple o P (f a) fun _ => Q a) :
    Triple o P (as.forM f) fun _ g => ∀ a ∈ as, Q a g := by
  induction as with
  | nil => exact pure fun _ _ => nofun
  | cons a as ih =>
    have rest := ih fun x hx => h x (List.mem_cons_of_mem a hx)
    refine bind (h a List.mem_cons_self) fun _ => ?_
    exact (rest.weaken fun _ => And.left).imp fun _ _ hg hr => List.forall_mem_cons.mpr ⟨hg.2, hr⟩

theorem option_forM {f : α → Gather PUnit} {a : Option α} {Q : α → Gathered → Prop}
    (h : ∀ x ∈ a, Triple o P (f x) fun _ => Q x) :
    Triple o P (a.forM f) fun _ g => ∀ x ∈ a, Q x g := by
  cases a with
  | none => exact pure fun _ _ => nofun
  | some a => exact (h a rfl).imp fun _ _ _ hq x hx => Option.some.inj hx ▸ hq

/-- A loop without a result. -/
theorem forIn {f : α → PUnit → Gather (ForInStep PUnit)} {as : List α} {Q : α → Gathered → Prop}
    (h : ∀ a ∈ as, Triple o P (f a ⟨⟩) fun s g => s = .yield ⟨⟩ ∧ Q a g) :
    Triple o P (ForIn.forIn as PUnit.unit f) fun _ g => ∀ a ∈ as, Q a g := by
  induction as with
  | nil => exact pure fun _ _ => nofun
  | cons a as ih =>
    have rest := ih fun x hx => h x (List.mem_cons_of_mem a hx)
    rw [List.forIn_cons]
    refine bind (h a List.mem_cons_self) fun s => ?_
    cases s with
    | done _ => exact fun _ _ hg => nomatch (hg _ le_rfl).2.1
    | yield _ =>
      refine (rest.weaken fun _ => And.left).imp fun _ _ hg hr => ?_
      exact List.forall_mem_cons.mpr ⟨hg.2.2, hr⟩

end Triple

/-! ## Single steps -/

theorem refer_spec (r : Reference) : Triple o P (refer r) fun _ g => g.Will (.reference r) := by
  refine fun g hg _ => ⟨trivial, fun _ g₁ h => ?_⟩
  cases h
  by_cases hr : ∃ c, r = .callSite c
  · obtain ⟨c, rfl⟩ := hr
    exact ⟨hg.defer _, le_defer _ _, fun g' hle => (will_defer g (.head _)).of_le hle⟩
  · have brings := brings_add (fun c e => hr ⟨c, e⟩) g
    exact ⟨brings.sound hg, brings.le, fun g' hle => Will.of_le hle (.inl brings.has)⟩

theorem defer_spec (d : Deferred) :
    Triple o P (modify (·.defer d)) fun _ g => ∀ p ∈ d.promises, g.Will p := by
  refine fun g hg _ => ⟨trivial, fun _ g₁ h => ?_⟩
  cases h
  exact ⟨hg.defer d, le_defer g d, fun g' hle p hp => (will_defer g hp).of_le hle⟩

/-- Storing an item gives its id, as long as what it needs will be there. -/
theorem share_spec {insert : SharedItems → Nat × SharedItems} {p : Part}
    (hput : ∀ g : Gathered, { g with items := (insert g.items).2 } = g.put p)
    (hid : ∀ g : Gathered, (g.put p).id? p = some (insert g.items).1)
    (hc : ∀ c, p = .code c → o.version.isCompact → c.debug = none)
    (hn : ∀ g, P g → ∀ q ∈ p.needs, g.Will q) :
    Triple o P (share insert) fun id g => g.id? p = some id := by
  refine fun g hg hP => ⟨trivial, fun id g₁ h => ?_⟩
  obtain ⟨rfl, rfl⟩ : (insert g.items).1 = id ∧ g.put p = g₁ := by
    rw [← hput]
    cases h
    exact ⟨rfl, rfl⟩
  have sound : (g.put p).Sound o := by
    refine ⟨fun q hq r hr => ?_, fun ho c hcode => ?_⟩
    · rcases has_of_has_put hq with hq | rfl | hq
      · exact (hg.needs q hq r hr).of_le (le_put g p)
      · exact (hn g (hP g le_rfl) r hr).of_le (le_put g _)
      · exact absurd (hq ▸ hr) List.not_mem_nil
    · by_cases hp : p = .code c
      · exact hc c hp ho
      · exact hg.compact ho c (has_code_of_has_put hp hcode)
  exact ⟨sound, le_put g p, fun g' hle => id?_of_le hle (hid g)⟩

theorem typeList_spec {types : List TypeId}
    (h : ∀ g, P g → ∀ t ∈ types, g.Will (.reference (.type t))) :
    Triple o P (typeList types) fun id g => g.id? (.typeList types) = some id :=
  share_spec (fun _ => rfl) (fun _ => ItemSet.id?_insert_self _ _) nofun fun g hg q hq => by
    obtain ⟨t, ht, rfl⟩ := List.mem_map.mp hq
    exact h g hg t ht

theorem encodedArray_spec {values : List Value}
    (h : ∀ g, P g → ∀ q ∈ (Part.encodedArray values).needs, g.Will q) :
    Triple o P (encodedArray values) fun id g => g.id? (.encodedArray values) = some id :=
  share_spec (fun _ => rfl) (fun _ => ItemSet.id?_insert_self _ _) nofun h

theorem directory_spec {d : AnnotationDirectory}
    (h : ∀ g, P g → ∀ q ∈ Part.ofDirectory d, g.Will q) :
    Triple o P (directory d) fun id g => g.id? (.directory d) = some id :=
  share_spec (fun _ => rfl) (fun _ => ItemSet.id?_insert_self _ _) nofun h

theorem sharedCode_spec {c : SharedCode} (hc : o.version.isCompact → c.debug = none)
    (h : ∀ g, P g → ∀ q ∈ Part.ofCode c, g.Will q) :
    Triple o P (sharedCode c) fun id g => g.id? (.code c) = some id :=
  share_spec (fun _ => rfl) (fun _ => ItemSet.id?_insert_self _ _) (fun _ e => Part.code.inj e ▸ hc) h

theorem debugInfo_spec {d : DebugInfo}
    (h : ∀ g, P g → ∀ r ∈ d.references, g.Will (.reference r)) :
    Triple o P (debugInfo d) fun id g => g.id? (.debugInfo d) = some id :=
  share_spec (fun _ => rfl) (fun _ => ItemSet.id?_insert_self _ _) nofun fun g hg q hq => by
    obtain ⟨r, hr, rfl⟩ := List.mem_map.mp hq
    exact h g hg r hr

end Dalvik.Gather
