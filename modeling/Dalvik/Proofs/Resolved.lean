import Dalvik.Proofs.Causes

/-!
# Results without a dangling reference

A result is resolved if it is a value, or an error of another kind than that for references which
lead nowhere. The rules follow the ways in which results are put together.
-/
namespace Dalvik.Result

variable {α β : Type}

/-- True unless a reference was found to lead nowhere. -/
def Resolved : Result α → Prop
  | .ok _ => True
  | .error e => e.kind ≠ .unresolvedReference

/-- Any cause but a reference that leads nowhere. -/
def Found (c : Cause) : Prop := c.kind ≠ .unresolvedReference

theorem resolved_of_failsWith {x : Result α} (h : x.FailsWith Found) : x.Resolved := h

@[simp] theorem resolved_ok (a : α) : Resolved (.ok a) := trivial

@[simp] theorem resolved_pure (a : α) : Resolved (pure a : Result α) := trivial

@[simp] theorem resolved_violation (reason : Violation) :
    Resolved (Result.violation reason : Result α) := nofun

@[simp] theorem resolved_unsupported (reason : Unsupported) :
    Resolved (Result.unsupported reason : Result α) := nofun

theorem Resolved.bind {x : Result α} {f : α → Result β} (hx : x.Resolved)
    (hf : ∀ a, x = .ok a → (f a).Resolved) : (x >>= f).Resolved :=
  FailsWith.bind (P := Found) hx hf

theorem Resolved.map {x : Result α} (f : α → β) (hx : x.Resolved) : (f <$> x).Resolved :=
  FailsWith.map (P := Found) f hx

theorem resolved_within {x : Result α} {place : String} :
    (x.within place).Resolved ↔ x.Resolved := failsWith_within (P := Found)

theorem resolved_ite {c : Prop} [Decidable c] {x y : Result α} (hx : c → x.Resolved)
    (hy : ¬ c → y.Resolved) : (if c then x else y).Resolved :=
  failsWith_ite (P := Found) hx hy

/-- A check that fails with a violation of its own. -/
theorem resolved_guard {c : Prop} [Decidable c] {reason : Violation} {k : α → Result β}
    {y : Result β} (hy : ¬ c → y.Resolved) :
    (if c then Result.violation reason >>= k else y).Resolved :=
  resolved_ite (fun _ => (resolved_violation reason).bind nofun) hy

theorem resolved_mapM {f : α → Result β} {as : List α} (h : ∀ a ∈ as, (f a).Resolved) :
    (as.mapM f).Resolved := failsWith_mapM (P := Found) h

theorem resolved_option_mapM {f : α → Result β} {a : Option α} (h : ∀ x ∈ a, (f x).Resolved) :
    (a.mapM f).Resolved := failsWith_option_mapM (P := Found) h

theorem resolved_forM {f : α → Result PUnit} {as : List α} (h : ∀ a ∈ as, (f a).Resolved) :
    (as.forM f).Resolved := failsWith_forM (P := Found) h

theorem resolved_foldlM {f : β → α → Result β} {as : List α} (b : β)
    (h : ∀ b, ∀ a ∈ as, (f b a).Resolved) : (as.foldlM f b).Resolved :=
  failsWith_foldlM (P := Found) b h

end Dalvik.Result
