import Dalvik.Error
import Mathlib

/-!
# What results fail with

A result stays within a set of causes if it is a value or fails with one of them. The rules follow
the ways in which results are put together; what is added to an error on its way out names places and
leaves the cause as it is.
-/
namespace Dalvik.Result

variable {α β : Type} {P : Cause → Prop}

/-- Whatever the result fails with is among the causes. -/
def FailsWith (P : Cause → Prop) : Result α → Prop
  | .ok _ => True
  | .error e => P e.cause

theorem failsWith_iff {x : Result α} : x.FailsWith P ↔ ∀ e, x = .error e → P e.cause := by
  cases x <;> simp [FailsWith]

theorem failsWith_violation {reason : Violation} (h : P (.violation reason)) :
    FailsWith P (Result.violation reason : Result α) := h

theorem FailsWith.bind {x : Result α} {f : α → Result β} (hx : x.FailsWith P)
    (hf : ∀ a, x = .ok a → (f a).FailsWith P) : (x >>= f).FailsWith P := by
  cases x with
  | ok a => exact hf a rfl
  | error e => exact hx

theorem FailsWith.map {x : Result α} (f : α → β) (hx : x.FailsWith P) : (f <$> x).FailsWith P := by
  cases x with
  | ok a => trivial
  | error e => exact hx

theorem failsWith_within {x : Result α} {place : String} :
    (x.within place).FailsWith P ↔ x.FailsWith P := by
  cases x <;> rfl

theorem failsWith_ite {c : Prop} [Decidable c] {x y : Result α} (hx : c → x.FailsWith P)
    (hy : ¬ c → y.FailsWith P) : (if c then x else y).FailsWith P := by
  split
  next h => exact hx h
  next h => exact hy h

/-- A check that fails with a violation of its own. -/
theorem failsWith_guard {c : Prop} [Decidable c] {reason : Violation} {k : α → Result β}
    {y : Result β} (h : P (.violation reason)) (hy : ¬ c → y.FailsWith P) :
    (if c then Result.violation reason >>= k else y).FailsWith P :=
  failsWith_ite (fun _ => (failsWith_violation h).bind nofun) hy

theorem failsWith_mapM {f : α → Result β} {as : List α} (h : ∀ a ∈ as, (f a).FailsWith P) :
    (as.mapM f).FailsWith P := by
  induction as with
  | nil => rw [List.mapM_nil]; trivial
  | cons a as ih =>
    rw [List.mapM_cons]
    refine (h a List.mem_cons_self).bind fun b _ => ?_
    exact (ih fun x hx => h x (List.mem_cons_of_mem a hx)).bind fun _ _ => trivial

theorem failsWith_option_mapM {f : α → Result β} {a : Option α} (h : ∀ x ∈ a, (f x).FailsWith P) :
    (a.mapM f).FailsWith P := by
  cases a with
  | none => trivial
  | some a => exact (h a rfl).map some

theorem failsWith_forM {f : α → Result PUnit} {as : List α} (h : ∀ a ∈ as, (f a).FailsWith P) :
    (as.forM f).FailsWith P := by
  induction as with
  | nil => trivial
  | cons a as ih =>
    exact (h a List.mem_cons_self).bind fun _ _ => ih fun x hx => h x (List.mem_cons_of_mem a hx)

theorem failsWith_foldlM {f : β → α → Result β} {as : List α} (b : β)
    (h : ∀ b, ∀ a ∈ as, (f b a).FailsWith P) : (as.foldlM f b).FailsWith P := by
  induction as generalizing b with
  | nil => trivial
  | cons a as ih =>
    rw [List.foldlM_cons]
    refine (h b a List.mem_cons_self).bind fun b' _ => ?_
    exact ih b' fun b x hx => h b x (List.mem_cons_of_mem a hx)

end Dalvik.Result
