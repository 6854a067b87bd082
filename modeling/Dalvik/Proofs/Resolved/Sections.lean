import Dalvik.Proofs.ItemSet
import Dalvik.Proofs.Resolved
import Dalvik.Proofs.Result
import Dalvik.Section

/-!
# Sections that have an offset for every item

Items are placed one behind the other, none before the start of its section, so that an offset is
never 0. Looking one up in a section that covers a set of items is resolved.
-/
namespace Dalvik
open Result

/-- A section with `size` items, each of which has an offset. -/
structure DataSection.Covers (s : DataSection) (size : Nat) : Prop where
  length : s.items.length = size
  offset : ∀ p ∈ s.items, 0 < p.offset

namespace DataSection

variable {α : Type} {s : DataSection} {kind : SectionKind} {start : Nat} {items : List α}

theorem resolved_all {place : Nat → α → Result Placed} (position : Nat)
    (h : ∀ position, ∀ a ∈ items, (place position a).Resolved) :
    (Placed.all place position items).Resolved := by
  induction items generalizing position with
  | nil => trivial
  | cons a as ih =>
    refine (h position a List.mem_cons_self).bind fun p _ => ?_
    exact (ih _ fun position x hx => h position x (List.mem_cons_of_mem a hx)).bind
      fun _ _ => trivial

theorem resolved_build {place : Nat → α → Result Placed}
    (h : ∀ position, ∀ a ∈ items, (place position a).Resolved) :
    (build kind place start items).Resolved := (resolved_all _ h).bind fun _ _ => trivial

theorem resolved_ofItems {alignment : Nat} {encode : α → Result Bytes}
    (h : ∀ a ∈ items, (encode a).Resolved) :
    (ofItems kind alignment encode start items).Resolved :=
  resolved_build fun _ a ha => (h a ha).bind fun _ _ => trivial

theorem covers_all {place : Nat → α → Result Placed} {position : Nat} {out : List Placed}
    (hplace : ∀ {position a p}, place position a = .ok p → position ≤ p.offset)
    (hpos : 0 < position) (h : Placed.all place position items = .ok out) :
    out.length = items.length ∧ ∀ p ∈ out, 0 < p.offset := by
  induction items generalizing position out with
  | nil => cases h; exact ⟨rfl, nofun⟩
  | cons a as ih =>
    obtain ⟨p, hp, h⟩ := bind_eq_ok.mp h
    obtain ⟨rest, hrest, h⟩ := bind_eq_ok.mp h
    obtain rfl := pure_eq_ok.mp h
    obtain ⟨hlen, hoff⟩ := ih (by omega) hrest
    exact ⟨by rw [List.length_cons, List.length_cons, hlen],
      List.forall_mem_cons.mpr ⟨Nat.lt_of_lt_of_le hpos (hplace hp), hoff⟩⟩

theorem start_of_build {place : Nat → α → Result Placed}
    (h : build kind place start items = .ok s) : s.start = start := by
  obtain ⟨out, -, h⟩ := bind_eq_ok.mp h
  cases h
  rfl

theorem covers_build {place : Nat → α → Result Placed}
    (hplace : ∀ {position a p}, place position a = .ok p → position ≤ p.offset)
    (hstart : 0 < start) (h : build kind place start items = .ok s) : s.Covers items.length := by
  obtain ⟨out, hout, h⟩ := bind_eq_ok.mp h
  cases h
  obtain ⟨hlen, hoff⟩ := covers_all hplace hstart hout
  exact ⟨hlen, hoff⟩

theorem covers_ofItems {alignment : Nat} {encode : α → Result Bytes} (hstart : 0 < start)
    (h : ofItems kind alignment encode start items = .ok s) : s.Covers items.length := by
  refine covers_build (fun {position a p} hp => ?_) hstart h
  obtain ⟨bytes, -, hp⟩ := bind_eq_ok.mp hp
  obtain rfl := pure_eq_ok.mp hp
  exact Nat.le_add_right _ _

/-- The sections follow each other. -/
theorem stop_pos {place : Nat → α → Result Placed} (hstart : 0 < start)
    (h : build kind place start items = .ok s) : 0 < s.stop := by
  rw [stop, start_of_build h]
  omega

theorem Covers.resolved_offset {size id : Nat} (h : s.Covers size) (hid : id < size)
    (what : String) : (s.offset what (some id)).Resolved := by
  have hlt : id < s.items.length := h.length ▸ hid
  have hpos := h.offset _ (List.getElem_mem hlt)
  have hget : ((some id).bind fun i => s.items[i]?) = some s.items[id] :=
    List.getElem?_eq_getElem hlt
  rw [DataSection.offset, hget]
  exact resolved_ite (fun h0 => absurd h0 (Nat.ne_of_gt hpos)) fun _ => trivial

/-- An item of a set has a place in the section of that set. -/
theorem Covers.resolved_offset_id {β : Type} [BEq β] [LawfulBEq β] [Hashable β] {set : ItemSet β}
    {b : β} (h : s.Covers set.toList.length) (hb : ∃ i, set.id? b = some i) (what : String) :
    (s.offset what (set.id? b)).Resolved := by
  obtain ⟨i, hi⟩ := hb
  rw [hi]
  exact h.resolved_offset (ItemSet.lt_length_of_id? hi) what

theorem Covers.resolved_optionalOffset {size : Nat} {id : Option Nat} (h : s.Covers size)
    (hid : ∀ i ∈ id, i < size) (what : String) : (s.optionalOffset what id).Resolved := by
  cases id with
  | none => trivial
  | some i => exact h.resolved_offset (hid i rfl) what

end DataSection

end Dalvik
