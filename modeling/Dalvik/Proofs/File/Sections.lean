import Dalvik.Contents.Data
import Dalvik.Proofs.ItemSet
import Dalvik.Proofs.Reads
import Dalvik.Proofs.Resolved.Sections

/-!
# Sections show their items

Sections follow each other, and so do the items in a section. When the bytes of all of them stand
somewhere, every item stands where its offset says.
-/
namespace Dalvik
open Result

namespace DataSection

variable {α : Type} {kind : SectionKind} {start position : Nat} {items : List α} {s : DataSection}
  {data : ByteArray}

/-- Every item stands at its offset, in the bytes that `encode` gives for it. -/
def Shows (s : DataSection) (data : ByteArray) (encode : α → Result Bytes) (items : List α) :
    Prop :=
  ∀ (i : Nat) (a : α), items[i]? = some a →
    ∃ (p : Placed) (b : Bytes), s.items[i]? = some p ∧ encode a = .ok b ∧
      b.Stands data p.offset ∧ p.offset ≤ data.size

theorem placed_of_all {place : Nat → α → Result Placed} {out : List Placed}
    (h : Placed.all place position items = .ok out)
    (hs : Bytes.Stands (out.flatMap Placed.bytes) data position)
    (hfit : position + (out.flatMap Placed.bytes).length ≤ data.size) {i : Nat} {a : α}
    (ha : items[i]? = some a) :
    ∃ q p, out[i]? = some p ∧ place q a = .ok p ∧ p.bytes.Stands data q ∧ position ≤ q ∧
      q + p.bytes.length ≤ data.size := by
  induction items generalizing position out i with
  | nil => simp at ha
  | cons x xs ih =>
    obtain ⟨p, hp, h⟩ := bind_eq_ok.mp h
    obtain ⟨rest, hrest, h⟩ := bind_eq_ok.mp h
    obtain rfl := pure_eq_ok.mp h
    rw [List.flatMap_cons] at hs
    rw [List.flatMap_cons, List.length_append] at hfit
    cases i with
    | zero =>
      have hx : x = a := by simpa using ha
      subst hx
      exact ⟨position, p, rfl, hp, hs.left, Nat.le_refl _, by omega⟩
    | succ i =>
      have ha : xs[i]? = some a := by simpa using ha
      obtain ⟨q, p', hget, hplace, hstands, hle, hinside⟩ := ih hrest hs.right (by omega) ha
      exact ⟨q, p', by simpa using hget, hplace, hstands, by omega, hinside⟩

theorem length_of_build {place : Nat → α → Result Placed}
    (h : build kind place start items = .ok s) : s.items.length = items.length := by
  obtain ⟨out, hout, h⟩ := bind_eq_ok.mp h
  cases h
  clear h
  induction items generalizing start out with
  | nil =>
    cases hout
    rfl
  | cons a as ih =>
    obtain ⟨p, hp, hout⟩ := bind_eq_ok.mp hout
    obtain ⟨rest, hrest, hout⟩ := bind_eq_ok.mp hout
    obtain rfl := pure_eq_ok.mp hout
    have hlength := ih rest hrest
    simpa using hlength

theorem placed_of_build {place : Nat → α → Result Placed}
    (h : build kind place start items = .ok s) (hs : s.bytes.Stands data s.start)
    (hfit : s.stop ≤ data.size) {i : Nat} {a : α} (ha : items[i]? = some a) :
    ∃ q p, s.items[i]? = some p ∧ place q a = .ok p ∧ p.bytes.Stands data q ∧ s.start ≤ q ∧
      q + p.bytes.length ≤ data.size := by
  obtain ⟨out, hout, h⟩ := bind_eq_ok.mp h
  cases h
  exact placed_of_all hout hs hfit ha

theorem shows_of_ofItems {alignment : Nat} {encode : α → Result Bytes}
    (h : ofItems kind alignment encode start items = .ok s) (hs : s.bytes.Stands data s.start)
    (hfit : s.stop ≤ data.size) : s.Shows data encode items := by
  intro i a ha
  obtain ⟨q, p, hget, hp, hstands, -, hinside⟩ := placed_of_build h hs hfit ha
  obtain ⟨b, hb, hp⟩ := bind_eq_ok.mp hp
  obtain rfl := pure_eq_ok.mp hp
  refine ⟨_, b, hget, hb, hstands.right, ?_⟩
  simp only [Placed.aligned, List.length_append] at hinside ⊢
  omega

/-- The offset of an item that has its place. -/
theorem offset_eq_ok {what : String} {id : Nat} {p : Placed} (hget : s.items[id]? = some p)
    (hp : p.offset < UInt32.size) {offset : UInt32} (ho : s.offset what (some id) = .ok offset) :
    offset ≠ 0 ∧ offset.toNat = p.offset := by
  simp only [DataSection.offset, Option.bind_some, hget] at ho
  split at ho
  · cases ho
  next hne =>
    cases ho
    exact ⟨ofNat_ne_zero (Nat.pos_of_ne_zero hne) hp, UInt32.toNat_ofNat_of_lt' hp⟩

/-- What an offset leads to. -/
theorem Shows.of_offset {encode : α → Result Bytes} (h : s.Shows data encode items)
    (hd : data.size < UInt32.size) {what : String} {id : Nat} {a : α} (ha : items[id]? = some a)
    {offset : UInt32} (ho : s.offset what (some id) = .ok offset) :
    offset ≠ 0 ∧ ∃ b, encode a = .ok b ∧ b.Stands data offset.toNat := by
  obtain ⟨p, b, hget, hb, hstands, hle⟩ := h id a ha
  obtain ⟨hne, hnat⟩ := offset_eq_ok hget (by omega) ho
  exact ⟨hne, b, hb, by rwa [hnat]⟩

theorem Shows.of_offset_id {α : Type} [BEq α] [LawfulBEq α] [Hashable α] {set : ItemSet α}
    {encode : α → Result Bytes} (h : s.Shows data encode set.toList) (hd : data.size < UInt32.size)
    {what : String} {a : α} {offset : UInt32} (ho : s.offset what (set.id? a) = .ok offset) :
    offset ≠ 0 ∧ ∃ b, encode a = .ok b ∧ b.Stands data offset.toNat := by
  cases hid : set.id? a with
  | none =>
    rw [hid] at ho
    cases ho
  | some id =>
    rw [hid] at ho
    exact h.of_offset hd (by simpa [ItemSet.get?, ItemSet.toList] using ItemSet.id?_eq_some_iff.mp hid) ho

/-- What has an offset is in the set. -/
theorem mem_of_offset_id {α : Type} [BEq α] [LawfulBEq α] [Hashable α] {set : ItemSet α}
    {what : String} {a : α} {offset : UInt32} (ho : s.offset what (set.id? a) = .ok offset) :
    a ∈ set.toList := by
  cases hid : set.id? a with
  | none =>
    rw [hid] at ho
    cases ho
  | some id => exact ItemSet.mem_toList_iff.mpr ⟨id, hid⟩

/-! ## Sections one after another -/

/-- Each of the sections starts where the one before ends. -/
def Chained (start : Nat) : List DataSection → Prop
  | [] => True
  | s :: rest => s.start = start ∧ Chained s.stop rest

theorem Chained.le_start {sections : List DataSection} (h : Chained start sections) :
    ∀ s ∈ sections, start ≤ s.start := by
  induction sections generalizing start with
  | nil => nofun
  | cons s rest ih =>
    obtain ⟨rfl, hrest⟩ := h
    have hstop : s.start ≤ s.stop := Nat.le_add_right _ _
    exact List.forall_mem_cons.mpr ⟨Nat.le_refl _, fun x hx => Nat.le_trans hstop (ih hrest x hx)⟩

theorem Chained.stop_le {sections : List DataSection} (h : Chained start sections) :
    ∀ s ∈ sections, s.stop ≤ start + (sections.flatMap bytes).length := by
  induction sections generalizing start with
  | nil => nofun
  | cons s rest ih =>
    obtain ⟨rfl, hrest⟩ := h
    have hstop : s.stop = s.start + s.bytes.length := rfl
    rw [List.flatMap_cons, List.length_append, ← Nat.add_assoc, ← hstop]
    exact List.forall_mem_cons.mpr ⟨Nat.le_add_right _ _, ih hrest⟩

theorem Chained.apart {sections : List DataSection} (h : Chained start sections) :
    sections.Pairwise fun s t => s.stop ≤ t.start := by
  induction sections generalizing start with
  | nil => exact .nil
  | cons s rest ih => exact List.pairwise_cons.mpr ⟨h.2.le_start, ih h.2⟩

theorem stands_of_chained {sections : List DataSection} (h : Chained start sections)
    (hs : Bytes.Stands (sections.flatMap bytes) data start)
    (hfit : start + (sections.flatMap bytes).length ≤ data.size) :
    ∀ s ∈ sections, start ≤ s.start ∧ s.bytes.Stands data s.start ∧ s.stop ≤ data.size := by
  induction sections generalizing start with
  | nil => simp
  | cons s rest ih =>
    obtain ⟨rfl, hrest⟩ := h
    rw [List.flatMap_cons] at hs
    rw [List.flatMap_cons, List.length_append] at hfit
    have hstop : s.stop = s.start + s.bytes.length := rfl
    have hafter := ih hrest hs.right (by omega)
    intro x hx
    rcases List.mem_cons.mp hx with rfl | hx
    · exact ⟨Nat.le_refl _, hs.left, by omega⟩
    · obtain ⟨hle, hstands, hinside⟩ := hafter x hx
      exact ⟨by omega, hstands, hinside⟩

end DataSection

end Dalvik
