import Dalvik.Proofs.Order
import Dalvik.Text.Utf16

/-!
# The order of strings

Strings are compared by their UTF-16 code units, also where the bytes of UTF-8 are looked at instead,
and since the units of a string determine it, this is a strict total order.
-/
namespace Dalvik.Text

theorem compareLex_eq_lt_iff {as bs : List UInt16} :
    List.compareLex compare as bs = .lt ↔ as < bs := by
  induction as generalizing bs with
  | nil =>
    cases bs with
    | nil => simp [List.compareLex_nil_nil]
    | cons b bs => simp [List.compareLex_nil_cons]
  | cons a as ih =>
    cases bs with
    | nil => simp [List.compareLex_cons_nil]
    | cons b bs =>
      rw [List.compareLex_cons_cons, Ordering.then_eq_lt, Std.compare_eq_lt, Std.compare_eq_iff_eq,
        ih, List.cons_lt_cons_iff]

/-- Strings are compared by their UTF-16 code units. -/
theorem compareUtf16_eq_lt_iff {a b : String} :
    compareUtf16 a b = .lt ↔ utf16Units a < utf16Units b := by
  rw [compareUtf16_eq, compareLex_eq_lt_iff]

theorem length_utf16Units (s : String) : (utf16Units s).length = utf16Length s := by
  have loop (chars : List Char) (n : Nat) :
      chars.foldl (fun n c => n + if c.toNat < 0x10000 then 1 else 2) n =
        n + (chars.flatMap units).length := by
    induction chars generalizing n with
    | nil => rfl
    | cons c chars ih =>
      have hc : (units c).length = if c.toNat < 0x10000 then 1 else 2 := by
        unfold units
        split <;> rfl
      rw [List.foldl_cons, ih, List.flatMap_cons, List.length_append, hc, Nat.add_assoc]
  rw [utf16Length, String.foldl_eq_foldl_toList, loop, Nat.zero_add, utf16Units]

/-- Strings are in the strict total order of their UTF-16 code units, and only a string itself compares
as equal to it. If one of two strings is ASCII, their UTF-8 bytes are in the same order. -/
theorem strictTotal_compareUtf16 :
    (∀ a b, compareUtf16 a b = List.compareLex compare (utf16Units a) (utf16Units b) ∧
      (compareUtf16 a b = .lt ↔ utf16Units a < utf16Units b)) ∧
    (∀ a b, isAscii a || isAscii b →
      List.compareLex compare (utf8Bytes a) (utf8Bytes b) =
        List.compareLex compare (utf16Units a) (utf16Units b)) ∧
    StrictTotal compareUtf16 := by
  refine ⟨fun a b => ⟨compareUtf16_eq a b, compareUtf16_eq_lt_iff⟩, ?_, strictTotal_of_lawful _⟩
  intro a b h
  exact compare_utf8Bytes h

/-- An ASCII string before one that goes on with a supplementary character. -/
theorem strictTotal_compareUtf16_clef :
    (isAscii "a~" || isAscii "a𝄞") ∧
      List.compareLex compare (utf8Bytes "a~") (utf8Bytes "a𝄞") =
        List.compareLex compare (utf16Units "a~") (utf16Units "a𝄞") :=
  ⟨by decide, strictTotal_compareUtf16.2.1 "a~" "a𝄞" (by decide)⟩

/-- Without an ASCII string the two orders differ. -/
example : compareUtf16 "𝄞" "ﬁ" = .lt ∧ List.compareLex compare (utf8Bytes "𝄞") (utf8Bytes "ﬁ") = .gt := by
  decide

end Dalvik.Text
