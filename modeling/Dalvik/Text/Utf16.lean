import Dalvik.Order

/-!
# Strings in UTF-16 order

Strings are counted and sorted by UTF-16 code units. Units and bytes of UTF-8 disagree about the
order of one block only: supplementary characters, which become pairs of surrogates, come before the
characters from U+E000 to U+FFFF. Where one of two strings is ASCII both orders are the same, and
the bytes are compared.
-/
namespace Dalvik.Text

/-- The UTF-16 code units of a character. -/
def units (c : Char) : List UInt16 :=
  if c.toNat < 0x10000 then [c.toNat.toUInt16]
  else
    [(0xD800 + (c.toNat - 0x10000) / 0x400).toUInt16,
      (0xDC00 + (c.toNat - 0x10000) % 0x400).toUInt16]

def utf16Units (s : String) : List UInt16 := s.toList.flatMap units

/-- The number of code units of a string. -/
def utf16Length (s : String) : Nat :=
  s.foldl (fun n c => n + if c.toNat < 0x10000 then 1 else 2) 0

def utf8Bytes (s : String) : List UInt8 := s.toList.flatMap String.utf8EncodeChar

def isAscii (s : String) : Bool := s.toList.all fun c => c.toNat < 0x80

/-- The order of strings by their UTF-16 code units. -/
def compareUtf16 (a b : String) : Ordering :=
  if isAscii a || isAscii b then List.compareLex compare (utf8Bytes a) (utf8Bytes b)
  else List.compareLex compare (utf16Units a) (utf16Units b)

theorem toNat_lt (c : Char) : c.toNat < 0x110000 := by
  have h : c.toNat < 0xD800 ∨ 0xDFFF < c.toNat ∧ c.toNat < 0x110000 := c.valid
  omega

/-! ## Codes compared from the front -/

section
variable {α β : Type} {cmp : α → α → Ordering} {cmp' : β → β → Ordering}

theorem compareLex_append_left [Std.ReflCmp cmp] (part as bs : List α) :
    List.compareLex cmp (part ++ as) (part ++ bs) = List.compareLex cmp as bs := by
  induction part with
  | nil => rfl
  | cons a part ih => simp [List.compareLex_cons_cons, Std.ReflCmp.compare_self, ih]

/-- Two codes of characters order texts in the same way if they do so with any two characters. -/
theorem compareLex_flatMap [Std.ReflCmp cmp] [Std.ReflCmp cmp'] {f : Char → List α}
    {g : Char → List β} (hf : ∀ c, f c ≠ []) (hg : ∀ c, g c ≠ []) {as bs : List Char}
    (h : ∀ c ∈ as, ∀ d ∈ bs, c ≠ d → ∀ x y x' y',
      List.compareLex cmp (f c ++ x) (f d ++ y) = List.compareLex cmp' (g c ++ x') (g d ++ y')) :
    List.compareLex cmp (as.flatMap f) (bs.flatMap f) =
      List.compareLex cmp' (as.flatMap g) (bs.flatMap g) := by
  induction as generalizing bs with
  | nil =>
    cases bs with
    | nil => rfl
    | cons d bs =>
      obtain ⟨a, _, ha⟩ := List.exists_cons_of_ne_nil (hf d)
      obtain ⟨b, _, hb⟩ := List.exists_cons_of_ne_nil (hg d)
      simp [ha, hb, List.compareLex_nil_cons]
  | cons c as ih =>
    cases bs with
    | nil =>
      obtain ⟨a, _, ha⟩ := List.exists_cons_of_ne_nil (hf c)
      obtain ⟨b, _, hb⟩ := List.exists_cons_of_ne_nil (hg c)
      simp [ha, hb, List.compareLex_cons_nil]
    | cons d bs =>
      simp only [List.flatMap_cons]
      by_cases hcd : c = d
      · subst hcd
        rw [compareLex_append_left, compareLex_append_left]
        exact ih fun a ha b hb => h a (List.mem_cons_of_mem c ha) b (List.mem_cons_of_mem c hb)
      · exact h c List.mem_cons_self d List.mem_cons_self hcd _ _ _ _

/-- What comes first decides. -/
theorem compareLex_cons_of_lt {a b : α} (h : cmp a b = .lt) (as bs : List α) :
    List.compareLex cmp (a :: as) (b :: bs) = .lt := by
  rw [List.compareLex_cons_cons, h, Ordering.lt_then]

end

/-! ## Where one string is ASCII -/

theorem compare_utf8_lt {c d : Char} (hc : c.toNat < 0x80) (h : c.toNat < d.toNat)
    (x y : List UInt8) :
    List.compareLex compare (String.utf8EncodeChar c ++ x) (String.utf8EncodeChar d ++ y) = .lt := by
  have hd := toNat_lt d
  have hascii : String.utf8EncodeChar c = [UInt8.ofNat c.toNat] :=
    if_pos (show c.toNat ≤ 0x7f by omega)
  obtain ⟨a, as, ha, hlead⟩ : ∃ a as, String.utf8EncodeChar d = a :: as ∧ c.toNat < a.toNat := by
    unfold String.utf8EncodeChar
    rw [show d.val.toNat = d.toNat from rfl]
    dsimp only
    split
    · exact ⟨_, _, rfl, by rw [UInt8.toNat_ofNat']; omega⟩
    · split
      · exact ⟨_, _, rfl, by rw [UInt8.toNat_ofNat']; omega⟩
      · split
        · exact ⟨_, _, rfl, by rw [UInt8.toNat_ofNat']; omega⟩
        · exact ⟨_, _, rfl, by rw [UInt8.toNat_ofNat']; omega⟩
  rw [hascii, ha]
  apply compareLex_cons_of_lt
  rw [Std.compare_eq_lt, UInt8.lt_iff_toNat_lt, UInt8.toNat_ofNat']
  omega

theorem compare_units_lt {c d : Char} (hc : c.toNat < 0x80) (h : c.toNat < d.toNat)
    (x y : List UInt16) : List.compareLex compare (units c ++ x) (units d ++ y) = .lt := by
  have hd := toNat_lt d
  have hascii : units c = [c.toNat.toUInt16] := if_pos (by omega)
  obtain ⟨a, as, ha, hlead⟩ : ∃ a as, units d = a :: as ∧ c.toNat < a.toNat := by
    unfold units
    split
    · exact ⟨_, _, rfl, by rw [Nat.toUInt16_eq, UInt16.toNat_ofNat']; omega⟩
    · exact ⟨_, _, rfl, by rw [Nat.toUInt16_eq, UInt16.toNat_ofNat']; omega⟩
  rw [hascii, ha]
  apply compareLex_cons_of_lt
  rw [Std.compare_eq_lt, UInt16.lt_iff_toNat_lt, Nat.toUInt16_eq, UInt16.toNat_ofNat']
  omega

/-- An ASCII character stands before all that follow it in both codes. -/
theorem compare_utf8_eq_units {c d : Char} (h : c.toNat < 0x80 ∨ d.toNat < 0x80) (hne : c ≠ d)
    (x y : List UInt8) (x' y' : List UInt16) :
    List.compareLex compare (String.utf8EncodeChar c ++ x) (String.utf8EncodeChar d ++ y) =
      List.compareLex compare (units c ++ x') (units d ++ y') := by
  have hnat : c.toNat ≠ d.toNat := fun heq => hne (Char.toNat_inj.mp heq)
  rcases Nat.lt_or_gt_of_ne hnat with hlt | hlt
  · have hc : c.toNat < 0x80 := by omega
    rw [compare_utf8_lt hc hlt, compare_units_lt hc hlt]
  · have hd : d.toNat < 0x80 := by omega
    rw [Std.OrientedCmp.gt_of_lt (compare_utf8_lt hd hlt y x),
      Std.OrientedCmp.gt_of_lt (compare_units_lt hd hlt y' x')]

theorem units_ne_nil (c : Char) : units c ≠ [] := by
  unfold units
  split <;> exact List.cons_ne_nil _ _

theorem utf8EncodeChar_ne_nil (c : Char) : String.utf8EncodeChar c ≠ [] := by
  intro h
  have hlength := String.length_utf8EncodeChar c
  have hpos := c.utf8Size_pos
  rw [h] at hlength
  exact Nat.ne_of_lt hpos hlength

/-- The bytes of two strings are in the order of their units if one of the two is ASCII. -/
theorem compare_utf8Bytes {a b : String} (h : isAscii a || isAscii b) :
    List.compareLex compare (utf8Bytes a) (utf8Bytes b) =
      List.compareLex compare (utf16Units a) (utf16Units b) := by
  apply compareLex_flatMap utf8EncodeChar_ne_nil units_ne_nil
  intro c hc d hd hne x y x' y'
  refine compare_utf8_eq_units ?_ hne x y x' y'
  rcases Bool.or_eq_true_iff.mp h with ha | hb
  · exact .inl (of_decide_eq_true (List.all_eq_true.mp ha c hc))
  · exact .inr (of_decide_eq_true (List.all_eq_true.mp hb d hd))

theorem compareUtf16_eq (a b : String) :
    compareUtf16 a b = List.compareLex compare (utf16Units a) (utf16Units b) := by
  unfold compareUtf16
  split
  next h => exact compare_utf8Bytes h
  next => rfl

/-! ## Units tell strings apart -/

/-- No two characters have units of which the ones begin with the others. -/
theorem units_append_inj {c d : Char} {x y : List UInt16} (h : units c ++ x = units d ++ y) :
    c = d ∧ x = y := by
  have hc := toNat_lt c
  have hd := toNat_lt d
  have hc' : c.toNat < 0xD800 ∨ 0xDFFF < c.toNat ∧ c.toNat < 0x110000 := c.valid
  have hd' : d.toNat < 0xD800 ∨ 0xDFFF < d.toNat ∧ d.toNat < 0x110000 := d.valid
  unfold units at h
  split at h <;> split at h <;>
    simp only [List.cons_append, List.nil_append, List.cons.injEq, Nat.toUInt16_eq,
      ← UInt16.toNat_inj, UInt16.toNat_ofNat'] at h
  · exact ⟨Char.toNat_inj.mp (by omega), h.2⟩
  · omega
  · omega
  · exact ⟨Char.toNat_inj.mp (by omega), h.2.2⟩

theorem flatMap_units_injective {as bs : List Char} (h : as.flatMap units = bs.flatMap units) :
    as = bs := by
  induction as generalizing bs with
  | nil =>
    cases bs with
    | nil => rfl
    | cons d bs => simp [units_ne_nil] at h
  | cons c as ih =>
    cases bs with
    | nil => simp [units_ne_nil] at h
    | cons d bs =>
      obtain ⟨rfl, hrest⟩ := units_append_inj h
      rw [ih hrest]

theorem utf16Units_injective {a b : String} (h : utf16Units a = utf16Units b) : a = b :=
  String.toList_inj.mp (flatMap_units_injective h)

theorem compareUtf16_eq_byKey : compareUtf16 = byKey (List.compareLex compare) utf16Units :=
  funext fun a => funext fun b => compareUtf16_eq a b

instance : Std.TransCmp compareUtf16 :=
  compareUtf16_eq_byKey ▸ inferInstanceAs (Std.TransCmp (byKey (List.compareLex compare) utf16Units))

instance : Std.LawfulEqCmp compareUtf16 where
  eq_of_compare {a b} h := by
    rw [compareUtf16_eq] at h
    exact utf16Units_injective (Std.LawfulEqCmp.eq_of_compare h)

end Dalvik.Text
