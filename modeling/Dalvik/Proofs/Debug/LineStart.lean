import Dalvik.Proofs.Debug.RoundTrip

/-!
# The line that a program starts with

Writing takes the line 0 as the sign that no position has been made yet, and asks to start with the
line behind it. If 0 is a line between two others, the start belongs to one of the later positions,
and not all of them come back; otherwise the start is the first line, and they do.
-/
namespace Dalvik.DebugItem

/-- The address and the line of every position. -/
def positionsFrom (address : UInt32) : List DebugItem → List (UInt32 × Int32)
  | [] => []
  | advance units :: items => positionsFrom (address + units) items
  | .line number :: items => (address, number) :: positionsFrom address items
  | _ :: items => positionsFrom address items

def positions (items : List DebugItem) : List (UInt32 × Int32) := positionsFrom 0 items

/-- The positions whose line differs from that of the one before, which is 0 before the first. -/
def changes (line : Int32) : List (UInt32 × Int32) → List (UInt32 × Int32)
  | [] => []
  | (address, number) :: places =>
    if number = line then changes line places else (address, number) :: changes number places

/-- The first line that is not 0, 1 without one. -/
def firstLine (items : List DebugItem) : Int32 := ((lines items).find? (· ≠ 0)).getD 1

variable {r : Resolver} {s : Source} {items : List DebugItem} {address gap : UInt32}
  {written line reported start b : Int32}

/-! ## Positions of the events that come back -/

theorem positionsFrom_cons {item : DebugItem} (hadvance : ∀ units, item ≠ .advance units)
    (hline : ∀ n, item ≠ .line n) :
    positionsFrom address (item :: items) = positionsFrom address items := by
  cases item with
  | advance units => exact absurd rfl (hadvance units)
  | line n => exact absurd rfl (hline n)
  | _ => rfl

theorem positionsFrom_moves :
    positionsFrom address (moves gap ++ items) = positionsFrom (address + gap) items := by
  unfold moves
  split_ifs with h
  · simp [h]
  · rfl

theorem map_positionsFrom : (positionsFrom address items).map Prod.snd = lines items := by
  induction items generalizing address with
  | nil => rfl
  | cons item items ih =>
    obtain ⟨units, rfl⟩ | ⟨n, rfl⟩ | ⟨hadvance, hline⟩ := item.kinds
    · exact ih
    · exact congrArg (n :: ·) ih
    · rw [positionsFrom_cons hadvance hline, lines_cons hline, ih]

/-- The normal form keeps the positions at which the line changes. -/
theorem positionsFrom_normalFrom :
    positionsFrom address (normalFrom gap line items) =
      changes line (positionsFrom (address + gap) items) := by
  induction items generalizing address gap line with
  | nil => rfl
  | cons item items ih =>
    obtain ⟨units, rfl⟩ | ⟨n, rfl⟩ | ⟨hadvance, hline⟩ := item.kinds
    · rw [normalFrom, ih, positionsFrom, UInt32.add_assoc]
    · rw [normalFrom, positionsFrom, changes]
      split_ifs with hsame
      · exact ih
      · rw [positionsFrom_moves, positionsFrom, ih, UInt32.add_zero]
    · rw [normalFrom_cons hadvance hline, positionsFrom_moves, positionsFrom_cons hadvance hline, ih,
        UInt32.add_zero, positionsFrom_cons hadvance hline]

theorem positions_normal : positions (normal items) = changes 0 (positions items) := by
  rw [positions, normal, positionsFrom_normalFrom, UInt32.add_zero, positions]

/-! ## Lines that are lost -/

theorem lines_append {more : List DebugItem} : lines (items ++ more) = lines items ++ lines more := by
  induction items with
  | nil => rfl
  | cons item items ih =>
    obtain ⟨units, rfl⟩ | ⟨n, rfl⟩ | ⟨-, hline⟩ := item.kinds
    · exact ih
    · exact congrArg (n :: ·) ih
    · rw [List.cons_append, lines_cons hline, lines_cons hline, ih]

@[simp] theorem lines_moves : lines (moves gap) = [] := by
  unfold moves
  split_ifs <;> rfl

theorem lines_position_self : lines (position line line) = [] := by
  rw [position, if_pos rfl, lines]

theorem length_lines_position_le : (lines (position reported line)).length ≤ 1 := by
  unfold position
  split_ifs <;> simp [lines]

/-- The machine shows no more lines than the normal form has. -/
theorem length_lines_shownFrom_le : (lines (shownFrom gap written line reported items)).length ≤
    (lines (normalFrom gap written items)).length := by
  induction items generalizing gap written line reported with
  | nil => exact Nat.le_refl _
  | cons item items ih =>
    obtain ⟨units, rfl⟩ | ⟨n, rfl⟩ | ⟨hadvance, hline⟩ := item.kinds
    · exact ih
    · by_cases hsame : n = written
      · rw [shownFrom, if_pos hsame, normalFrom, if_pos hsame]
        exact ih
      · rw [shownFrom, if_neg hsame, normalFrom, if_neg hsame]
        simp only [lines_append, lines_moves, lines, List.nil_append, List.length_append,
          List.length_cons]
        rw [Nat.add_comm]
        exact Nat.add_le_add ih length_lines_position_le
    · rw [shownFrom_cons hadvance hline, normalFrom_cons hadvance hline]
      simp only [lines_append, lines_moves, lines_cons hline, List.nil_append]
      exact ih

/-- Behind a line 0 that the machine has shown, it stays at 0 for the next line. -/
theorem length_lines_shownFrom_zero_lt (hb : b ≠ 0) (h : b ∈ lines items) :
    (lines (shownFrom gap 0 0 0 items)).length < (lines (normalFrom gap 0 items)).length := by
  induction items generalizing gap with
  | nil => simp [lines] at h
  | cons item items ih =>
    obtain ⟨units, rfl⟩ | ⟨n, rfl⟩ | ⟨hadvance, hline⟩ := item.kinds
    · exact ih h
    · by_cases hn : n = 0
      · subst hn
        exact ih ((List.mem_cons.mp h).resolve_left hb)
      · rw [shownFrom, if_neg hn, normalFrom, if_neg hn]
        simp only [if_pos, lines_append, lines_moves, lines_position_self, lines, List.nil_append,
          List.length_cons]
        exact Nat.lt_succ_of_le length_lines_shownFrom_le
    · rw [shownFrom_cons hadvance hline, normalFrom_cons hadvance hline]
      simp only [lines_append, lines_moves, lines_cons hline, List.nil_append]
      exact ih (by rwa [lines_cons hline] at h)

theorem length_lines_shownFrom_self_lt (hw : written ≠ 0) (hb : b ≠ 0)
    (h : [0, b].Sublist (lines items)) :
    (lines (shownFrom gap written written written items)).length <
      (lines (normalFrom gap written items)).length := by
  induction items generalizing gap written with
  | nil => simp [lines] at h
  | cons item items ih =>
    obtain ⟨units, rfl⟩ | ⟨n, rfl⟩ | ⟨hadvance, hline⟩ := item.kinds
    · exact ih hw h
    · by_cases hsame : n = written
      · subst hsame
        rw [shownFrom, if_pos rfl, normalFrom, if_pos rfl]
        exact ih hw (h.of_cons_of_ne hw.symm)
      · have hnext : written + (n - written) = n := by grind
        have hrest : (lines (shownFrom 0 n n n items)).length <
            (lines (normalFrom 0 n items)).length := by
          by_cases hn : n = 0
          · subst hn
            exact length_lines_shownFrom_zero_lt hb (List.singleton_sublist.mp h.of_cons_cons)
          · exact ih hn (h.of_cons_of_ne (Ne.symm hn))
        rw [shownFrom, if_neg hsame, if_neg hw, hnext, normalFrom, if_neg hsame]
        simp only [lines_append, lines_moves, lines, position, if_neg hsame, List.nil_append,
          List.length_cons, List.singleton_append]
        exact Nat.succ_lt_succ hrest
    · rw [shownFrom_cons hadvance hline, normalFrom_cons hadvance hline]
      simp only [lines_append, lines_moves, lines_cons hline, List.nil_append]
      exact ih hw (by rwa [lines_cons hline] at h)

/-- Between two others a line 0 costs a position, even if the start is the first line. -/
theorem length_lines_shownFrom_start_lt (h : ZeroBetween (lines items)) :
    (lines (shownFrom gap 0 (firstLine items) 0 items)).length <
      (lines (normalFrom gap 0 items)).length := by
  induction items generalizing gap with
  | nil => simp [lines, ZeroBetween] at h
  | cons item items ih =>
    obtain ⟨units, rfl⟩ | ⟨n, rfl⟩ | ⟨hadvance, hline⟩ := item.kinds
    · exact ih h
    · obtain ⟨a, b, ha, hb, h⟩ := h
      by_cases hn : n = 0
      · subst hn
        exact ih ⟨a, b, ha, hb, h.of_cons_of_ne ha⟩
      · have hfirst : firstLine (.line n :: items) = n := by simp [firstLine, lines, hn]
        rw [hfirst, shownFrom, if_neg hn, normalFrom, if_neg hn]
        simp only [if_pos, lines_append, lines_moves, lines, position, if_neg hn, List.nil_append,
          List.length_cons, List.singleton_append]
        exact Nat.succ_lt_succ (length_lines_shownFrom_self_lt hn hb h.tail)
    · have hfirst : firstLine (item :: items) = firstLine items := by
        rw [firstLine, lines_cons hline, firstLine]
      rw [hfirst, shownFrom_cons hadvance hline, normalFrom_cons hadvance hline]
      simp only [lines_append, lines_moves, lines_cons hline, List.nil_append]
      exact ih (by rwa [lines_cons hline] at h)

/-- Without a line 0 between two others writing asks to start with the first line. -/
theorem startFrom_firstLine (hz : ¬ ZeroBetween (lines items)) :
    startFrom 0 1 items = firstLine items := by
  induction items with
  | nil => rfl
  | cons item items ih =>
    obtain ⟨units, rfl⟩ | ⟨n, rfl⟩ | ⟨-, hline⟩ := item.kinds
    · exact ih hz
    · by_cases hn : n = 0
      · subst hn
        exact ih fun ⟨a, b, ha, hb, h⟩ => hz ⟨a, b, ha, hb, h.cons 0⟩
      · have hzs : ∀ b ≠ 0, ¬ [0, b].Sublist (lines items) :=
          fun b hb h => hz ⟨n, b, hn, hb, h.cons_cons n⟩
        rw [startFrom, if_neg hn, if_pos rfl, startFrom_eq hn hzs]
        simp [firstLine, lines, hn]
    · rw [startFrom_cons hline, ih (by rwa [lines_cons hline] at hz), firstLine, firstLine,
        lines_cons hline]

/-! ## The start and the positions -/

/-- A program that has been written is read to its end, whatever stands before and after it. The
machine starts with the first line and makes the positions at which the line changes exactly if no
line 0 stands between two others. -/
theorem positions_decodeAll_iff (hrs : r.InverseOnValues s) (hsmall : r.Small)
    (before after : Bytes) {out : Bytes} {lineStart : Int32}
    (h : encodeAll r {} items = .ok (out, lineStart)) :
    ∃ found, (decodeAll s lineStart).decodeAt (before ++ out ++ after).toByteArray before.length =
        .ok (found, before.length + out.length) ∧
      ((lineStart = firstLine items ∧ positions found = changes 0 (positions items)) ↔
        ¬ ZeroBetween (lines items)) := by
  have hread := decodeAll_reads hrs.onIds hsmall h lineStart
  refine ⟨_, hread.decodeAt (Bytes.stands_toByteArray before out after), ?_⟩
  constructor
  · rintro ⟨hstart, hpositions⟩ hz
    rw [← positions_normal, hstart] at hpositions
    have hlines := congrArg (fun places => (places.map Prod.snd).length) hpositions
    simp only [positions, map_positionsFrom] at hlines
    exact Nat.ne_of_lt (length_lines_shownFrom_start_lt hz) hlines
  · intro hz
    have hstart : lineStart = firstLine items := (lineStart_eq h).trans (startFrom_firstLine hz)
    have hshown : shownFrom 0 0 lineStart 0 items = normal items := by
      rw [lineStart_eq h]
      exact shownFrom_start hz
    exact ⟨hstart, by rw [hshown, positions_normal]⟩

/-- A line 0 at the start and one at the end. -/
theorem positions_decodeAll_iff_twoNames :
    ∃ found, (decodeAll twoNamesSource 5).decodeAt
        ([0xff, 0x2c, 0x02, 0x7f, 0x19, 0, 0xff] : Bytes).toByteArray 1 = .ok (found, 6) ∧
      (((5 : Int32) = firstLine [.line 0, .advance 2, .line 5, .advance 1, .line 0] ∧
        positions found =
          changes 0 (positions [.line 0, .advance 2, .line 5, .advance 1, .line 0])) ↔
        ¬ ZeroBetween [0, 5, 0]) := by
  have h : encodeAll twoNames {} [.line 0, .advance 2, .line 5, .advance 1, .line 0] =
      .ok ([0x2c, 0x02, 0x7f, 0x19, 0], 5) := by cbv
  exact positions_decodeAll_iff inverse_twoNames.onValues small_twoNames [0xff] [0xff] h

/-- Between the lines 5 and 7 the line 0 makes the last of them the start, and the positions come
back at other lines. -/
theorem positions_decodeAll_zero_between :
    encodeAll twoNames {} [.line 5, .line 0, .line 7] =
        .ok ([0x0e, 0x02, 0x7f, 0x0a, 0x0e, 0], 7) ∧
      firstLine [.line 5, .line 0, .line 7] = 5 ∧
      (decodeAll twoNamesSource 7).decodeAt ([0x0e, 0x02, 0x7f, 0x0a, 0x0e, 0] : Bytes).toByteArray 0 =
        .ok ([.line 7, .line 2], 6) ∧
      positions [.line 7, .line 2] = [(0, 7), (0, 2)] ∧
      changes 0 (positions [.line 5, .line 0, .line 7]) = [(0, 5), (0, 0), (0, 7)] := by
  refine ⟨by cbv, by decide, by cbv, by decide, by decide⟩

end Dalvik.DebugItem
