import Dalvik.Proofs.Debug.LineStart
import Dalvik.Proofs.Debug.Special

/-!
# The words in which debug information is written

The place in the code is kept in words of 64 bits and the step of the line is found in one of 32. Here
writing is done a second time with every operation in its word. It goes along with the writing of
`DebugItem.encodeAll`, whose numbers have no bounds but for the step of the line, up to the first line
that is too far from the one before it: there both of them end. Nothing else leaves its word.
-/
namespace Dalvik
open DebugOp

/-- A result that there is none of if an operation leaves its word. -/
abbrev InWords (α : Type) := ExceptT Error Option α

namespace DebugItem

/-- How far writing has come: the address that has been reached, that of the last event, and the
lines. -/
structure Words where
  address : Int := 0
  emitted : Int := 0
  line : Int32 := 0
  lineStart : Int32 := 1
  deriving DecidableEq, Repr

/-- The move to the address that has been reached. -/
def Words.flush (w : Words) : InWords (Bytes × Words) := do
  if w.address = w.emitted then return ([], w)
  let gap ← signedWord 64 (w.address - w.emitted)
  return (DebugOp.advance gap.toNat, { w with emitted := w.address })

/-- As `encode`, in words. -/
def encodeInWords (r : Resolver) (w : Words) : DebugItem → InWords (Bytes × Words)
  | advance units => do
    let address ← signedWord 64 (w.address + units.toNat)
    return ([], { w with address })
  | line number =>
    if number = w.line then return ([], w)
    else do
      let w := if w.line = 0 then { w with lineStart := number, line := number } else w
      let gap ← signedWord 64 (w.address - w.emitted)
      let step ← signedWord 32 (number.toInt - w.line.toInt)
      let s ← splitInWords gap step
      return (s.encode, { w with emitted := w.address, line := number })
  | item => do
    let (part, _) ← item.encode r {}
    let (moves, w) ← w.flush
    return (moves ++ part, w)

/-- As `encodeAll`, in words. -/
def encodeAllInWords (r : Resolver) (w : Words) : List DebugItem → InWords (Bytes × Int32)
  | [] => return ([endSequence], w.lineStart)
  | item :: items => do
    let (part, w) ← item.encodeInWords r w
    let (rest, lineStart) ← encodeAllInWords r w items
    return (part ++ rest, lineStart)

/-- The code units that an event moves on. -/
def units : DebugItem → Nat
  | advance units => units.toNat
  | _ => 0

/-- The words hold what writing without bounds has come to, and have room for so many units more. -/
structure Words.Holds (w : Words) (p : Progress) (room : Nat) : Prop where
  address : w.address = w.emitted + p.gap
  emitted : 0 ≤ w.emitted
  room : w.address + room < 2 ^ 63
  line : w.line = p.line
  lineStart : w.lineStart = p.lineStart

/-- The step from a line to another is a word of 32 bits. -/
def Near (line number : Int32) : Prop :=
  -2 ^ 31 ≤ number.toInt - line.toInt ∧ number.toInt - line.toInt < 2 ^ 31

variable {r : Resolver} {w : Words} {p q : Progress} {room : Nat} {items : List DebugItem}
  {item : DebugItem} {number : Int32}

/-! ## One event -/

theorem run_word_bind {α β : Type} {x : Option α} {f : α → InWords β} :
    (liftM x >>= f : InWords β).run = x.bind fun a => (f a).run := by
  cases x <;> rfl

theorem Words.Holds.run_flush (h : w.Holds p room) :
    w.flush.run = some (.ok (DebugOp.advance p.gap, { w with emitted := w.address })) := by
  have haddress := h.address
  have hemitted := h.emitted
  have hroom := h.room
  unfold Words.flush
  split_ifs with hsame
  · have hgap : p.gap = 0 := by omega
    obtain ⟨address, emitted, line, lineStart⟩ := w
    dsimp only at hsame
    subst hsame
    simp [hgap, DebugOp.advance]
  · have hgap : w.address - w.emitted = p.gap := by omega
    rw [run_word_bind, hgap, signedWord_eq_some (by omega) (by omega), Option.bind_some]
    rfl

theorem Words.Holds.flushed (h : w.Holds p room) :
    { w with emitted := w.address : Words }.Holds { p with gap := 0 } room where
  address := (Int.add_zero _).symm
  emitted := by
    have haddress := h.address
    have hemitted := h.emitted
    change 0 ≤ w.address
    omega
  room := h.room
  line := h.line
  lineStart := h.lineStart

/-- What comes before the bytes of an event is the move to it. -/
theorem encode_event (hadvance : ∀ units, item ≠ .advance units) (hline : ∀ n, item ≠ .line n) :
    item.encode r p = (item.encode r {}).map fun out =>
      (DebugOp.advance p.gap ++ out.1, { p with gap := 0 }) := by
  have hnone : DebugOp.advance 0 = [] := rfl
  cases item with
  | advance units => exact absurd rfl (hadvance units)
  | line n => exact absurd rfl (hline n)
  | startLocal register name type signature =>
    simp only [encode]
    cases name.mapM r.string with
    | error e => rfl
    | ok name =>
      cases type.mapM r.type with
      | error e => rfl
      | ok type =>
        cases signature with
        | none => simp [bind, Except.bind, Except.map, pure, Except.pure, hnone]
        | some signature =>
          simp only [Result.ok_bind]
          cases r.string signature with
          | error e => rfl
          | ok index => simp [bind, Except.bind, Except.map, pure, Except.pure, hnone]
  | setFile name =>
    simp only [encode]
    cases name.mapM r.string with
    | error e => rfl
    | ok index => rfl
  | _ => rfl

theorem encodeInWords_event (hadvance : ∀ units, item ≠ .advance units)
    (hline : ∀ n, item ≠ .line n) : item.encodeInWords r w = (do
      let (part, _) ← item.encode r {}
      let (moves, w) ← w.flush
      return (moves ++ part, w)) := by
  cases item with
  | advance units => exact absurd rfl (hadvance units)
  | line n => exact absurd rfl (hline n)
  | _ => rfl

/-- What writing in words gives where writing without bounds gives a result: the same failure, or the
same bytes, and words with room for so many units more. -/
inductive Goes (room : Nat) :
    Result (Bytes × Progress) → Option (Except Error (Bytes × Words)) → Prop
  | error (e : Error) : Goes room (.error e) (some (.error e))
  | ok {part : Bytes} {q : Progress} {w : Words} (h : w.Holds q room) :
    Goes room (.ok (part, q)) (some (.ok (part, w)))

theorem goes_advance {units : UInt32} (h : w.Holds p (units.toNat + room)) :
    Goes room ((advance units).encode r p) ((advance units).encodeInWords r w).run := by
  have haddress := h.address
  have hemitted := h.emitted
  have hroom := h.room
  have hword : signedWord 64 (w.address + units.toNat) = some (w.address + units.toNat) :=
    signedWord_eq_some (by omega) (by omega)
  simp only [encodeInWords, run_word_bind, hword, Option.bind_some]
  refine .ok ⟨?_, h.emitted, ?_, h.line, h.lineStart⟩
  · dsimp only
    omega
  · dsimp only
    omega

theorem goes_event (hadvance : ∀ units, item ≠ .advance units) (hline : ∀ n, item ≠ .line n)
    (h : w.Holds p room) : Goes room (item.encode r p) (item.encodeInWords r w).run := by
  rw [encodeInWords_event hadvance hline, encode_event hadvance hline]
  cases item.encode r {} with
  | error e => exact .error e
  | ok out =>
    have hrun : (do
        let (moves, w) ← w.flush
        return (moves ++ out.1, w) : InWords (Bytes × Words)).run =
          some (.ok (DebugOp.advance p.gap ++ out.1, { w with emitted := w.address })) := by
      rw [ExceptT.run_bind, h.run_flush]
      rfl
    change Goes room (.ok (DebugOp.advance p.gap ++ out.1, { p with gap := 0 }))
      (do let (moves, w) ← w.flush; return (moves ++ out.1, w) : InWords (Bytes × Words)).run
    rw [hrun]
    exact .ok h.flushed

/-- The step between two lines that are near is the exact one. -/
theorem toInt_sub_of_near {line : Int32} (h : Near line number) :
    (number - line).toInt = number.toInt - line.toInt := by
  rw [Int32.toInt_sub, Int.bmod_eq_of_le]
  · exact h.1
  · exact h.2

theorem near_self (line : Int32) : Near line line := by
  rw [Near, Int.sub_self]
  decide

theorem near_zero (number : Int32) : Near 0 number := by
  rw [Near, Int32.toInt_zero, Int.sub_zero]
  exact ⟨number.le_toInt, number.toInt_lt⟩

/-- A step in words from a line to another, with what has been moved before it. -/
theorem Words.Holds.run_step {α : Type} (h : w.Holds p room) {line : Int32} {f : Step → InWords α} :
    (do
      let gap ← signedWord 64 (w.address - w.emitted)
      let step ← signedWord 32 (number.toInt - line.toInt)
      let s ← splitInWords gap step
      f s : InWords α).run =
        (signedWord 32 (number.toInt - line.toInt)).bind fun step => (f (split p.gap step)).run := by
  have haddress := h.address
  have hemitted := h.emitted
  have hroom := h.room
  have hgap : w.address - w.emitted = p.gap := by omega
  rw [run_word_bind, hgap, signedWord_eq_some (by omega) (by omega), Option.bind_some, run_word_bind]
  by_cases hnear : Near line number
  · rw [signedWord_eq_some hnear.1 hnear.2, Option.bind_some, Option.bind_some, run_word_bind,
      splitInWords_eq (by omega) hnear.1 hnear.2, Option.bind_some]
  · have hnone : signedWord 32 (number.toInt - line.toInt) = none := signedWord_eq_none_iff.mpr hnear
    rw [hnone, Option.bind_none, Option.bind_none]

/-- The words behind a position at a line. -/
def Words.after (w : Words) (number lineStart : Int32) : Words :=
  { address := w.address, emitted := w.address, line := number, lineStart }

theorem Words.Holds.after (h : w.Holds p room) (number lineStart : Int32) :
    (w.after number lineStart).Holds ⟨0, number, lineStart⟩ room where
  address := (Int.add_zero _).symm
  emitted := h.flushed.emitted
  room := h.room
  line := rfl
  lineStart := rfl

theorem run_encodeInWords_line (h : w.Holds p room) : ((line number).encodeInWords r w).run =
    if number = p.line then some (.ok ([], w))
    else if p.line = 0 then
      some (.ok ((split p.gap (number - number).toInt).encode, w.after number number))
    else (signedWord 32 (number.toInt - p.line.toInt)).bind fun step =>
      some (.ok ((split p.gap step).encode, w.after number p.lineStart)) := by
  simp only [encodeInWords, h.line]
  by_cases hsame : number = p.line
  · rw [if_pos hsame, if_pos hsame]
    rfl
  · rw [if_neg hsame, if_neg hsame]
    by_cases hfirst : p.line = 0
    · rw [if_pos hfirst, if_pos hfirst]
      refine h.run_step.trans ?_
      rw [signedWord_eq_some (near_self number).1 (near_self number).2, Option.bind_some,
        toInt_sub_of_near (near_self number)]
      rfl
    · rw [if_neg hfirst, if_neg hfirst, ← h.line, ← h.lineStart]
      exact h.run_step

theorem goes_line (h : w.Holds p room) (hnear : Near p.line number) :
    Goes room ((line number).encode r p) ((line number).encodeInWords r w).run := by
  have hword : signedWord 32 (number.toInt - p.line.toInt) = some (number.toInt - p.line.toInt) :=
    signedWord_eq_some hnear.1 hnear.2
  rw [run_encodeInWords_line h, encode_line, hword, Option.bind_some, ← toInt_sub_of_near hnear,
    Arithmetic.subtract32_eq_ok hnear.1 hnear.2]
  split_ifs
  · exact .ok h
  · exact .ok (h.after number number)
  · exact .ok (h.after number p.lineStart)

/-- Neither the current line nor the first one is too far. -/
theorem ne_of_not_near {line : Int32} (hfar : ¬ Near line number) : number ≠ line ∧ line ≠ 0 :=
  ⟨fun heq => hfar (heq ▸ near_self number), fun heq => hfar (heq ▸ near_zero number)⟩

theorem run_encodeInWords_far (h : w.Holds p room) (hfar : ¬ Near p.line number) :
    ((line number).encodeInWords r w).run = none := by
  obtain ⟨hsame, hfirst⟩ := ne_of_not_near hfar
  have hnone : signedWord 32 (number.toInt - p.line.toInt) = none := signedWord_eq_none_iff.mpr hfar
  rw [run_encodeInWords_line h, if_neg hsame, if_neg hfirst, hnone, Option.bind_none]

theorem encode_far (hfar : ¬ Near p.line number) :
    (line number).encode r p = Arithmetic.overflow .subtract := by
  obtain ⟨hsame, hfirst⟩ := ne_of_not_near hfar
  have hstep : Arithmetic.subtract32 number p.line = Arithmetic.overflow .subtract := if_neg hfar
  rw [encode_line, if_neg hsame, if_neg hfirst, hstep]
  rfl

/-! ## A list of events -/

/-- The code units that events move on. -/
def unitsOf (items : List DebugItem) : Nat := (items.map units).sum

/-- Behind events that are written, there is a line that is too far from the one before it. -/
def TooFar (r : Resolver) (p : Progress) (items : List DebugItem) : Prop :=
  ∃ before number after, items = before ++ .line number :: after ∧
    (∃ out, encodeAll r p before = .ok out) ∧ ¬ Near ((lines before).getLastD p.line) number

theorem encodeInWords_cases (h : w.Holds p (item.units + room)) :
    (∃ number, item = .line number ∧ ¬ Near p.line number ∧
      (item.encodeInWords r w).run = none ∧ item.encode r p = Arithmetic.overflow .subtract) ∨
    (∀ number, item = .line number → Near p.line number) ∧
      Goes room (item.encode r p) (item.encodeInWords r w).run := by
  obtain ⟨units, rfl⟩ | ⟨n, rfl⟩ | ⟨hadvance, hline⟩ := item.kinds
  · exact .inr ⟨nofun, goes_advance h⟩
  · have h : w.Holds p room := by simpa [units] using h
    by_cases hnear : Near p.line n
    · exact .inr ⟨fun _ heq => (DebugItem.line.inj heq) ▸ hnear, goes_line h hnear⟩
    · exact .inl ⟨n, rfl, hnear, run_encodeInWords_far h hnear, encode_far hnear⟩
  · have hunits : item.units = 0 := by
      cases item with
      | advance units => exact absurd rfl (hadvance units)
      | _ => rfl
    rw [hunits, Nat.zero_add] at h
    exact .inr ⟨fun n heq => absurd heq (hline n), goes_event hadvance hline h⟩

/-- Writing an event comes to its line, if it is one. -/
theorem getLastD_lines_cons {part : Bytes} (h : item.encode r p = .ok (part, q)) :
    (lines (item :: items)).getLastD p.line = (lines items).getLastD q.line := by
  obtain ⟨units, rfl⟩ | ⟨n, rfl⟩ | ⟨hadvance, hline⟩ := item.kinds
  · cases h
    rfl
  · have hq : q.line = n := by
      have hout := encode_line_eq_ok h
      split_ifs at hout with hsame hfirst <;> cases hout
      · exact hsame.symm
      · rfl
      · rfl
    rw [lines, List.getLastD_cons, hq]
  · rw [lines_cons hline, progress_eq hadvance hline h]

theorem tooFar_cons {part : Bytes} (h : item.encode r p = .ok (part, q)) :
    TooFar r p (item :: items) ↔ TooFar r q items := by
  constructor
  · rintro ⟨before, number, after, hitems, ⟨out, hout⟩, hfar⟩
    cases before with
    | nil =>
      obtain ⟨rfl, -⟩ := List.cons.inj hitems
      rw [encode_far hfar] at h
      cases h
    | cons first before =>
      obtain ⟨rfl, rfl⟩ := List.cons.inj hitems
      obtain ⟨part', q', rest, hitem, hrest, -⟩ := encodeAll_cons hout
      obtain ⟨rfl, rfl⟩ := Prod.mk.inj (Except.ok.inj (hitem.symm.trans h))
      rw [getLastD_lines_cons h] at hfar
      exact ⟨before, number, after, rfl, ⟨_, hrest⟩, hfar⟩
  · rintro ⟨before, number, after, rfl, ⟨⟨rest, lineStart⟩, hrest⟩, hfar⟩
    refine ⟨item :: before, number, after, rfl, ⟨(part ++ rest, lineStart), ?_⟩, ?_⟩
    · exact Result.bind_eq_ok.mpr ⟨_, h, Result.bind_eq_ok.mpr ⟨_, hrest, rfl⟩⟩
    · rwa [getLastD_lines_cons h]

theorem not_tooFar_of_error {e : Error} (hnear : ∀ number, item = .line number → Near p.line number)
    (h : item.encode r p = .error e) : ¬ TooFar r p (item :: items) := by
  rintro ⟨before, number, after, hitems, ⟨out, hout⟩, hfar⟩
  cases before with
  | nil => exact hfar (hnear number (List.cons.inj hitems).1)
  | cons first before =>
    obtain ⟨rfl, -⟩ := List.cons.inj hitems
    obtain ⟨_, _, _, hitem, -⟩ := encodeAll_cons hout
    rw [h] at hitem
    cases hitem

/-- Writing in words goes along with writing without bounds up to a line that is too far. -/
theorem run_encodeAllInWords (h : w.Holds p (unitsOf items)) :
    (TooFar r p items ∧ encodeAll r p items = Arithmetic.overflow .subtract ∧
      (encodeAllInWords r w items).run = none) ∨
    (¬ TooFar r p items ∧ (encodeAllInWords r w items).run = some (encodeAll r p items)) := by
  induction items generalizing w p with
  | nil =>
    refine .inr ⟨?_, ?_⟩
    · rintro ⟨before, number, after, hitems, -⟩
      cases before <;> cases hitems
    · rw [encodeAllInWords, h.lineStart]
      rfl
  | cons item items ih =>
    rw [encodeAllInWords, ExceptT.run_bind, encodeAll]
    rw [unitsOf, List.map_cons, List.sum_cons] at h
    rcases encodeInWords_cases (r := r) h with ⟨number, rfl, hfar, hrun, hitem⟩ | ⟨hnear, hgoes⟩
    · rw [hrun, hitem]
      exact .inl ⟨⟨[], number, items, rfl, ⟨_, rfl⟩, hfar⟩, rfl, rfl⟩
    · generalize hitem : item.encode r p = result at hgoes
      generalize (item.encodeInWords r w).run = run at hgoes
      cases hgoes with
      | error e => exact .inr ⟨not_tooFar_of_error hnear hitem, rfl⟩
      | @ok part q w hw =>
        rw [tooFar_cons hitem]
        rcases ih hw with ⟨hfar, hfault, hrun⟩ | ⟨hfar, hrun⟩
        · refine .inl ⟨hfar, ?_, ?_⟩
          · rw [Result.ok_bind]
            dsimp only
            rw [hfault]
            rfl
          · change (encodeAllInWords r w items >>= _ : InWords (Bytes × Int32)).run = _
            rw [ExceptT.run_bind, hrun]
            rfl
        · refine .inr ⟨hfar, ?_⟩
          change (encodeAllInWords r w items >>= _ : InWords (Bytes × Int32)).run = _
          rw [ExceptT.run_bind, hrun, Result.ok_bind]
          dsimp only
          cases encodeAll r q items <;> rfl

/-- Of events that move on less than 2 ^ 63 code units, writing leaves a word exactly where two lines in
a row are too far from each other for a step of 32 bits, and all before the second of them is written.
There it ends; any other events are written in words as they are without bounds. -/
theorem encodeAll_overflows_iff (r : Resolver) (items : List DebugItem)
    (h : unitsOf items < 2 ^ 63) :
    (TooFar r {} items → encodeAll r {} items = Arithmetic.overflow .subtract ∧
      (encodeAllInWords r {} items).run = none) ∧
    (¬ TooFar r {} items → (encodeAllInWords r {} items).run = some (encodeAll r {} items)) := by
  have hstart : Words.Holds {} {} (unitsOf items) := ⟨rfl, Int.le_refl _, by dsimp only; omega, rfl, rfl⟩
  rcases run_encodeAllInWords (r := r) hstart with ⟨hfar, hruns⟩ | ⟨hfar, hrun⟩
  · exact ⟨fun _ => hruns, fun hnot => absurd hfar hnot⟩
  · exact ⟨fun h => absurd h hfar, fun _ => hrun⟩

/-- The largest step of a line that is a word. -/
theorem encodeAll_overflows_iff_largest :
    unitsOf [.line (-1), .advance 0xffffffff, .line 0x7ffffffe] < 2 ^ 63 ∧
      ¬ TooFar twoNames {} [.line (-1), .advance 0xffffffff, .line 0x7ffffffe] ∧
      (encodeAllInWords twoNames {} [.line (-1), .advance 0xffffffff, .line 0x7ffffffe]).run =
        some (.ok ([14, 1, 240, 255, 255, 255, 15, 2, 245, 255, 255, 255, 7, 249, 0], -1)) := by
  have hunits : unitsOf [.line (-1), .advance 0xffffffff, .line 0x7ffffffe] < 2 ^ 63 := by decide
  have hwritten : encodeAll twoNames {} [.line (-1), .advance 0xffffffff, .line 0x7ffffffe] =
      .ok ([14, 1, 240, 255, 255, 255, 15, 2, 245, 255, 255, 255, 7, 249, 0], -1) := by cbv
  obtain ⟨hends, hruns⟩ := encodeAll_overflows_iff twoNames _ hunits
  have hnear : ¬ TooFar twoNames {} [.line (-1), .advance 0xffffffff, .line 0x7ffffffe] := by
    intro hfar
    have hfault := (hends hfar).1
    rw [hwritten] at hfault
    cases hfault
  rw [hwritten] at hruns
  exact ⟨hunits, hnear, hruns hnear⟩

/-- From the line -1 to the last there is one that no step of 32 bits goes to. The exact step would
be written, but writing ends. -/
theorem encodeAll_tooFar :
    unitsOf [.line (-1), .line 0x7fffffff] < 2 ^ 63 ∧
      encodeAll twoNames {} [.line (-1), .line 0x7fffffff] = Arithmetic.overflow .subtract ∧
      (split 0 (0x7fffffff - -1)).encode = [0x02, 0xf6, 0xff, 0xff, 0xff, 0x07, 0x18] := by
  exact ⟨by decide, by cbv, by cbv⟩

end DebugItem

end Dalvik
