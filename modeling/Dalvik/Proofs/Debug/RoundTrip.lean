import Dalvik.Debug.Decode
import Dalvik.Proofs.Leb128
import Dalvik.Proofs.Pools
import Dalvik.Proofs.Result
import Dalvik.Proofs.Yields

/-!
# Debug information is read back

The machine that reads a program goes along with the progress of writing it: whatever line it starts
with, it goes by the steps between the lines that were written, and `shownFrom` lists the events that
it gives. If it starts with the line that writing asks for and 0 is no line between two others, both
have come to the same line after each event. What comes back then is the list of events in its
normal form, in which every move of the address stands right before the event that it leads to.
-/
namespace Dalvik
open DebugOp

/-! ## The normal form of events -/

namespace DebugItem

def moves (gap : UInt32) : List DebugItem := if gap = 0 then [] else [advance gap]

/-- The position at a line, behind one at the line `reported`. -/
def position (reported line : Int32) : List DebugItem :=
  if line = reported then [] else [.line line]

/-- The events that come back after a move by `gap` and at a line. -/
def normalFrom (gap : UInt32) (line : Int32) : List DebugItem → List DebugItem
  | [] => []
  | advance units :: items => normalFrom (gap + units) line items
  | .line number :: items =>
    if number = line then normalFrom gap line items
    else moves gap ++ .line number :: normalFrom 0 number items
  | item :: items => moves gap ++ item :: normalFrom 0 line items

/-- The events with their moves merged, without moves at the end and without lines that are the
current one already. -/
def normal (items : List DebugItem) : List DebugItem := normalFrom 0 0 items

def lines : List DebugItem → List Int32
  | [] => []
  | .line number :: items => number :: lines items
  | _ :: items => lines items

/-- A line 0 stands somewhere between two others. -/
def ZeroBetween (lines : List Int32) : Prop := ∃ a b, a ≠ 0 ∧ b ≠ 0 ∧ [a, 0, b].Sublist lines

/-- The line that the machine has to start with, for a list of events behind the line `written`. -/
def startFrom (written start : Int32) : List DebugItem → Int32
  | [] => start
  | .line number :: items =>
    if number = written then startFrom written start items
    else startFrom number (if written = 0 then number else start) items
  | _ :: items => startFrom written start items

/-- The events that a machine at the line `line` gives for the program of a list of events behind the
line `written`. It shares with the writer only the steps from line to line. -/
def shownFrom (gap : UInt32) (written line reported : Int32) : List DebugItem → List DebugItem
  | [] => []
  | advance units :: items => shownFrom (gap + units) written line reported items
  | .line number :: items =>
    if number = written then shownFrom gap written line reported items
    else
      let next := if written = 0 then line else line + (number - written)
      moves gap ++ position reported next ++ shownFrom 0 number next next items
  | item :: items => moves gap ++ item :: shownFrom 0 written line reported items

end DebugItem

def DebugInfo.normal (d : DebugInfo) : DebugInfo := ⟨d.parameters, DebugItem.normal d.items⟩

/-- Every index that the resolver gives can be stored plus one as a number that is not negative. -/
structure Resolver.Small (r : Resolver) : Prop where
  string : ∀ {v i}, r.string v = .ok i → i.toNat < 2 ^ 31
  type : ∀ {v i}, r.type v = .ok i → i.toNat < 2 ^ 31

namespace DebugOp

/-! ## Steps -/

/-- A special instruction and what it leaves over make up the whole step. -/
theorem split_spec (address : Nat) (line : Int) :
    ∃ adjusted covered : Nat, adjusted < 15 ∧
      (split address line).special.toNat = 10 + (adjusted + 15 * covered) ∧
      (split address line).address + covered = address ∧
      (split address line).line + (-4 + adjusted) = line ∧
      (∀ low high : Int, low ≤ 0 → 0 < high → low ≤ line → line < high →
        low ≤ (split address line).line ∧ (split address line).line < high) := by
  obtain ⟨adjusted, hadj⟩ : ∃ n : Nat, max (-4) (min line 10) - -4 = (n : Int) :=
    ⟨(max (-4) (min line 10) - -4).toNat, by omega⟩
  have hlt : adjusted < 15 := by omega
  have hsplit : split address line = {
      address := address - min ((245 - adjusted) / 15) address
      line := line - (adjusted + -4)
      special := UInt8.ofNat (adjusted + min ((245 - adjusted) / 15) address * 15 + 10) } := by
    simp only [split, lineBase, lineRange, lastSpecial, firstSpecial]
    simp only [show (-4 : Int) + 15 - 1 = 10 from rfl, hadj]
    rfl
  rw [hsplit]
  refine ⟨adjusted, min ((245 - adjusted) / 15) address, hlt, ?_, ?_, ?_, ?_⟩
  · rw [UInt8.toNat_ofNat', Nat.mod_eq_of_lt (by omega)]
    omega
  · exact Nat.sub_add_cancel (Nat.min_le_right _ _)
  · dsimp only
    omega
  · intro low high _ _ _ _
    dsimp only
    omega

/-- An index that may be absent is stored as a number, which leads back to the value. -/
theorem optionalIndex_eq {α : Type} {resolve : α → Result UInt32} {fetch : UInt32 → Result α}
    (inverse : ∀ {v i}, resolve v = .ok i → fetch i = .ok v)
    (small : ∀ {v i}, resolve v = .ok i → i.toNat < 2 ^ 31) {value : Option α}
    {index : Option UInt32} (h : value.mapM resolve = .ok index) :
    ∃ n : Int32, optionalIndex index = Bytes.ulebPlusOne n ∧ optionalAt fetch n = .ok value := by
  cases value with
  | none =>
    obtain rfl := Result.pure_eq_ok.mp h
    exact ⟨-1, rfl, rfl⟩
  | some v =>
    obtain ⟨i, hi, h⟩ := Result.bind_eq_ok.mp h
    obtain rfl := Result.pure_eq_ok.mp h
    have hpos : ¬ i.toInt32 < 0 := by
      have hnat := small hi
      have hint : i.toInt32.toInt = i.toNat :=
        BitVec.toInt_eq_toNat_of_lt (x := i.toBitVec) (by simp; omega)
      rw [Int32.lt_iff_toInt_lt, hint]
      simp
    refine ⟨i.toInt32, ?_, ?_⟩
    · simp [Bytes.ulebPlusOne, Leb128.encodePlusOne, optionalIndex, Bytes.uleb]
    · rw [optionalAt, if_neg hpos, UInt32.toUInt32_toInt32, inverse hi]
      rfl

theorem optionalIndex_reads {α : Type} {resolve : α → Result UInt32} {fetch : UInt32 → Result α}
    (inverse : ∀ {v i}, resolve v = .ok i → fetch i = .ok v)
    (small : ∀ {v i}, resolve v = .ok i → i.toNat < 2 ^ 31) {value : Option α}
    {index : Option UInt32} (h : value.mapM resolve = .ok index) :
    (do optionalAt fetch (← Decoder.ulebPlusOne) : Decoder (Option α)).Reads (optionalIndex index)
      value := by
  obtain ⟨n, hpart, hvalue⟩ := optionalIndex_eq inverse small h
  rw [hpart]
  exact (Decoder.ulebPlusOne_reads n).bind_last (.ofResult hvalue)

end DebugOp

namespace DebugItem

variable {r : Resolver} {s : Source} {m m' : Machine} {found items : List DebugItem}
  {part rest : Bytes} {result : List DebugItem} {op : UInt8}

/-- From here on the machine reads the rest of a program and gives `result`. -/
def Runs (s : Source) (m : Machine) (found : List DebugItem) (part : Bytes)
    (result : List DebugItem) : Prop :=
  ∀ room, part.length ≤ room → (run s room m found).Reads part result

theorem runs_end : Runs s m found [endSequence] found.reverse := by
  intro room hroom
  cases room with
  | zero => simp at hroom
  | succ room => exact Decoder.u1_bind_reads (Decoder.Reads.pure _)

theorem runs_step {args : Bytes} (hop : op ≠ endSequence)
    (hstep : (step s m op).Reads args (items, m'))
    (hrest : Runs s m' (items.reverse ++ found) rest result) :
    Runs s m found (op :: args ++ rest) result := by
  intro room hroom
  cases room with
  | zero => simp at hroom
  | succ room =>
    have hlast := hrest room (by simp at hroom; omega)
    apply Decoder.u1_bind_reads
    rw [if_neg hop]
    exact hstep.bind hlast

/-- A move of the address. -/
theorem runs_advance {gap : Nat} {line reported : Int32}
    (hrest : Runs s ⟨UInt32.ofNat gap, line, reported⟩ found rest result) :
    Runs s ⟨0, line, reported⟩ found (DebugOp.advance gap ++ rest) result := by
  unfold DebugOp.advance
  split_ifs with hgap
  · subst hgap
    exact hrest
  · have hread := (Decoder.uleb_reads (UInt32.ofNat gap)).map
      (g := fun units => (([] : List DebugItem), Machine.mk (0 + units) line reported))
    rw [UInt32.zero_add] at hread
    exact runs_step (by decide) hread hrest

/-- An event behind a move. -/
theorem runs_event {gap : Nat} {line reported : Int32} {item : DebugItem} {args : Bytes}
    (hop : op ≠ endSequence)
    (hstep : ∀ m, (step s m op).Reads args (m.report item))
    (hrest : Runs s ⟨0, line, reported⟩ (item :: (moves (UInt32.ofNat gap)).reverse ++ found) rest result) :
    Runs s ⟨0, line, reported⟩ found (DebugOp.advance gap ++ op :: args ++ rest) result := by
  rw [List.append_assoc]
  apply runs_advance
  apply runs_step hop (hstep _)
  simpa [Machine.report, moves] using hrest

theorem step_special (h : 10 ≤ op.toNat) : step s m op = pure (m.special op) := by
  obtain ⟨k, hk⟩ : ∃ k, op.toNat = k + 10 := ⟨op.toNat - 10, by omega⟩
  unfold step
  rw [hk]
  rfl

theorem special_eq {adjusted covered : Nat} (hadj : adjusted < 15)
    (hop : op.toNat = 10 + (adjusted + 15 * covered)) {number : Int32}
    (hnumber : m.line + Int32.ofInt (-4 + adjusted) = number) :
    m.special op =
      (moves (m.gap + UInt32.ofNat covered) ++ position m.reported number, ⟨0, number, number⟩) := by
  have hquot : ((op.toNat : Int) - firstSpecial.toNat) / lineRange = covered := by
    simp only [hop, firstSpecial, lineRange]
    simp
    omega
  have hrem : ((op.toNat : Int) - firstSpecial.toNat) % lineRange = adjusted := by
    simp only [hop, firstSpecial, lineRange]
    simp
    omega
  simp only [Machine.special, hquot, hrem, lineBase, hnumber, Int.toNat_natCast, moves,
    position]
  split_ifs with h <;> simp [h]

/-- A position is reported if its line differs from that of the one before. -/
theorem runs_line {gap : Nat} {line reported change number : Int32} (hnumber : line + change = number)
    (hrest : Runs s ⟨0, number, number⟩
      ((moves (UInt32.ofNat gap) ++ position reported number).reverse ++ found) rest result) :
    Runs s ⟨0, line, reported⟩ found ((split gap change.toInt).encode ++ rest) result := by
  obtain ⟨adjusted, covered, hadj, hspecial, haddress, hline, hbounds⟩ := split_spec gap change.toInt
  generalize split gap change.toInt = st at *
  obtain ⟨address, leftover, special⟩ := st
  dsimp only at hspecial haddress hline hbounds
  have hleftover : (Int32.ofInt leftover).toInt = leftover := by
    obtain ⟨hl, hu⟩ := hbounds (-2 ^ 31) (2 ^ 31) (by decide) (by decide)
      change.le_toInt change.toInt_lt
    exact Int32.toInt_ofInt_of_le hl hu
  have hgap : UInt32.ofNat address + UInt32.ofNat covered = UInt32.ofNat gap :=
    (UInt32.ofNat_add address covered).symm.trans (congrArg UInt32.ofNat haddress)
  -- what is left over of the step, then the special instruction
  have hstep : line + Int32.ofInt leftover + Int32.ofInt (-4 + adjusted) = number := by
    rw [Int32.add_assoc, ← Int32.ofInt_add, hline, Int32.ofInt_toInt, hnumber]
  have hlast : Runs s ⟨UInt32.ofNat address, line + Int32.ofInt leftover, reported⟩ found
      (special :: rest) result := by
    have hread : (step s ⟨UInt32.ofNat address, line + Int32.ofInt leftover, reported⟩ special).Reads []
        (moves (UInt32.ofNat gap) ++ position reported number, ⟨0, number, number⟩) := by
      rw [step_special (by omega), special_eq (m := ⟨_, _, _⟩) hadj hspecial hstep, hgap]
      exact .pure _
    have hop : special ≠ endSequence := by
      intro h
      simp [h, endSequence] at hspecial
      omega
    exact runs_step hop hread hrest
  rw [Step.encode, List.append_assoc, List.append_assoc]
  apply runs_advance
  split_ifs with hzero
  · have hzero : leftover = 0 := hzero
    rw [hzero, show Int32.ofInt 0 = 0 from rfl, Int32.add_zero] at hlast
    exact hlast
  · have hread := (Decoder.sleb_reads (Int32.ofInt leftover)).map (g := fun n =>
      (([] : List DebugItem), Machine.mk (UInt32.ofNat address) (line + n) reported))
    exact runs_step (by decide) hread hlast

theorem kinds (item : DebugItem) : (∃ units, item = .advance units) ∨ (∃ n, item = .line n) ∨
    ((∀ units, item ≠ .advance units) ∧ ∀ n, item ≠ .line n) := by
  cases item with
  | advance units => exact .inl ⟨units, rfl⟩
  | line n => exact .inr (.inl ⟨n, rfl⟩)
  | _ => exact .inr (.inr ⟨nofun, nofun⟩)

/-- Any event but a move or a line needs the moves before it and nothing else. -/
theorem progress_eq {p q : Progress} {item : DebugItem} (hadvance : ∀ units, item ≠ .advance units)
    (hline : ∀ n, item ≠ .line n) (h : item.encode r p = .ok (part, q)) :
    q = { p with gap := 0 } := by
  cases item with
  | advance units => exact absurd rfl (hadvance units)
  | line n => exact absurd rfl (hline n)
  | startLocal register name type signature =>
    obtain ⟨_, -, h⟩ := Result.bind_eq_ok.mp h
    obtain ⟨_, -, h⟩ := Result.bind_eq_ok.mp h
    cases signature with
    | none =>
      cases h
      rfl
    | some signature =>
      obtain ⟨_, -, h⟩ := Result.bind_eq_ok.mp h
      cases h
      rfl
  | setFile name =>
    obtain ⟨_, -, h⟩ := Result.bind_eq_ok.mp h
    cases h
    rfl
  | _ =>
    cases h
    rfl

/-- The machine reports what has been written for such an event. -/
theorem runs_of_encode (hrs : r.InverseOnIds s) (hsmall : r.Small) {p q : Progress} {item : DebugItem}
    {line reported : Int32} (hadvance : ∀ units, item ≠ .advance units)
    (hline : ∀ n, item ≠ .line n) (h : item.encode r p = .ok (part, q))
    (hrest : Runs s ⟨0, line, reported⟩ (item :: (moves (UInt32.ofNat p.gap)).reverse ++ found) rest
      result) :
    Runs s ⟨0, line, reported⟩ found (part ++ rest) result := by
  cases item with
  | advance units => exact absurd rfl (hadvance units)
  | line n => exact absurd rfl (hline n)
  | startLocal register name type signature =>
    obtain ⟨nameIndex, hname, h⟩ := Result.bind_eq_ok.mp h
    obtain ⟨typeIndex, htype, h⟩ := Result.bind_eq_ok.mp h
    have hname := optionalIndex_reads hrs.string hsmall.string hname
    obtain ⟨n, hpart, hn⟩ := optionalIndex_eq hrs.type hsmall.type htype
    have htype := Decoder.ulebPlusOne_reads n
    rw [← hpart] at htype
    have head := Decoder.uleb_reads register
    cases signature with
    | none =>
      cases h
      have hevent := runs_event (show DebugOp.startLocal ≠ endSequence by decide) (fun m => head.bind
        (hname.bind (htype.bind (.lift hn (.pure (m.report (.startLocal register name type none)))))))
        hrest
      simpa using hevent
    | some signature =>
      obtain ⟨i, hi, h⟩ := Result.bind_eq_ok.mp h
      cases h
      have hsome : (some signature).mapM r.string = .ok (some i) := by simp [hi]
      have hsig := optionalIndex_reads hrs.string hsmall.string hsome
      have hevent := runs_event (show startLocalExtended ≠ endSequence by decide) (fun m => head.bind
        (hname.bind (htype.bind (.lift hn
          (hsig.map (g := fun sig => m.report (.startLocal register name type sig))))))) hrest
      simpa using hevent
  | endLocal register =>
    cases h
    exact runs_event (by decide) (fun m => (Decoder.uleb_reads register).map) hrest
  | restartLocal register =>
    cases h
    exact runs_event (by decide) (fun m => (Decoder.uleb_reads register).map) hrest
  | prologueEnd =>
    cases h
    exact runs_event (by decide) (fun m => .pure _) hrest
  | epilogueBegin =>
    cases h
    exact runs_event (by decide) (fun m => .pure _) hrest
  | setFile name =>
    obtain ⟨index, hindex, h⟩ := Result.bind_eq_ok.mp h
    cases h
    have hname := optionalIndex_reads hrs.string hsmall.string hindex
    exact runs_event (by decide) (fun m => hname.map) hrest

theorem encode_line {p : Progress} {number : Int32} :
    encode r p (.line number) =
      if number = p.line then .ok ([], p)
      else if p.line = 0 then .ok ((split p.gap (number - number).toInt).encode, ⟨0, number, number⟩)
      else (Arithmetic.subtract32 number p.line).map fun step =>
        ((split p.gap step.toInt).encode, ⟨0, number, p.lineStart⟩) := by
  simp only [encode]
  by_cases hsame : number = p.line
  · rw [if_pos hsame, if_pos hsame]
  · rw [if_neg hsame, if_neg hsame]
    by_cases hfirst : p.line = 0
    · rw [if_pos hfirst, if_pos hfirst, Arithmetic.subtract32_self]
      rfl
    · rw [if_neg hfirst, if_neg hfirst]
      rfl

/-- What is written for a line, if the step to it is a word. -/
theorem encode_line_eq_ok {p q : Progress} {number : Int32} {part : Bytes}
    (h : encode r p (.line number) = .ok (part, q)) :
    (part, q) =
      if number = p.line then ([], p)
      else if p.line = 0 then ((split p.gap (number - number).toInt).encode, ⟨0, number, number⟩)
      else ((split p.gap (number - p.line).toInt).encode, ⟨0, number, p.lineStart⟩) := by
  rw [encode_line] at h
  split_ifs at h ⊢
  · exact (Except.ok.inj h).symm
  · exact (Except.ok.inj h).symm
  · obtain ⟨step, hstep, hout⟩ := Result.map_eq_ok.mp h
    rw [← Arithmetic.eq_of_subtract32 hstep]
    exact hout.symm

theorem encodeAll_cons {p : Progress} {item : DebugItem} {out : Bytes} {lineStart : Int32}
    (h : encodeAll r p (item :: items) = .ok (out, lineStart)) :
    ∃ part q rest, item.encode r p = .ok (part, q) ∧ encodeAll r q items = .ok (rest, lineStart) ∧
      out = part ++ rest := by
  obtain ⟨⟨part, q⟩, hitem, h⟩ := Result.bind_eq_ok.mp h
  obtain ⟨⟨rest, last⟩, hrest, h⟩ := Result.bind_eq_ok.mp h
  cases h
  exact ⟨part, q, rest, hitem, hrest, rfl⟩

theorem lines_cons {item : DebugItem} (hline : ∀ n, item ≠ .line n) :
    lines (item :: items) = lines items := by
  cases item with
  | line n => exact absurd rfl (hline n)
  | _ => rfl

theorem mem_lines {n : Int32} : n ∈ lines items ↔ .line n ∈ items := by
  induction items with
  | nil => simp [lines]
  | cons item items ih =>
    obtain ⟨units, rfl⟩ | ⟨m, rfl⟩ | ⟨-, hline⟩ := item.kinds
    · simpa [lines] using ih
    · simp [lines, ih]
    · rw [lines_cons hline, ih, List.mem_cons, or_iff_right (hline n).symm]

theorem startFrom_cons {written start : Int32} {item : DebugItem} (hline : ∀ n, item ≠ .line n) :
    startFrom written start (item :: items) = startFrom written start items := by
  cases item with
  | line n => exact absurd rfl (hline n)
  | _ => rfl

theorem shownFrom_cons {gap : UInt32} {written line reported : Int32} {item : DebugItem}
    (hadvance : ∀ units, item ≠ .advance units) (hline : ∀ n, item ≠ .line n) :
    shownFrom gap written line reported (item :: items) =
      moves gap ++ item :: shownFrom 0 written line reported items := by
  cases item with
  | advance units => exact absurd rfl (hadvance units)
  | line n => exact absurd rfl (hline n)
  | _ => rfl

theorem normalFrom_cons {gap : UInt32} {line : Int32} {item : DebugItem}
    (hadvance : ∀ units, item ≠ .advance units) (hline : ∀ n, item ≠ .line n) :
    normalFrom gap line (item :: items) = moves gap ++ item :: normalFrom 0 line items := by
  cases item with
  | advance units => exact absurd rfl (hadvance units)
  | line n => exact absurd rfl (hline n)
  | _ => rfl

/-- Writing asks for the line that its first step starts from. -/
theorem lineStart_eq {p : Progress} {out : Bytes} {lineStart : Int32}
    (h : encodeAll r p items = .ok (out, lineStart)) :
    lineStart = startFrom p.line p.lineStart items := by
  induction items generalizing p out with
  | nil =>
    cases h
    rfl
  | cons item items ih =>
    obtain ⟨part, q, rest, hitem, hrest, rfl⟩ := encodeAll_cons h
    rw [ih hrest]
    obtain ⟨units, rfl⟩ | ⟨n, rfl⟩ | ⟨hadvance, hline⟩ := item.kinds
    · cases hitem
      rfl
    · replace hitem := encode_line_eq_ok hitem
      rw [startFrom]
      split_ifs at hitem with hsame hfirst <;> cases hitem
      · rw [if_pos hsame]
      · rw [if_neg hsame, if_pos hfirst]
      · rw [if_neg hsame, if_neg hfirst]
    · rw [startFrom_cons hline, progress_eq hadvance hline hitem]

/-- The program for events runs to what the machine shows of them, whatever its line is. -/
theorem runs_encodeAll (hrs : r.InverseOnIds s) (hsmall : r.Small) {p : Progress} {out : Bytes}
    {lineStart : Int32} (h : encodeAll r p items = .ok (out, lineStart)) (line reported : Int32)
    (found : List DebugItem) :
    Runs s ⟨0, line, reported⟩ found out
      (found.reverse ++ shownFrom (UInt32.ofNat p.gap) p.line line reported items) := by
  induction items generalizing p out line reported found with
  | nil =>
    cases h
    simpa [shownFrom] using runs_end
  | cons item items ih =>
    obtain ⟨part, q, rest, hitem, hrest, rfl⟩ := encodeAll_cons h
    obtain ⟨units, rfl⟩ | ⟨n, rfl⟩ | ⟨hadvance, hline⟩ := item.kinds
    · cases hitem
      have hlast := ih hrest line reported found
      rw [UInt32.ofNat_add, UInt32.ofNat_toNat] at hlast
      exact hlast
    · replace hitem := encode_line_eq_ok hitem
      rw [shownFrom]
      split_ifs at hitem with hsame hfirst <;> cases hitem
      · rw [if_pos hsame]
        exact ih hrest line reported found
      -- the first step after a line 0 goes nowhere
      · rw [if_neg hsame, if_pos hfirst]
        have hlast := ih hrest line line
          ((moves (UInt32.ofNat p.gap) ++ position reported line).reverse ++ found)
        apply runs_line (by rw [Int32.sub_self, Int32.add_zero])
        simpa using hlast
      · rw [if_neg hsame, if_neg hfirst]
        have hlast := ih hrest (line + (n - p.line)) (line + (n - p.line))
          ((moves (UInt32.ofNat p.gap) ++ position reported (line + (n - p.line))).reverse ++ found)
        apply runs_line rfl
        simpa using hlast
    · obtain rfl := progress_eq hadvance hline hitem
      have hlast := ih hrest line reported (item :: (moves (UInt32.ofNat p.gap)).reverse ++ found)
      rw [shownFrom_cons hadvance hline]
      apply runs_of_encode hrs hsmall hadvance hline hitem
      simpa using hlast

/-- A program is read to its end, wherever it stands. -/
theorem decodeAll_reads (hrs : r.InverseOnIds s) (hsmall : r.Small) {out : Bytes}
    {lineStart : Int32} (h : encodeAll r {} items = .ok (out, lineStart)) (line : Int32) :
    (decodeAll s line).Reads out (shownFrom 0 0 line 0 items) := by
  apply Decoder.Reads.available
  intro room hroom
  exact runs_encodeAll hrs hsmall h line 0 [] _ (by omega)

/-! ## Without a line 0 between two others

The events are gone through in three states: before the first line that is not 0, at such a line, and
behind the line 0 that follows it. -/

section
variable {gap : UInt32} {written start line reported : Int32} {ns : List Int32}

theorem eq_zero_of_not_sublist (h : ∀ b ≠ 0, ¬ [0, b].Sublist (0 :: ns)) : ∀ n ∈ ns, n = 0 := by
  intro n hn
  by_contra hne
  exact h n hne (.cons_cons 0 (List.singleton_sublist.mpr hn))

theorem startFrom_zero (hz : ∀ n ∈ lines items, n = 0) : startFrom 0 start items = start := by
  induction items with
  | nil => rfl
  | cons item items ih =>
    obtain ⟨units, rfl⟩ | ⟨n, rfl⟩ | ⟨-, hline⟩ := item.kinds
    · exact ih hz
    · obtain ⟨rfl, hzs⟩ := List.forall_mem_cons.mp hz
      exact ih hzs
    · rw [startFrom_cons hline, ih (by rwa [lines_cons hline] at hz)]

theorem shownFrom_zero (hz : ∀ n ∈ lines items, n = 0) :
    shownFrom gap 0 line reported items = normalFrom gap 0 items := by
  induction items generalizing gap with
  | nil => rfl
  | cons item items ih =>
    obtain ⟨units, rfl⟩ | ⟨n, rfl⟩ | ⟨hadvance, hline⟩ := item.kinds
    · exact ih hz
    · obtain ⟨rfl, hzs⟩ := List.forall_mem_cons.mp hz
      exact ih hzs
    · rw [shownFrom_cons hadvance hline, normalFrom_cons hadvance hline,
        ih (by rwa [lines_cons hline] at hz)]

/-- After the first line the line to start with stays as it is. -/
theorem startFrom_eq (hw : written ≠ 0) (hz : ∀ b ≠ 0, ¬ [0, b].Sublist (lines items)) :
    startFrom written start items = start := by
  induction items generalizing written with
  | nil => rfl
  | cons item items ih =>
    obtain ⟨units, rfl⟩ | ⟨n, rfl⟩ | ⟨-, hline⟩ := item.kinds
    · exact ih hw hz
    · have hzs : ∀ b ≠ 0, ¬ [0, b].Sublist (lines items) := fun b hb h => hz b hb (h.cons n)
      rw [startFrom, if_neg hw]
      split_ifs
      · exact ih hw hzs
      · by_cases hn : n = 0
        · subst hn
          exact startFrom_zero (eq_zero_of_not_sublist hz)
        · exact ih hn hzs
    · rw [startFrom_cons hline, ih hw (by rwa [lines_cons hline] at hz)]

/-- A machine that is at the line written last shows the normal form. -/
theorem shownFrom_self (hw : written ≠ 0) (hz : ∀ b ≠ 0, ¬ [0, b].Sublist (lines items)) :
    shownFrom gap written written written items = normalFrom gap written items := by
  induction items generalizing gap written with
  | nil => rfl
  | cons item items ih =>
    obtain ⟨units, rfl⟩ | ⟨n, rfl⟩ | ⟨hadvance, hline⟩ := item.kinds
    · exact ih hw hz
    · have hzs : ∀ b ≠ 0, ¬ [0, b].Sublist (lines items) := fun b hb h => hz b hb (h.cons n)
      have hnext : written + (n - written) = n := by grind
      rw [shownFrom, normalFrom]
      split_ifs with hsame
      · exact ih hw hzs
      · have hrest : shownFrom 0 n n n items = normalFrom 0 n items := by
          by_cases hn : n = 0
          · subst hn
            exact shownFrom_zero (eq_zero_of_not_sublist hz)
          · exact ih hn hzs
        simp only [hnext, position, if_neg hsame, hrest, List.append_assoc, List.singleton_append]
    · rw [shownFrom_cons hadvance hline, normalFrom_cons hadvance hline,
        ih hw (by rwa [lines_cons hline] at hz)]

/-- So does a machine before the first line, if it starts with the line that writing asks for. -/
theorem shownFrom_start (hz : ¬ ZeroBetween (lines items)) :
    shownFrom gap 0 (startFrom 0 start items) 0 items = normalFrom gap 0 items := by
  induction items generalizing gap with
  | nil => rfl
  | cons item items ih =>
    obtain ⟨units, rfl⟩ | ⟨n, rfl⟩ | ⟨hadvance, hline⟩ := item.kinds
    · exact ih hz
    · by_cases hn : n = 0
      · subst hn
        exact ih fun ⟨a, b, ha, hb, h⟩ => hz ⟨a, b, ha, hb, h.cons 0⟩
      · have hzs : ∀ b ≠ 0, ¬ [0, b].Sublist (lines items) :=
          fun b hb h => hz ⟨n, b, hn, hb, h.cons_cons n⟩
        rw [startFrom, if_neg hn, if_pos rfl, startFrom_eq hn hzs, shownFrom, if_neg hn, normalFrom,
          if_neg hn]
        simp only [if_pos, position, if_neg hn, shownFrom_self hn hzs, List.append_assoc,
          List.singleton_append]
    · rw [shownFrom_cons hadvance hline, normalFrom_cons hadvance hline, startFrom_cons hline,
        ih (by rwa [lines_cons hline] at hz)]

end

theorem not_zeroBetween (hz : .line 0 ∉ items) : ¬ ZeroBetween (lines items) := by
  rintro ⟨a, b, -, -, h⟩
  exact hz (mem_lines.mp (h.subset (by simp)))

end DebugItem

/-! ## The whole -/

theorem DebugOp.optionalIndex_ne_nil (index : Option UInt32) : optionalIndex index ≠ [] := by
  cases index <;> exact Bytes.uleb_ne_nil _

/-- What is written for a method is read to its end, whatever stands behind it, with the names of the
parameters and with what the machine shows of the events. The number of parameters is written with 32
bits. -/
theorem DebugInfo.decode_reads_shown {r : Resolver} {s : Source} (hrs : r.InverseOnIds s)
    (hsmall : r.Small) {d : DebugInfo} {out : Bytes} (hl : d.parameters.length < UInt32.size)
    (h : d.encode r = .ok out) : ∃ program lineStart,
      DebugItem.encodeAll r {} d.items = .ok (program, lineStart) ∧
      (decode s).Reads out ⟨d.parameters, DebugItem.shownFrom 0 0 lineStart 0 d.items⟩ := by
  obtain ⟨⟨program, lineStart⟩, hprogram, h⟩ := Result.bind_eq_ok.mp h
  obtain ⟨names, hnames, h⟩ := Result.bind_eq_ok.mp h
  cases h
  have hitems := DebugItem.decodeAll_reads hrs hsmall hprogram lineStart
  have hnames := Result.mapM_eq_ok.mp hnames
  have hread : List.Forall₂ (do optionalAt s.string (← Decoder.ulebPlusOne) :
      Decoder (Option String)).Reads names d.parameters := by
    apply List.Forall₂.flip
    refine hnames.imp fun name part h => ?_
    obtain ⟨index, hindex, h⟩ := Result.bind_eq_ok.mp h
    cases h
    exact optionalIndex_reads hrs.string hsmall.string hindex
  have hne : ∀ part ∈ names, part ≠ [] := by
    intro part hpart
    obtain ⟨name, -, h⟩ := Result.exists_left_of_mem hnames hpart
    obtain ⟨index, -, h⟩ := Result.bind_eq_ok.mp h
    cases h
    exact optionalIndex_ne_nil index
  have hlen := length_le_length_flatten hne
  have hcount : (UInt32.ofNat names.length).toNat = names.length := by
    apply UInt32.toNat_ofNat_of_lt'
    rwa [hread.length_eq]
  refine ⟨program, lineStart, hprogram, ?_⟩
  rw [List.append_assoc, List.append_assoc]
  apply Decoder.Reads.position
  intro start
  apply (Decoder.uleb_reads _).bind
  apply (Decoder.uleb_reads _).bind
  apply Decoder.Reads.available
  intro n hn
  rw [hcount, hread.length_eq]
  rw [List.length_append] at hn
  rw [if_neg (by have := hread.length_eq; omega)]
  apply (Decoder.Reads.repeated hread).bind
  exact hitems.map (g := DebugInfo.mk d.parameters)

/-- Without a line 0 the events are read in their normal form. -/
theorem DebugInfo.decode_reads {r : Resolver} {s : Source} (hrs : r.InverseOnIds s) (hsmall : r.Small)
    {d : DebugInfo} {out : Bytes} (hz : .line 0 ∉ d.items) (hl : d.parameters.length < UInt32.size)
    (h : d.encode r = .ok out) : (decode s).Reads out d.normal := by
  obtain ⟨program, lineStart, hprogram, hread⟩ := decode_reads_shown hrs hsmall hl h
  rwa [DebugItem.lineStart_eq hprogram, DebugItem.shownFrom_start (DebugItem.not_zeroBetween hz)]
    at hread

theorem DebugInfo.decode_yields_counted (s : Source) :
    Decoder.Yields (decode s) fun d => d.parameters.length < UInt32.size := by
  have names (d : Decoder (Option String)) (count : UInt32) :
      Decoder.Yields (d.repeated count.toNat) fun names => names.length < UInt32.size :=
    (Decoder.Yields.repeated (P := fun _ => True) (fun _ _ _ _ _ => trivial) _).mono
      fun _ h => h.1 ▸ count.toNat_lt
  refine .behind fun start => .behind fun lineStart => .behind fun count => .behind fun room => ?_
  exact .guard fun _ => (names _ count).bind fun _ hnames => .behind fun _ => .pure hnames

theorem small_twoNames : twoNames.Small where
  string {v i} h := by
    simp only [twoNames] at h
    split_ifs at h with ha hb
    · cases h
      decide
    · cases h
      decide
    · cases h
  type {v i} h := by
    simp only [twoNames] at h
    split_ifs at h
    · cases h
      decide
    · cases h

end Dalvik
