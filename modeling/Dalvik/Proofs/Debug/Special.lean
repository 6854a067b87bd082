import Dalvik.Debug.Encode
import Mathlib

/-!
# What a special instruction takes of a step

The number of a special instruction holds a step of the line from -4 to 10 and as many code units as
there is room for behind it. It takes the step of the line that is nearest to the one asked for, and
then all the units that fit, so that something is left over only of a step that no special instruction
makes. The operations that this takes stay inside the words they are done in.
-/
namespace Dalvik

/-- A whole number as a signed word of so many bits, if it is one. -/
def signedWord (bits : Nat) (n : Int) : Option Int :=
  if -2 ^ (bits - 1) ≤ n ∧ n < 2 ^ (bits - 1) then some n else none

/-- A whole number as a byte, if it is one. -/
def byteWord (n : Int) : Option UInt8 :=
  if 0 ≤ n ∧ n < 2 ^ 8 then some (UInt8.ofNat n.toNat) else none

theorem signedWord_eq_some {bits : Nat} {n : Int} (hlow : -2 ^ (bits - 1) ≤ n)
    (hhigh : n < 2 ^ (bits - 1)) : signedWord bits n = some n := if_pos ⟨hlow, hhigh⟩

/-- Where a number fits its word, what follows goes on with it. -/
theorem signedWord_bind {α : Type} {bits : Nat} {n : Int} {f : Int → Option α}
    (hlow : -2 ^ (bits - 1) ≤ n) (hhigh : n < 2 ^ (bits - 1)) : (signedWord bits n >>= f) = f n := by
  rw [signedWord_eq_some hlow hhigh]
  rfl

theorem signedWord_eq_none_iff {bits : Nat} {n : Int} :
    signedWord bits n = none ↔ ¬ (-2 ^ (bits - 1) ≤ n ∧ n < 2 ^ (bits - 1)) := by
  unfold signedWord
  split_ifs with h <;> simp [h]

theorem byteWord_eq_some {n : Int} (hlow : 0 ≤ n) (hhigh : n < 2 ^ 8) :
    byteWord n = some (UInt8.ofNat n.toNat) := if_pos ⟨hlow, hhigh⟩

namespace DebugOp

variable {address : Nat} {line : Int}

/-- The step of the line that a special instruction takes, counted from the least one. -/
def linePart (line : Int) : Nat := (max lineBase (min line (lineBase + lineRange - 1)) - lineBase).toNat

/-- The code units that a special instruction has room for behind a step of the line. -/
def room (part : Nat) : Nat := (lastSpecial.toNat - firstSpecial.toNat - part) / lineRange.toNat

theorem linePart_eq (line : Int) : (linePart line : Int) = max (-4) (min line 10) + 4 := by
  have hpart : linePart line = (max (-4) (min line 10) - -4).toNat := rfl
  omega

theorem linePart_lt (line : Int) : linePart line < 15 := by
  have hpart := linePart_eq line
  omega

theorem room_eq (part : Nat) : room part = (245 - part) / 15 := rfl

theorem split_eq : split address line = {
    address := address - min (room (linePart line)) address
    line := line - (linePart line - 4)
    special := UInt8.ofNat (linePart line + min (room (linePart line)) address * 15 + 10) } := by
  have hline : line - (max (-4) (min line 10) - -4 + -4) = line - (linePart line - 4) := by
    rw [linePart_eq]
    omega
  exact congrArg (fun left => Step.mk _ left _) hline

/-- The number of the instruction is a byte. -/
theorem toNat_special : (split address line).special.toNat =
    10 + (linePart line + 15 * min (room (linePart line)) address) := by
  have hpart := linePart_lt line
  have hroom := room_eq (linePart line)
  rw [split_eq, UInt8.toNat_ofNat', Nat.mod_eq_of_lt (by omega)]
  omega

/-- Splitting with every operation done in the word that it is done in: 32 bits for the steps of the
line and the number of the instruction, 64 for those of the address. There is no result if one of them
leaves its word. -/
def splitInWords (address line : Int) : Option Step := do
  let clamped := max lineBase (min line (lineBase + lineRange - 1))
  let left ← signedWord 32 (line - clamped)
  let adjusted ← signedWord 32 (clamped - lineBase)
  let above ← signedWord 32 (lastSpecial.toNat - firstSpecial.toNat - adjusted)
  let most ← signedWord 32 (above.tdiv lineRange)
  let covered := min most address
  let behind ← signedWord 64 (address - covered)
  let units ← signedWord 32 covered
  let scaled ← signedWord 32 (units * lineRange)
  let sum ← signedWord 32 (adjusted + scaled)
  let special ← byteWord (← signedWord 32 (sum + firstSpecial.toNat))
  return { address := behind.toNat, line := left, special }

/-- No operation leaves its word. -/
theorem splitInWords_eq (haddress : address < 2 ^ 63) (hlow : -2 ^ 31 ≤ line) (hhigh : line < 2 ^ 31) :
    splitInWords address line = some (split address line) := by
  have hlt := linePart_lt line
  have hpart := linePart_eq line
  have hroom := room_eq (linePart line)
  have hclamped : max lineBase (min line (lineBase + lineRange - 1)) = (linePart line : Int) - 4 := by
    change max (-4) (min line 10) = _
    omega
  have hadjusted : (linePart line : Int) - 4 - lineBase = linePart line := by
    change (linePart line : Int) - 4 - -4 = _
    omega
  have habove : (lastSpecial.toNat - firstSpecial.toNat - linePart line : Int) =
      (245 - linePart line : Nat) := by
    change (255 - 10 - linePart line : Int) = _
    omega
  have hmost : ((245 - linePart line : Nat) : Int).tdiv lineRange = room (linePart line) :=
    (Int.tdiv_eq_ediv_of_nonneg (Int.natCast_nonneg _)).trans (Int.natCast_ediv _ 15).symm
  have hcovered : min (room (linePart line) : Int) address =
      (min (room (linePart line)) address : Nat) := (Nat.cast_min ..).symm
  generalize hc : min (room (linePart line)) address = covered at hcovered
  have hscaled : (covered : Int) * lineRange = (covered * 15 : Nat) := rfl
  have hsum : (linePart line + (covered * 15 : Nat) : Int) = (linePart line + covered * 15 : Nat) := rfl
  have hspecial : ((linePart line + covered * 15 : Nat) + firstSpecial.toNat : Int) =
      (linePart line + covered * 15 + 10 : Nat) := rfl
  unfold splitInWords
  dsimp only
  rw [hclamped, signedWord_bind (by omega) (by omega), hadjusted, signedWord_bind (by omega) (by omega),
    habove, signedWord_bind (by omega) (by omega), hmost, signedWord_bind (by omega) (by omega),
    hcovered, signedWord_bind (by omega) (by omega), signedWord_bind (by omega) (by omega), hscaled,
    signedWord_bind (by omega) (by omega), hsum, signedWord_bind (by omega) (by omega), hspecial,
    signedWord_bind (by omega) (by omega), byteWord_eq_some (by omega) (by omega)]
  rw [split_eq, hc, Int.toNat_natCast]
  exact congrArg (fun behind => some (Step.mk behind _ _)) (Int.toNat_sub _ _)

/-! ## Steps that are made whole -/

/-- A special instruction and what it leaves over of a step. Its number says which part of the step
it takes; nothing of the line is left over if it is in reach of a special instruction, and nothing
of the address if the number has room for it behind the step of the line. -/
structure Step.Exact (s : Step) (address : Nat) (line : Int) : Prop where
  special : firstSpecial ≤ s.special ∧ s.special ≤ lastSpecial
  addresses : s.address + (s.special.toNat - firstSpecial.toNat) / lineRange.toNat = address
  lines : s.line + lineBase + ((s.special.toNat - firstSpecial.toNat) % lineRange.toNat : Nat) = line
  line_eq_zero_iff : s.line = 0 ↔ lineBase ≤ line ∧ line < lineBase + lineRange
  address_eq_zero_iff : s.address = 0 ↔
    firstSpecial.toNat + (s.special.toNat - firstSpecial.toNat) % lineRange.toNat +
      lineRange.toNat * address ≤ lastSpecial.toNat

/-- Every step is made by what is left over of it and the special instruction. For words the special
instruction is found without leaving them, and its number is not cut to a byte. -/
theorem split_exact (address : Nat) (line : Int) :
    (split address line).Exact address line ∧
      (address < 2 ^ 63 → -2 ^ 31 ≤ line → line < 2 ^ 31 →
        splitInWords address line = some (split address line)) := by
  have hlt := linePart_lt line
  have hpart := linePart_eq line
  have hroom := room_eq (linePart line)
  have haddress := congrArg Step.address (@split_eq address line)
  have hline := congrArg Step.line (@split_eq address line)
  dsimp only at haddress hline
  have hspecial := @toNat_special address line
  have hnumber : (split address line).special.toNat - firstSpecial.toNat =
      linePart line + 15 * min (room (linePart line)) address := by
    rw [hspecial]
    exact Nat.add_sub_cancel_left ..
  refine ⟨{
    special := ⟨?_, ?_⟩
    addresses := ?_
    lines := ?_
    line_eq_zero_iff := ?_
    address_eq_zero_iff := ?_ }, splitInWords_eq⟩
  · rw [UInt8.le_iff_toNat_le, hspecial]
    exact Nat.le_add_right ..
  · rw [UInt8.le_iff_toNat_le, hspecial]
    change _ ≤ 255
    omega
  · rw [hnumber, haddress]
    change _ + _ / 15 = _
    omega
  · rw [hnumber, hline]
    change _ + -4 + ((_ % 15 : Nat) : Int) = _
    omega
  · rw [hline]
    change _ ↔ -4 ≤ line ∧ line < -4 + 15
    omega
  · rw [hnumber, haddress]
    change _ ↔ 10 + _ % 15 + 15 * address ≤ 255
    omega

/-- With the least step of the line a special instruction has room for 16 code units, and 17 leave one
over. -/
theorem split_exact_border : split 17 (-4) = ⟨1, 0, 0xfa⟩ ∧ (⟨1, 0, 0xfa⟩ : Step).Exact 17 (-4) ∧
    (17 : Nat) < 2 ^ 63 ∧ (-2 ^ 31 : Int) ≤ -4 ∧ (-4 : Int) < 2 ^ 31 ∧
      splitInWords 17 (-4) = some ⟨1, 0, 0xfa⟩ := by
  have hsplit : split 17 (-4) = ⟨1, 0, 0xfa⟩ := by decide
  obtain ⟨hexact, hwords⟩ := split_exact 17 (-4)
  rw [hsplit] at hexact hwords
  have hbounds : (17 : Nat) < 2 ^ 63 ∧ (-2 ^ 31 : Int) ≤ -4 ∧ (-4 : Int) < 2 ^ 31 := by decide
  exact ⟨hsplit, hexact, hbounds.1, hbounds.2.1, hbounds.2.2,
    hwords hbounds.1 hbounds.2.1 hbounds.2.2⟩

end DebugOp

end Dalvik
