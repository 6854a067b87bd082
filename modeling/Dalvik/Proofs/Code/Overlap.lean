import Dalvik.Proofs.Code.RoundTrip

/-!
# Try blocks with addresses in common

Blocks are written in the order of their addresses, and blocks that begin at one address are refused.
How long the blocks are is not looked at. So blocks that are written have no address in common exactly
if none of those with units in them reaches into the next one of these, and that is not checked.
-/
namespace Dalvik
open Result

namespace TryBlock
variable {a b c : TryBlock} {tries : List TryBlock} {r : Resolver} {out : Bytes}

/-- The address behind the block. -/
def stop (t : TryBlock) : Nat := t.start.toNat + t.units.toNat

def Covers (t : TryBlock) (address : Nat) : Prop := t.start.toNat ≤ address ∧ address < t.stop

/-- The blocks have an address in common. -/
def Overlaps (a b : TryBlock) : Prop := ∃ address, a.Covers address ∧ b.Covers address

/-- The first block ends before the second one begins, or there. -/
def Precedes (a b : TryBlock) : Prop := a.stop ≤ b.start.toNat

theorem Precedes.trans (hab : a.Precedes b) (hbc : b.Precedes c) : a.Precedes c :=
  Nat.le_trans hab (Nat.le_trans (Nat.le_add_right ..) hbc)

instance : IsTrans TryBlock Precedes := ⟨fun _ _ _ => Precedes.trans⟩

/-- Of two blocks, the one that begins first has to end where the other begins, unless one of them is
empty. -/
theorem not_overlaps_iff (h : a.start < b.start) :
    ¬ a.Overlaps b ↔ (a.units ≠ 0 → b.units ≠ 0 → a.Precedes b) := by
  rw [UInt32.lt_iff_toNat_lt] at h
  have hunits (t : TryBlock) : t.units ≠ 0 ↔ t.units.toNat ≠ 0 := by
    rw [ne_eq, ← UInt16.toNat_inj]
    rfl
  rw [hunits, hunits]
  unfold Precedes
  constructor
  · intro hno ha hb
    by_contra hreach
    -- then the first address of the later block is in both
    refine hno ⟨b.start.toNat, ⟨h.le, Nat.not_le.mp hreach⟩, Nat.le_refl _, ?_⟩
    unfold stop
    omega
  · rintro hall ⟨address, ⟨hstart, hstop⟩, hstart', hstop'⟩
    unfold stop at *
    have hle := hall (by omega) (by omega)
    omega

/-- It is enough to look at neighbours among the blocks that are not empty. -/
theorem pairwise_not_overlaps_iff (h : tries.Pairwise fun a b => a.start < b.start) :
    tries.Pairwise (fun a b => ¬ a.Overlaps b) ↔
      (tries.filter fun t => t.units ≠ 0).IsChain Precedes := by
  rw [List.isChain_iff_pairwise, List.pairwise_filter]
  simp only [decide_eq_true_eq]
  constructor
  · exact fun hno => h.imp₂ (fun a b hlt => (not_overlaps_iff hlt).mp) hno
  · exact fun hall => h.imp₂ (fun a b hlt => (not_overlaps_iff hlt).mpr) hall

/-! ## What is refused -/

/-- The blocks are put in order, or an address at which two of them begin is told. -/
theorem sorted_cases (tries : List TryBlock) :
    ((tries.map start).Nodup ∧ sorted tries = .ok (sortedBy (compareOn start) tries) ∧
        (sortedBy (compareOn start) tries).Pairwise fun a b => a.start < b.start) ∨
      ∃ address, (tries.map start).Duplicate address ∧
        sorted tries = Result.violation (.tryOverlap address.toNat) := by
  have hperm : ((sortedBy (compareOn start) tries).map start).Perm (tries.map start) :=
    (sortedBy_perm _ _).map _
  unfold sorted
  dsimp only
  split
  next t h =>
    have hsorted := List.duplicate_iff_two_le_count.mp (duplicate_of_firstAdjacent? h)
    rw [hperm.count_eq] at hsorted
    exact .inr ⟨t.start, List.duplicate_iff_two_le_count.mpr hsorted, rfl⟩
  next h =>
    have hlt := pairwise_lt_of_firstAdjacent? (pairwise_sortedBy (byKey compare start) tries) h
    have hlt : (sortedBy (compareOn start) tries).Pairwise fun a b => a.start < b.start :=
      hlt.imp Std.compare_eq_lt.mp
    exact .inl ⟨hperm.nodup_iff.mp (List.pairwise_map.mpr (hlt.imp UInt32.ne_of_lt)), rfl, hlt⟩

/-! ## What is written -/

/-- The entry of the table for a block; the offset is that of its handler. -/
def Entry (t : TryBlock) (entry : Bytes) : Prop :=
  ∃ offset : UInt16, entry = Bytes.u4 t.start ++ Bytes.u2 t.units ++ Bytes.u2 offset

theorem exists_entries (h : encodeAll r tries = .ok out) :
    ∃ entries, List.Forall₂ Entry tries entries ∧ entries.flatten <+: out := by
  unfold encodeAll at h
  split at h
  next hempty =>
    obtain rfl := List.isEmpty_iff.mp hempty
    exact ⟨[], .nil, List.nil_prefix⟩
  · obtain ⟨handlers, -, h⟩ := bind_eq_ok.mp h
    obtain ⟨entries, hentries, h⟩ := bind_eq_ok.mp h
    obtain rfl := pure_eq_ok.mp h
    refine ⟨entries, (mapM_eq_ok.mp hentries).imp fun t entry ht => ?_, ?_⟩
    · split at ht
      next offset part _ => exact ⟨offset, (Except.ok.inj ht).symm⟩
      · cases ht
    · rw [List.append_assoc]
      exact List.prefix_append ..

end TryBlock

namespace CodeItem
variable {compact : Bool} {table : OpcodeTable} {r : Resolver} {i : CodeItem} {placed : Placed}
  {position : Nat} {tries : List TryBlock} {front header : Bytes}

/-- The bytes from the offset of an item up to its instructions. -/
def headerSize (compact : Bool) : Nat := if compact then 4 else 16

theorem length_header (h : i.encodeHeader compact position tries = .ok (front, header)) :
    header.length = headerSize compact := by
  obtain ⟨e, -, h⟩ := bind_eq_ok.mp h
  cases compact with
  | true =>
    rw [if_pos rfl] at h
    obtain ⟨-, -, rfl⟩ := CodeHeader.encodeCompact_eq_ok_iff.mp h
    rfl
  | false =>
    rw [if_neg Bool.false_ne_true] at h
    obtain ⟨-, rfl⟩ := Prod.mk.inj (pure_eq_ok.mp h)
    rfl

/-- Where the table of the blocks begins in an item that is written at an offset. -/
def tableStart (compact : Bool) (i : CodeItem) (offset : Nat) : Nat :=
  alignUp (offset + headerSize compact + 2 * Instruction.unitsOf i.instructions) TryBlock.alignment

/-- The blocks of the item as they are written: one entry for each behind the instructions, in the
order of the addresses at which they begin. -/
structure Written (compact : Bool) (position : Nat) (i : CodeItem) (placed : Placed)
    (tries : List TryBlock) : Prop where
  perm : tries.Perm i.tries
  increasing : tries.Pairwise fun a b => a.start < b.start
  entries : ∃ entries, List.Forall₂ TryBlock.Entry tries entries ∧
    entries.flatten <+: placed.bytes.drop (i.tableStart compact placed.offset - position)

theorem exists_entries (htries : TryBlock.sorted i.tries = .ok tries)
    (h : i.encode compact table r position = .ok placed) :
    ∃ entries, List.Forall₂ TryBlock.Entry tries entries ∧
      entries.flatten <+: placed.bytes.drop (i.tableStart compact placed.offset - position) := by
  obtain ⟨_, front, header, code, blocks, hparts⟩ := exists_parts h
  obtain rfl := Except.ok.inj (htries.symm.trans hparts.sorted)
  obtain ⟨entries, hentries, hbegin⟩ := TryBlock.exists_entries hparts.behind
  refine ⟨entries, hentries, ?_⟩
  have hsize := length_header hparts.head
  have hoffset := hparts.offset
  have hlength := hparts.length
  rw [hparts.bytes]
  by_cases hempty : tries.isEmpty
  · obtain rfl := List.isEmpty_iff.mp hempty
    obtain rfl := List.forall₂_nil_left_iff.mp hentries
    exact List.nil_prefix
  · rw [if_neg hempty, hsize, hlength]
    -- the instructions end as far behind the offset as their units say, so the padding goes up to the
    -- table
    have hgap := length_padding
      (placed.offset + headerSize compact + 2 * Instruction.unitsOf i.instructions)
      TryBlock.alignment
    change _ = i.tableStart compact placed.offset at hgap
    simp only [← List.append_assoc]
    rw [List.drop_left']
    · exact hbegin
    · simp only [List.length_append]
      omega

/-- An item is refused for its blocks if two of them begin at the same address. If it is written then
the blocks stand in the order of their addresses, and no two of them have an address in common exactly
if each block that is not empty ends before the next such block begins. Nothing makes sure of that. -/
theorem tries_encode (compact : Bool) (table : OpcodeTable) (r : Resolver) (position : Nat)
    (i : CodeItem) :
    ((i.tries.map TryBlock.start).Nodup ↔
      TryBlock.sorted i.tries = .ok (sortedBy (compareOn TryBlock.start) i.tries)) ∧
    (¬ (i.tries.map TryBlock.start).Nodup →
      ∃ address, (i.tries.map TryBlock.start).Duplicate address ∧
        i.encode compact table r position = Result.violation (.tryOverlap address.toNat)) ∧
    ∀ placed, i.encode compact table r position = .ok placed →
      ∃ tries, Written compact position i placed tries ∧
        (tries.Pairwise (fun a b => ¬ a.Overlaps b) ↔
          (tries.filter fun t => t.units ≠ 0).IsChain TryBlock.Precedes) := by
  rcases TryBlock.sorted_cases i.tries with ⟨hnodup, hsorted, hlt⟩ | ⟨address, hduplicate, hsorted⟩
  · refine ⟨iff_of_true hnodup hsorted, fun h => absurd hnodup h, fun placed h => ?_⟩
    exact ⟨_, ⟨sortedBy_perm _ _, hlt, exists_entries hsorted h⟩,
      TryBlock.pairwise_not_overlaps_iff hlt⟩
  · have hnodup := List.exists_duplicate_iff_not_nodup.mp ⟨address, hduplicate⟩
    have hencode : i.encode compact table r position =
        Result.violation (.tryOverlap address.toNat) := by
      unfold encode
      simp only [hsorted]
      rfl
    refine ⟨iff_of_false hnodup ?_, fun _ => ⟨address, hduplicate, hencode⟩, fun placed h => ?_⟩
    · rw [hsorted]
      exact violation_ne_ok
    · rw [hencode] at h
      cases h

def catchingAll : CatchHandler := ⟨[], some 3⟩

/-- Four units that do nothing; the second one is in both blocks. -/
def overlappingCode : CodeItem :=
  ⟨1, 0, 0, 0, List.replicate 4 ⟨⟨0, by decide⟩, .f10x⟩, [⟨0, 2, catchingAll⟩, ⟨1, 2, catchingAll⟩]⟩

/-- Both blocks are written although they share an address. -/
theorem encode_overlappingCode :
    (overlappingCode.encode false (.ofTarget (WriteOptions.target {})) twoNames 0).map Placed.bytes =
      .ok [1, 0, 0, 0, 0, 0, 2, 0, 0, 0, 0, 0, 4, 0, 0, 0, 0, 0, 0, 0, 0, 0, 0, 0,
        0, 0, 0, 0, 2, 0, 1, 0, 1, 0, 0, 0, 2, 0, 1, 0, 1, 0, 3] ∧
    ∃ a b, overlappingCode.tries = [a, b] ∧ a.Overlaps b := by
  have hsorted : TryBlock.sorted overlappingCode.tries = .ok overlappingCode.tries := by cbv
  have hheader : overlappingCode.encodeHeader false 0 overlappingCode.tries =
      .ok ([], [1, 0, 0, 0, 0, 0, 2, 0, 0, 0, 0, 0, 4, 0, 0, 0]) := by cbv
  have hcode : Instruction.encodeAll (.ofTarget (WriteOptions.target {})) twoNames 16
      overlappingCode.instructions = .ok [0, 0, 0, 0, 0, 0, 0, 0] := by decide +kernel
  have hhandler : CatchHandler.encodeFrom twoNames 1 [catchingAll] =
      .ok [(catchingAll, 1, [0, 3])] := by cbv
  have hblocks := TryBlock.encodeAll_pair hhandler 0 1 2 2
  refine ⟨map_eq_ok.mpr ⟨⟨_, 0⟩, ?_, rfl⟩, _, _, rfl, 1, ⟨by decide, by decide⟩, by decide, by decide⟩
  exact bind_eq_ok.mpr ⟨_, hsorted, bind_eq_ok.mpr ⟨_, hheader, bind_eq_ok.mpr ⟨_, hcode,
    violation_guard_eq_ok.mpr ⟨by decide, bind_eq_ok.mpr ⟨_, hblocks, rfl⟩⟩⟩⟩⟩

end CodeItem

end Dalvik
