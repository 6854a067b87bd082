import Dalvik.HiddenApi
import Dalvik.Proofs.Leb128

/-!
# Restrictions are found again

Among the access flags a restriction is found again exactly where the flags leave room for it: what is
unpacked always has such flags, so no others can come back. In a section of their own the table at the
start leads to the numbers of a class; one number after another is then taken from there. A class
without numbers is one whose numbers are all zero.
-/
namespace Dalvik.HiddenApi
open AccessFlags

/-! ## Among the access flags -/

theorem xor_and (x y m : UInt32) : (x ^^^ y) &&& m = (x &&& m) ^^^ (y &&& m) := by
  apply UInt32.toBitVec_inj.mp
  ext i hi
  simp only [UInt32.toBitVec_and, UInt32.toBitVec_xor, BitVec.getElem_and, BitVec.getElem_xor]
  cases x.toBitVec[i] <;> cases y.toBitVec[i] <;> cases m.toBitVec[i] <;> rfl

theorem or_and (x y m : UInt32) : (x ||| y) &&& m = (x &&& m) ||| (y &&& m) := by
  apply UInt32.toBitVec_inj.mp
  ext i hi
  simp only [UInt32.toBitVec_and, UInt32.toBitVec_or, BitVec.getElem_and, BitVec.getElem_or]
  cases x.toBitVec[i] <;> cases y.toBitVec[i] <;> cases m.toBitVec[i] <;> rfl

/-- Bits that were not set are set and cleared again. -/
theorem or_and_not {x s : UInt32} (h : x &&& s = 0) : (x ||| s) &&& ~~~s = x := by
  apply UInt32.toBitVec_inj.mp
  ext i hi
  have hbit := congrArg (fun w : UInt32 => w.toBitVec[i]) h
  simp only [UInt32.toBitVec_and, UInt32.toBitVec_or, UInt32.toBitVec_not, BitVec.getElem_and,
    BitVec.getElem_or, BitVec.getElem_not] at hbit ⊢
  revert hbit
  cases x.toBitVec[i] <;> cases s.toBitVec[i] <;> simp

theorem and_not_and {x s m : UInt32} (h : s &&& m = 0) : (x &&& ~~~s) &&& m = x &&& m := by
  apply UInt32.toBitVec_inj.mp
  ext i hi
  have hbit := congrArg (fun w : UInt32 => w.toBitVec[i]) h
  simp only [UInt32.toBitVec_and, UInt32.toBitVec_not, BitVec.getElem_and, BitVec.getElem_not] at hbit ⊢
  revert hbit
  cases x.toBitVec[i] <;> cases s.toBitVec[i] <;> simp

theorem and_not_self (x s : UInt32) : (x &&& ~~~s) &&& s = 0 := by
  rw [UInt32.and_assoc, UInt32.and_comm (~~~s), UInt32.and_not_self, UInt32.and_zero]

theorem xor_or_xor {x s m : UInt32} (h : s &&& m = 0) : ((x ^^^ m) ||| s) ^^^ m = x ||| s := by
  apply UInt32.toBitVec_inj.mp
  ext i hi
  have hbit := congrArg (fun w : UInt32 => w.toBitVec[i]) h
  simp only [UInt32.toBitVec_and, UInt32.toBitVec_or, UInt32.toBitVec_xor, BitVec.getElem_and,
    BitVec.getElem_or, BitVec.getElem_xor] at hbit ⊢
  revert hbit
  cases x.toBitVec[i] <;> cases s.toBitVec[i] <;> cases m.toBitVec[i] <;> simp

/-- True if more than one visibility bit is set. -/
def severalVisible (access : UInt32) : Bool :=
  access &&& visibility &&& ((access &&& visibility) - 1) != 0

/-- Access flags as real members have them. -/
structure Real (access : UInt32) : Prop where
  visible : severalVisible access = false
  second : access &&& secondFlag access = 0

instance (access : UInt32) : Decidable (Real access) :=
  decidable_of_iff (severalVisible access = false ∧ access &&& secondFlag access = 0)
    ⟨fun h => ⟨h.1, h.2⟩, fun h => ⟨h.visible, h.second⟩⟩

theorem exists_and_visibility (access : UInt32) :
    ∃ n : Fin 8, access &&& visibility = UInt32.ofNat n := by
  have hlt : (access &&& visibility).toNat < 8 := by
    rw [UInt32.toNat_and]
    exact Nat.and_lt_two_pow _ (n := 3) (by decide)
  exact ⟨⟨(access &&& visibility).toNat, hlt⟩, by simp⟩

/-- Of three bits either several are set, or several are not. -/
theorem severalVisible_flip (access : UInt32) :
    severalVisible (access ^^^ visibility) = !severalVisible access := by
  have hflip : (access ^^^ visibility) &&& visibility = (access &&& visibility) ^^^ visibility := by
    rw [xor_and, UInt32.and_self]
  obtain ⟨n, hn⟩ := exists_and_visibility access
  unfold severalVisible
  rw [hflip, hn]
  clear hn hflip
  revert n
  decide

/-- The second bit is apart from those that decide where it is, and from the visibility bits. -/
theorem secondFlag_apart (access : UInt32) : secondFlag access ≠ 0 ∧
    secondFlag access &&& visibility = 0 ∧ secondFlag access &&& isNative = 0 := by
  unfold secondFlag
  split <;> decide

theorem secondFlag_flip (access : UInt32) : secondFlag (access ^^^ visibility) = secondFlag access := by
  have hnone : visibility &&& isNative = 0 := by decide
  have hnative : has (access ^^^ visibility) isNative = has access isNative := by
    rw [has, xor_and, hnone, UInt32.xor_zero, has]
  rw [secondFlag, hnative, secondFlag]

theorem secondFlag_or {access s : UInt32} (h : s &&& isNative = 0) :
    secondFlag (access ||| s) = secondFlag access := by
  have hnative : has (access ||| s) isNative = has access isNative := by
    rw [has, or_and, h, UInt32.or_zero, has]
  rw [secondFlag, hnative, secondFlag]

theorem severalVisible_or {access s : UInt32} (h : s &&& visibility = 0) :
    severalVisible (access ||| s) = severalVisible access := by
  simp only [severalVisible, or_and, h, UInt32.or_zero]

theorem secondFlag_and_not {access s : UInt32} (h : s &&& isNative = 0) :
    secondFlag (access &&& ~~~s) = secondFlag access := by
  have hnative : has (access &&& ~~~s) isNative = has access isNative := by
    rw [has, and_not_and h, has]
  rw [secondFlag, hnative, secondFlag]

theorem severalVisible_and_not {access s : UInt32} (h : s &&& visibility = 0) :
    severalVisible (access &&& ~~~s) = severalVisible access := by
  simp only [severalVisible, and_not_and h]

/-- Taking the second bit out of flags that have at most it in addition to those of a member. -/
theorem unpack_eq {access stored : UInt32} {first second : Bool} (hr : Real access)
    (h : (if severalVisible stored then stored ^^^ visibility else stored) =
      if second then access ||| secondFlag access else access)
    (hfirst : severalVisible stored = first) : unpack stored = (access, unpackedOf (first, second)) := by
  obtain ⟨hne, hvisible, hnative⟩ := secondFlag_apart access
  subst hfirst
  change (let access' := if severalVisible stored then stored ^^^ visibility else stored
    let set := has access' (secondFlag access')
    (if set then access' &&& ~~~(secondFlag access') else access',
      unpackedOf (severalVisible stored, set))) = _
  rw [h]
  cases second with
  | false =>
    have hset : has access (secondFlag access) = false := by
      rw [has, hr.second]
      rfl
    simp only [Bool.false_eq_true, if_false, hset]
  | true =>
    have hself : (access ||| secondFlag access) &&& secondFlag access = secondFlag access := by
      rw [or_and, hr.second, UInt32.zero_or, UInt32.and_self]
    have hset : has (access ||| secondFlag access) (secondFlag access) = true := by
      rw [has, hself]
      simpa using hne
    simp only [if_true, secondFlag_or hnative, hset, or_and_not hr.second]

/-- The flags and the restriction of a real member are found again. -/
theorem unpack_pack {access restriction stored : UInt32} (hr : Real access)
    (h : pack access restriction = .ok stored) : unpack stored = (access, restriction) := by
  obtain ⟨hne, hvisible, hnative⟩ := secondFlag_apart access
  have hflip : severalVisible (access ^^^ visibility) = true := by
    rw [severalVisible_flip, hr.visible]
    rfl
  unfold pack at h
  split at h
  next first second hpacked =>
    have hback : unpackedOf (first, second) = restriction := by
      unfold packedOf at hpacked
      split at hpacked <;> cases hpacked <;> rfl
    cases h
    rw [← hback]
    apply unpack_eq hr
    · cases first <;> cases second <;> simp [hr.visible, hflip, secondFlag_flip, severalVisible_or,
        hvisible, xor_or_xor]
    · cases first <;> cases second <;> simp [hr.visible, hflip, secondFlag_flip, severalVisible_or,
        hvisible]
  · cases h

/-- The flags that are unpacked, with the second bit cleared whether it was set or not. -/
theorem fst_unpack (stored : UInt32) : ∃ access, severalVisible access = false ∧
    (unpack stored).1 = access &&& ~~~(secondFlag access) := by
  have hnone : severalVisible (if severalVisible stored then stored ^^^ visibility else stored) = false := by
    split
    next h => rw [severalVisible_flip, h]; rfl
    next h => exact Bool.eq_false_of_not_eq_true h
  refine ⟨_, hnone, ?_⟩
  generalize hflags : (if severalVisible stored then stored ^^^ visibility else stored) = access
  change (let access' := if severalVisible stored then stored ^^^ visibility else stored
    if has access' (secondFlag access') then access' &&& ~~~(secondFlag access') else access') = _
  rw [hflags]
  dsimp only
  split
  · rfl
  next hclear =>
    have hzero : access &&& secondFlag access = 0 := by simpa [has] using hclear
    have hkept := or_and_not hzero
    rw [or_and, UInt32.and_not_self, UInt32.or_zero] at hkept
    exact hkept.symm

/-- What is unpacked are the flags of a real member. -/
theorem real_unpack (stored : UInt32) : Real (unpack stored).1 := by
  obtain ⟨access, hnone, hflags⟩ := fst_unpack stored
  obtain ⟨-, hvisible, hnative⟩ := secondFlag_apart access
  rw [hflags]
  exact {
    visible := by rw [severalVisible_and_not hvisible, hnone]
    second := by rw [secondFlag_and_not hnative, and_not_self] }

/-- The visibility bits that are set. -/
def visibleBits (access : UInt32) : List UInt32 :=
  [isPublic, isPrivate, isProtected].filter (has access)

theorem severalVisible_eq_false_iff (access : UInt32) :
    severalVisible access = false ↔ (visibleBits access).length ≤ 1 := by
  have hhas {bit : UInt32} (h : visibility &&& bit = bit) :
      has access bit = has (access &&& visibility) bit := by
    rw [has, has, UInt32.and_assoc, h]
  obtain ⟨n, hn⟩ := exists_and_visibility access
  simp only [severalVisible, visibleBits, List.filter_cons, List.filter_nil,
    hhas (show visibility &&& isPublic = isPublic by decide),
    hhas (show visibility &&& isPrivate = isPrivate by decide),
    hhas (show visibility &&& isProtected = isProtected by decide), hn]
  clear hn hhas
  revert n
  decide

theorem real_iff (access : UInt32) :
    Real access ↔ (visibleBits access).length ≤ 1 ∧
      access &&& (if has access isNative then 0x200 else 0x20) = 0 := by
  rw [← severalVisible_eq_false_iff]
  exact ⟨fun h => ⟨h.visible, h.second⟩, fun h => ⟨h.1, h.2⟩⟩

theorem isSome_packedOf (restriction : UInt32) : (packedOf restriction).isSome ↔ restriction < 4 := by
  unfold packedOf
  split
  case h_5 h0 h1 h2 h3 =>
    simp only [← UInt32.toNat_inj, imp_false, UInt32.toNat_ofNat] at h0 h1 h2 h3
    rw [UInt32.lt_iff_toNat_lt]
    refine iff_of_false nofun fun hlt => ?_
    change restriction.toNat < 4 at hlt
    omega
  all_goals decide

theorem exists_pack_iff (access restriction : UInt32) :
    (∃ stored, pack access restriction = .ok stored) ↔ restriction < 4 := by
  rw [← isSome_packedOf]
  unfold pack
  cases packedOf restriction with
  | none => exact iff_of_false nofun nofun
  | some bits => exact iff_of_true ⟨_, rfl⟩ rfl

/-- A restriction can be put among access flags if it is one of the first four, and flags and
restriction are found again if and only if the flags have at most one visibility bit and the place of
the second bit is free, which is another one for native methods. -/
theorem unpack_pack_iff (access restriction : UInt32) :
    ((∃ stored, pack access restriction = .ok stored) ↔ restriction < 4) ∧
      ∀ stored, pack access restriction = .ok stored →
        (unpack stored = (access, restriction) ↔
          (visibleBits access).length ≤ 1 ∧
            access &&& (if has access isNative then 0x200 else 0x20) = 0) := by
  refine ⟨exists_pack_iff access restriction, fun stored h => ?_⟩
  rw [← real_iff]
  constructor
  · intro hback
    have hreal := real_unpack stored
    rwa [hback] at hreal
  · intro hreal
    exact unpack_pack hreal h

/-- A synchronized native method, whose flags are flipped and have a bit more. -/
theorem unpack_pack_iff_native : pack 0x121 2 = .ok 0x326 ∧ unpack 0x326 = (0x121, 2) := by
  have h : pack 0x121 2 = .ok 0x326 := by rfl
  exact ⟨h, ((unpack_pack_iff 0x121 2).2 _ h).mpr (by decide)⟩

/-- Without the native bit a synchronized method does not come back as it was. -/
example : pack 0x21 0 = .ok 0x21 ∧ unpack 0x21 = (0x1, 3) := by decide

/-! ## In a section of their own -/

variable {data : ByteArray} {start index : Nat}

/-- At the place the numbers of a class can be taken one by one. -/
def Numbers (data : ByteArray) : Option Nat → List UInt32 → Prop
  | none, numbers => ∀ n ∈ numbers, n = 0
  | some place, numbers => Bytes.Stands (numbers.flatMap Bytes.uleb) data place

theorem next_eq {place : Option Nat} {n : UInt32} {numbers : List UInt32}
    (h : Numbers data place (n :: numbers)) :
    ∃ after, next data place = .ok (n, after) ∧ Numbers data after numbers := by
  cases place with
  | none =>
    have hn : n = 0 := h n (by simp)
    subst hn
    exact ⟨none, rfl, fun m hm => h m (by simp [hm])⟩
  | some place =>
    have h : Bytes.Stands (Bytes.uleb n ++ numbers.flatMap Bytes.uleb) data place := h
    refine ⟨some (place + (Bytes.uleb n).length), ?_, h.right⟩
    simp only [next, (Decoder.uleb_reads n).decodeAt h.left]
    rfl

/-- The offset of a class leads to its part; only a class without a part has offset 0. -/
theorem offsets_spec {parts : List (Option Bytes)} {base : Nat} (hbase : 0 < base)
    (hs : Bytes.Stands (parts.flatMap (·.getD [])) data (start + base))
    (hfit : base + (parts.flatMap (·.getD [])).length < UInt32.size) {part : Option Bytes}
    (hget : parts[index]? = some part) :
    ∃ offset, (offsets base parts)[index]? = some offset ∧ (offset = 0 ↔ part = none) ∧
      ∀ b ∈ part, b.Stands data (start + offset.toNat) := by
  induction parts generalizing base index with
  | nil => simp at hget
  | cons p parts ih =>
    rw [List.flatMap_cons] at hs
    rw [List.flatMap_cons, List.length_append] at hfit
    cases index with
    | zero =>
      have hp : p = part := by simpa using hget
      subst hp
      cases p with
      | none => exact ⟨0, rfl, by simp, by simp⟩
      | some b =>
        have hnat : (UInt32.ofNat base).toNat = base := UInt32.toNat_ofNat_of_lt' (by omega)
        have hne := ofNat_ne_zero hbase (by omega : base < UInt32.size)
        refine ⟨UInt32.ofNat base, rfl, by simp [hne], ?_⟩
        simp only [Option.mem_def, Option.some.injEq, forall_eq', hnat]
        exact hs.left
    | succ index =>
      have hget : parts[index]? = some part := by simpa using hget
      cases p with
      | none => exact ih hbase hs (by simpa using hfit) hget
      | some b =>
        have hright := hs.right
        rw [Nat.add_assoc] at hright
        simp only [Option.getD_some] at hright hfit
        exact ih (by omega) hright (by omega) hget

theorem length_offsets (base : Nat) (parts : List (Option Bytes)) :
    (offsets base parts).length = parts.length := by
  induction parts generalizing base with
  | nil => rfl
  | cons p parts ih => cases p <;> simp [offsets, ih]

/-- The numbers of the classes as they are stored. -/
def parts (classes : List (Option (List UInt32))) : List (Option Bytes) :=
  classes.map fun numbers? => numbers?.map fun numbers => numbers.flatMap Bytes.uleb

theorem length_table (base : Nat) (classes : List (Option (List UInt32))) :
    ((offsets base (parts classes)).flatMap Bytes.u4).length = 4 * classes.length := by
  simp [parts, List.length_flatMap, length_offsets, Nat.mul_comm]

theorem length_encodeSection (classes : List (Option (List UInt32))) :
    (encodeSection classes).length =
      4 + 4 * classes.length + ((parts classes).flatMap (·.getD [])).length := by
  have htable := length_table (4 + 4 * classes.length) classes
  unfold parts at htable ⊢
  rw [encodeSection, List.length_append, List.length_append, Bytes.length_u4, htable]

/-- The section begins with its length. -/
theorem encodeSection_eq (classes : List (Option (List UInt32))) :
    encodeSection classes = Bytes.u4 (UInt32.ofNat (encodeSection classes).length) ++
      ((offsets (4 + 4 * classes.length) (parts classes)).flatMap Bytes.u4 ++
        (parts classes).flatMap (·.getD [])) := by
  rw [length_encodeSection, ← List.append_assoc]
  rfl

/-- Where the place of the entry is a word, the entry is looked for behind the size of the section. -/
theorem locate_of_size {size : UInt32} (hstart : 0 < start) (hs : (Bytes.u4 size).Stands data start)
    (hword : start + 4 + 4 * index + 4 < 2 ^ 64) :
    locate start index data start =
      (if size.toNat < 4 + 4 * index + 4 then Decoder.fail (.hiddenClass index size.toNat)
      else do
        Decoder.seek (start + 4 + index * 4)
        let offset := (← Decoder.u4).toNat
        return if offset = 0 then none else some (start + offset) : Decoder (Option Nat))
          data (start + 4) := by
  have hsize : UInt64.size = 2 ^ 64 := rfl
  have hscaled : Arithmetic.size .multiply (index * 4) = .ok (index * 4) :=
    Arithmetic.size_eq_ok (by omega)
  have hentry : Arithmetic.size .add (start + 4 + index * 4) = .ok (start + 4 + index * 4) :=
    Arithmetic.size_eq_ok (by omega)
  have hafter : Arithmetic.size .add (start + 4 + index * 4 + 4) =
      .ok (start + 4 + index * 4 + 4) := Arithmetic.size_eq_ok (by omega)
  rw [locate, if_neg (by omega), Decoder.seek_bind, Decoder.bind_of_ok (Decoder.u4_reads _ hs)]
  dsimp only
  rw [Decoder.lift_of_ok hscaled, Decoder.lift_of_ok hentry, Decoder.lift_of_ok hafter]
  by_cases hpast : size.toNat < 4 + 4 * index + 4
  · rw [if_pos (by omega), if_pos hpast]
    rfl
  · rw [if_neg (by omega), if_neg hpast]
    rfl

theorem encodeSection_ne_nil {classes : List (Option (List UInt32))} : encodeSection classes ≠ [] := by
  rw [← List.length_pos_iff, length_encodeSection]
  omega

/-- The numbers of a class are found in the section. -/
theorem locate_eq {classes : List (Option (List UInt32))} (hstart : 0 < start)
    (hs : (encodeSection classes).Stands data start)
    (hfit : (encodeSection classes).length < UInt32.size)
    (hword : start + (encodeSection classes).length < 2 ^ 64)
    {numbers : Option (List UInt32)} (hget : classes[index]? = some numbers) :
    ∃ place, (locate start index).valueAt data start = .ok place ∧
      (numbers = none → place = none) ∧ ∀ ns ∈ numbers, Numbers data place ns := by
  have hindex : index < classes.length := (List.getElem?_eq_some_iff.mp hget).1
  have hpart : (parts classes)[index]? = some (numbers.map fun ns => ns.flatMap Bytes.uleb) := by
    simp [parts, hget]
  have hnat := UInt32.toNat_ofNat_of_lt' hfit
  rw [encodeSection_eq] at hs
  rw [length_encodeSection] at hs hfit hnat hword
  have hdata := hs.right.right
  rw [length_table, Bytes.length_u4, Nat.add_assoc] at hdata
  obtain ⟨offset, hoffset, hzero, hlead⟩ := offsets_spec (by omega) hdata hfit hpart
  -- the entry of the class in the table
  have hentry : (Bytes.u4 offset).Stands data (start + 4 + index * 4) := by
    have hright := hs.right.left
    rw [List.flatMap_def] at hright
    exact hright.getElem?_flatten (by simp) (by simp [hoffset])
  have hread := Decoder.u4_reads offset hentry
  have hrun : locate start index data start =
      .ok (if offset.toNat = 0 then none else some (start + offset.toNat))
        (start + 4 + index * 4 + 4) := by
    rw [locate_of_size hstart hs.left (by omega), hnat, if_neg (by omega), Decoder.seek_bind,
      Decoder.bind_of_ok hread]
    rfl
  have hoff : offset.toNat = 0 ↔ numbers = none := by
    rw [← UInt32.toNat_zero, UInt32.toNat_inj, hzero, Option.map_eq_none_iff]
  refine ⟨if offset.toNat = 0 then none else some (start + offset.toNat), ?_, ?_, ?_⟩
  · simp only [Decoder.valueAt, hrun]
  · intro hnone
    rw [if_pos (hoff.mpr hnone)]
  · intro ns hns
    have hns : numbers = some ns := hns
    subst hns
    rw [if_neg fun h => by simpa using hoff.mp h]
    exact hlead _ rfl

end Dalvik.HiddenApi
