import Dalvik.Proofs.HiddenApi

/-!
# The section of restrictions serves every class

While the section is written its table is zero from the entry of the next class on, and what stands
behind the table are the numbers of the classes so far; so an offset that is filled in is the one the
finished section has there. Taking numbers from the place of a class then gives the numbers of the
class, and an index whose entry is not in the section is refused.
-/
namespace Dalvik.HiddenApi

/-! ## Writing the section -/

theorem overwrite_u4 {front : Bytes} {position : Nat} (h : front.length = position) (old new : UInt32)
    (after : Bytes) : (front ++ (Bytes.u4 old ++ after)).overwrite position (Bytes.u4 new) =
      front ++ (Bytes.u4 new ++ after) :=
  overwrite_append h rfl

/-- The entries in front are settled, those of the classes that are left are zero, and `stored` are the
numbers that have been written. -/
theorem writeClasses_eq {start index base : Nat} {classes : List (Option (List UInt32))}
    {front stored : Bytes} (hfront : front.length = start + 4 + 4 * index)
    (hbase : front.length + 4 * classes.length + stored.length = start + base) :
    (writeClasses start index classes).run
        (front ++ (List.replicate (4 * classes.length) 0 ++ stored)) =
      ((), front ++ ((offsets base (parts classes)).flatMap Bytes.u4 ++
        (stored ++ (parts classes).flatMap (·.getD [])))) := by
  induction classes generalizing index base front stored with
  | nil =>
    simp only [parts, offsets, List.map_nil, List.flatMap_nil, List.append_nil, List.length_nil,
      List.nil_append]
    rfl
  | cons numbers? classes ih =>
    rw [List.length_cons] at hbase
    have hzeros : List.replicate (4 * (numbers? :: classes).length) 0 =
        Bytes.u4 0 ++ List.replicate (4 * classes.length) 0 := rfl
    have hnext (entry : UInt32) : (front ++ Bytes.u4 entry).length = start + 4 + 4 * (index + 1) := by
      rw [List.length_append, Bytes.length_u4, hfront]
      omega
    rw [hzeros, List.append_assoc]
    cases numbers? with
    | none =>
      have hleft : (front ++ Bytes.u4 0).length + 4 * classes.length + stored.length =
          start + base := by
        rw [hnext]
        omega
      have hrest := ih (hnext 0) hleft
      simpa [writeClasses, parts, offsets] using hrest
    | some numbers =>
      have hstep (buffer : Bytes) : (writeClasses start index (some numbers :: classes)).run buffer =
          (writeClasses start (index + 1) classes).run
            (buffer.overwrite (start + 4 + 4 * index)
                (Bytes.u4 (UInt32.ofNat (buffer.length - start))) ++
              numbers.flatMap Bytes.uleb) := rfl
      -- what is filled in is where the next numbers go
      have hhere : (front ++ (Bytes.u4 0 ++ (List.replicate (4 * classes.length) 0 ++
          stored))).length - start = base := by
        simp only [List.length_append, Bytes.length_u4, List.length_replicate]
        omega
      have hleft : (front ++ Bytes.u4 (UInt32.ofNat base)).length + 4 * classes.length +
          (stored ++ numbers.flatMap Bytes.uleb).length =
            start + (base + (numbers.flatMap Bytes.uleb).length) := by
        rw [hnext, List.length_append]
        omega
      have hrest := ih (hnext (UInt32.ofNat base)) hleft
      rw [hstep, overwrite_u4 hfront, hhere]
      simpa [parts, offsets] using hrest

/-- The section is written behind what there is and zeros that align it. -/
theorem writeSection_eq (classes : List (Option (List UInt32))) (before : Bytes) :
    (writeSection classes).run before =
      (alignUp before.length 4, before ++ padding before.length 4 ++ encodeSection classes) := by
  have hrun : (writeSection classes).run before =
      let front := before ++ padding before.length 4
      let start := front.length
      let buffer := ((writeClasses start 0 classes).run
        (front ++ Bytes.u4 0 ++ List.replicate (4 * classes.length) 0)).2
      (start, buffer.overwrite start (Bytes.u4 (UInt32.ofNat (buffer.length - start)))) := rfl
  rw [hrun]
  generalize hfront : before ++ padding before.length 4 = front
  have hstart : front.length = alignUp before.length 4 := by
    rw [← hfront, List.length_append, length_padding]
  have htable : (front ++ Bytes.u4 0).length = front.length + 4 + 4 * 0 := by simp
  have hleft : (front ++ Bytes.u4 0).length + 4 * classes.length + ([] : Bytes).length =
      front.length + (4 + 4 * classes.length) := by
    rw [htable, List.length_nil]
    omega
  have hclasses := writeClasses_eq htable hleft
  rw [List.append_nil, List.nil_append] at hclasses
  have hlength : (front ++ (Bytes.u4 0 ++ ((offsets (4 + 4 * classes.length)
      (parts classes)).flatMap Bytes.u4 ++ (parts classes).flatMap (·.getD [])))).length -
        front.length = (encodeSection classes).length := by
    simp only [List.length_append, Bytes.length_u4, length_table, length_encodeSection]
    omega
  dsimp only
  rw [hclasses, List.append_assoc]
  dsimp only
  rw [hlength, overwrite_u4 rfl, hstart, ← encodeSection_eq]

theorem flatMap_parts (classes : List (Option (List UInt32))) :
    (parts classes).flatMap (·.getD []) =
      (classes.flatMap (·.getD [])).flatMap Bytes.uleb := by
  rw [parts, List.flatMap_map, List.flatMap_assoc]
  congr 1
  funext numbers?
  cases numbers? <;> rfl

theorem length_flatMap_uleb_le (numbers : List UInt32) :
    (numbers.flatMap Bytes.uleb).length ≤ 5 * numbers.length := by
  induction numbers with
  | nil => exact Nat.le_refl _
  | cons n numbers ih =>
    have hfive := Bytes.length_uleb_le n
    rw [List.flatMap_cons, List.length_append, List.length_cons]
    omega

theorem length_encodeSection_le (classes : List (Option (List UInt32))) :
    (encodeSection classes).length ≤
      4 + 4 * classes.length + 5 * (classes.flatMap (·.getD [])).length := by
  rw [length_encodeSection, flatMap_parts]
  exact Nat.add_le_add_left (length_flatMap_uleb_le _) _

variable {data : ByteArray} {start : Nat}

theorem stands_size {classes : List (Option (List UInt32))}
    (h : (encodeSection classes).Stands data start) :
    (Bytes.u4 (UInt32.ofNat (encodeSection classes).length)).Stands data start := by
  rw [encodeSection_eq] at h
  exact h.left

/-! ## Taking the numbers -/

/-- The answers of so many calls, each from the place that the one before left. -/
def calls (bytes : ByteArray) : (count : Nat) → Option Nat → Result (List UInt32)
  | 0, _ => .ok []
  | count + 1, place => do
    let (restriction, after) ← next bytes place
    return restriction :: (← calls bytes count after)

theorem calls_of_numbers {place : Option Nat} {numbers : List UInt32}
    (h : Numbers data place numbers) : calls data numbers.length place = .ok numbers := by
  induction numbers generalizing place with
  | nil => rfl
  | cons n numbers ih =>
    obtain ⟨after, hnext, hafter⟩ := next_eq h
    rw [List.length_cons, calls, hnext]
    change (do return n :: (← calls data numbers.length after)) = _
    rw [ih hafter]
    rfl

/-- Calls from the place of a class give its numbers in order, or 0 for ever if it has none. -/
def Serves (data : ByteArray) (place : Option Nat) : Option (List UInt32) → Prop
  | none => ∀ count, calls data count place = .ok (List.replicate count 0)
  | some numbers => calls data numbers.length place = .ok numbers

theorem serves_of_located {place : Option Nat} {numbers? : Option (List UInt32)}
    (hnone : numbers? = none → place = none)
    (hsome : ∀ numbers ∈ numbers?, Numbers data place numbers) : Serves data place numbers? := by
  cases numbers? with
  | some numbers => exact calls_of_numbers (hsome numbers rfl)
  | none =>
    intro count
    have hzeros : Numbers data none (List.replicate count 0) := fun n hn => List.eq_of_mem_replicate hn
    have hcalls := calls_of_numbers hzeros
    rwa [List.length_replicate, ← hnone rfl] at hcalls

/-- A class is refused if its entry is not inside the size that the section begins with. -/
theorem locate_of_past {size : UInt32} {index : Nat} (hstart : 0 < start)
    (hs : (Bytes.u4 size).Stands data start) (hpast : size.toNat < 4 + 4 * index + 4)
    (hword : start + 4 + 4 * index + 4 < 2 ^ 64) :
    (locate start index).valueAt data start = Result.malformed (.hiddenClass index size.toNat) := by
  simp only [Decoder.valueAt, locate_of_size hstart hs hword, if_pos hpast]
  rfl

/-- An index that is too large to be counted in bytes is not looked for. -/
theorem locate_of_overflow {size : UInt32} {index : Nat} (hstart : 0 < start)
    (hs : (Bytes.u4 size).Stands data start) (hindex : 2 ^ 64 ≤ index * 4) :
    (locate start index).valueAt data start = Arithmetic.overflow .multiply := by
  have hscaled : Arithmetic.size .multiply (index * 4) = Arithmetic.overflow .multiply :=
    if_neg (Nat.not_lt.mpr hindex)
  have hrun : locate start index data start =
      .error (.ofCause (.fault (.overflow .multiply))) (start + 4) := by
    rw [locate, if_neg (by omega), Decoder.seek_bind, Decoder.bind_of_ok (Decoder.u4_reads _ hs)]
    dsimp only
    rw [hscaled]
    rfl
  simp only [Decoder.valueAt, hrun]
  rfl

/-- Whatever is in front of the section and behind it, the section begins with its length; the place of
every class is found, and calls from there give the numbers of the class in order, or 0 for ever if it
has none; and an index is refused if its entry is not inside the section. The length is stored in 32
bits, which are enough for far more classes and numbers than a file can hold, and the places of the
entries are counted with 64. -/
theorem serves_writeSection (classes : List (Option (List UInt32))) (before after : Bytes)
    (hbefore : before ≠ []) :
    let written := (writeSection classes).run before
    let start := written.1
    let length := written.2.length - start
    let data := (written.2 ++ after).toByteArray
    before <+: written.2 ∧ start = alignUp before.length 4 ∧
      Decoder.u4.valueAt data start = .ok (UInt32.ofNat length) ∧
      (∀ index, length < 4 + 4 * index + 4 → start + 4 + 4 * index + 4 < 2 ^ 64 →
        ∃ e, (locate start index).valueAt data start = .error e ∧ e.kind = .invalidFormat) ∧
      (4 + 4 * classes.length + 5 * (classes.flatMap (·.getD [])).length < UInt32.size →
        length < UInt32.size) ∧
      (length < UInt32.size → (UInt32.ofNat length).toNat = length ∧ (written.2.length < 2 ^ 64 →
        ∀ index (h : index < classes.length),
          ∃ place, (locate start index).valueAt data start = .ok place ∧
            Serves data place classes[index])) := by
  intro written start length data
  have hstart : start = alignUp before.length 4 := congrArg Prod.fst (writeSection_eq classes before)
  have hbytes : written.2 = before ++ padding before.length 4 ++ encodeSection classes :=
    congrArg Prod.snd (writeSection_eq classes before)
  have hfront : (before ++ padding before.length 4).length = start := by
    rw [List.length_append, length_padding, hstart]
  have hlength : length = (encodeSection classes).length := by
    change written.2.length - start = _
    rw [hbytes, List.length_append, hfront, Nat.add_sub_cancel_left]
  have hpos : 0 < start := by
    rw [← hfront, List.length_append]
    exact Nat.add_pos_left (List.length_pos_of_ne_nil hbefore) _
  have hs : (encodeSection classes).Stands data start := by
    change (encodeSection classes).Stands (written.2 ++ after).toByteArray start
    rw [hbytes, ← hfront]
    exact Bytes.stands_toByteArray _ _ _
  have hsize := stands_size hs
  rw [← hlength] at hsize
  refine ⟨?_, hstart, (Decoder.u4_reads _).valueAt hsize, ?_, ?_, ?_⟩
  · rw [hbytes, List.append_assoc]
    exact List.prefix_append _ _
  · intro index hpast hword
    refine ⟨_, locate_of_past hpos hsize ?_ hword, rfl⟩
    exact Nat.lt_of_le_of_lt (Nat.mod_le _ _) hpast
  · exact Nat.lt_of_le_of_lt (hlength ▸ length_encodeSection_le classes)
  · intro hfit
    refine ⟨UInt32.toNat_ofNat_of_lt' hfit, fun hword index h => ?_⟩
    rw [hbytes, List.length_append, hfront] at hword
    obtain ⟨place, hplace, hnone, hsome⟩ :=
      locate_eq hpos hs (hlength ▸ hfit) hword (List.getElem?_eq_getElem h)
    exact ⟨place, hplace, serves_of_located hnone hsome⟩

/-- The numbers of two classes, with a class in between that has none. -/
def sparseClasses : List (Option (List UInt32)) := [some [0, 1, 300], none, some [2]]

theorem run_sparseClasses : (writeSection sparseClasses).run [0xaa] =
    (4, [0xaa, 0, 0, 0, 21, 0, 0, 0, 16, 0, 0, 0, 0, 0, 0, 0, 20, 0, 0, 0, 0, 1, 0xac, 2, 2]) := by
  cbv

theorem serves_writeSection_sparse : ([0xaa] : Bytes) ≠ [] ∧
    (4 + 4 * sparseClasses.length + 5 * (sparseClasses.flatMap (·.getD [])).length < UInt32.size ∧
      ((writeSection sparseClasses).run [0xaa]).1 = 4) ∧
    ∃ place, (locate 4 0).valueAt
        (((writeSection sparseClasses).run [0xaa]).2 ++ [0xff]).toByteArray 4 = .ok place ∧
      calls (((writeSection sparseClasses).run [0xaa]).2 ++ [0xff]).toByteArray 3 place =
        .ok [0, 1, 300] := by
  have hfew : 4 + 4 * sparseClasses.length + 5 * (sparseClasses.flatMap (·.getD [])).length <
      UInt32.size := by decide
  obtain ⟨-, -, -, -, hsmall, hfind⟩ := serves_writeSection sparseClasses [0xaa] [0xff] (by decide)
  have hword : ((writeSection sparseClasses).run [0xaa]).2.length < 2 ^ 64 := by
    rw [run_sparseClasses]
    decide
  exact ⟨by decide, ⟨hfew, by decide⟩, (hfind (hsmall hfew)).2 hword 0 (by decide)⟩

theorem length_encodeSection_zeros (n : Nat) :
    (encodeSection [some (List.replicate n 0)]).length = 8 + n := by
  have hzero : Bytes.uleb 0 = [0] := by cbv
  rw [length_encodeSection, flatMap_parts]
  simp [List.length_flatMap, hzero]

/-- No entry is found for an index of 2 ^ 62, nor is it refused; and a section with 2 ^ 32 numbers
begins with the length 8. -/
theorem locate_writeSection_wrapped :
    let sparse := ((writeSection sparseClasses).run [0xaa]).2
    let full := ((writeSection [some (List.replicate (2 ^ 32) (0 : UInt32))]).run [0xaa]).2
    sparse.length - 4 < 4 + 4 * 2 ^ 62 + 4 ∧
      (locate 4 (2 ^ 62)).valueAt sparse.toByteArray 4 = Arithmetic.overflow .multiply ∧
      full.length - 4 = 8 + 2 ^ 32 ∧ Decoder.u4.valueAt full.toByteArray 4 = .ok 8 := by
  have hzeros := length_encodeSection_zeros (2 ^ 32)
  -- of the long section only its length matters
  generalize [some (List.replicate (2 ^ 32) (0 : UInt32))] = classes at hzeros
  have hsize := stands_size (Bytes.stands_toByteArray [0xaa, 0, 0, 0] (encodeSection classes) [])
  rw [hzeros] at hsize
  have hfull : ((writeSection classes).run [0xaa]).2 = [0xaa, 0, 0, 0] ++ encodeSection classes :=
    congrArg Prod.snd (writeSection_eq classes [0xaa])
  dsimp only
  rw [run_sparseClasses, hfull]
  refine ⟨by decide, ?_, ?_, ?_⟩
  · have hsize : (Bytes.u4 21).Stands ([0xaa, 0, 0, 0, 21, 0, 0, 0, 16, 0, 0, 0, 0, 0, 0, 0, 20, 0, 0,
        0, 0, 1, 0xac, 2, 2] : Bytes).toByteArray 4 := List.prefix_append _ _
    exact locate_of_overflow (by decide) hsize (by decide)
  · rw [List.length_append, hzeros]
    rfl
  · have hread := (Decoder.u4_reads _).valueAt hsize
    rwa [List.append_nil] at hread

end Dalvik.HiddenApi
