import Dalvik.Proofs.Nesting
import Dalvik.Proofs.Value.RoundTrip

/-!
# Values that are nested too deeply

The depth of a value is the largest number of arrays and annotations that enclose a value inside it. A
reader that has room for fewer stops with an error of its own, whatever stands around the value. The
induction is on the room; at each step one member of the array or the annotation is refused, and
those in front of it are read.
-/
namespace Dalvik

/-! ## What encloses a value -/

/-- The values that an array or an annotation directly encloses. -/
def Value.members : Value → List Value
  | .array values => values
  | .annotated a => a.elements.map Element.value
  | _ => []

/-- The last value is inside the first one, where that many arrays and annotations enclose it. -/
inductive Value.Encloses : Value → Nat → Value → Prop
  | self (v : Value) : Encloses v 0 v
  | member {v w x : Value} {n : Nat} (hw : w ∈ v.members) (h : Encloses w n x) :
    Encloses v (n + 1) x

/-- A value inside is enclosed by more arrays and annotations than are allowed. -/
def Value.TooDeep (v : Value) : Prop := ∃ n w, v.Encloses n w ∧ maxNesting < n

theorem Value.lt_depthAll {vs : List Value} {n : Nat} :
    n < Value.depthAll vs ↔ ∃ v ∈ vs, n ≤ v.depth := by
  induction vs with
  | nil => simp [Value.depthAll]
  | cons v vs ih =>
    rw [Value.depthAll, lt_max_iff, ih, Nat.lt_succ_iff, List.exists_mem_cons_iff]

theorem Element.lt_depthAll {es : List Element} {n : Nat} :
    n < Element.depthAll es ↔ ∃ e ∈ es, n ≤ e.value.depth := by
  induction es with
  | nil => simp [Element.depthAll]
  | cons e es ih =>
    obtain ⟨name, v⟩ := e
    rw [Element.depthAll, lt_max_iff, ih, Nat.lt_succ_iff, List.exists_mem_cons_iff]

theorem Value.lt_depth_iff {v : Value} {n : Nat} : n < v.depth ↔ ∃ w ∈ v.members, n ≤ w.depth := by
  cases v with
  | array values => rw [Value.depth, Value.lt_depthAll, Value.members]
  | annotated a =>
    obtain ⟨type, elements⟩ := a
    rw [Value.depth, AnnotationValue.depth, Element.lt_depthAll, Value.members]
    simp
  | _ => simp [Value.depth, Value.members]

/-- The depth is the largest number of arrays and annotations that enclose one value inside. -/
theorem Value.le_depth_iff {v : Value} {n : Nat} : n ≤ v.depth ↔ ∃ w, v.Encloses n w := by
  constructor
  · intro h
    induction n generalizing v with
    | zero => exact ⟨v, .self v⟩
    | succ n ih =>
      obtain ⟨w, hw, hn⟩ := Value.lt_depth_iff.mp h
      obtain ⟨x, hx⟩ := ih hn
      exact ⟨x, .member hw hx⟩
  · rintro ⟨w, h⟩
    induction h with
    | self v => exact Nat.zero_le _
    | member hw _ ih => exact Value.lt_depth_iff.mpr ⟨_, hw, ih⟩

theorem Value.tooDeep_iff {v : Value} : v.TooDeep ↔ maxNesting < v.depth := by
  constructor
  · rintro ⟨n, w, h, hn⟩
    exact Nat.lt_of_lt_of_le hn (Value.le_depth_iff.mpr ⟨w, h⟩)
  · intro h
    obtain ⟨w, hw⟩ := Value.le_depth_iff.mp h
    exact ⟨maxNesting + 1, w, hw, Nat.lt_succ_self _⟩

/-! ## Values in bytes -/

open Decoder

theorem counted_refuses {α : Type} {d : Decoder α} {parts : List Bytes}
    (h : ∀ p ∈ parts, (∃ a, d.Reads p a) ∨ d.Refuses p) (hex : ∃ p ∈ parts, d.Refuses p)
    (hlen : parts.length < UInt32.size) :
    (counted d).Refuses (Bytes.ulebNat parts.length ++ parts.flatten) := by
  have hn : (UInt32.ofNat parts.length).toNat = parts.length := UInt32.toNat_ofNat_of_lt' hlen
  refine .behind (uleb_reads _) ?_
  rw [hn]
  exact repeated_go_refuses h hex []

variable {r : Resolver} {s : Source} {room : Nat} {value : Decoder Value}

/-- Of the values that can be counted the decoder reads the encodings of those whose depth is below a
limit and refuses those of the others. -/
structure Resolver.Limits (r : Resolver) (room : Nat) (value : Decoder Value) : Prop where
  reads : ∀ {v : Value} {out : Bytes}, v.Counted → v.encode r = .ok out →
    v.depth < room → ∃ w, value.Reads out w
  refuses : ∀ {v : Value} {out : Bytes}, v.Counted → v.encode r = .ok out →
    room ≤ v.depth → value.Refuses out

theorem Resolver.Limits.reads_or_refuses (h : r.Limits room value) {v : Value} {out : Bytes}
    (hc : v.Counted) (hv : v.encode r = .ok out) :
    (∃ w, value.Reads out w) ∨ value.Refuses out :=
  (Nat.lt_or_ge v.depth room).imp (h.reads hc hv) (h.refuses hc hv)

/-- A list of values is refused if one of them is. -/
theorem Resolver.Limits.refuses_array (h : r.Limits room value) {vs : List Value} {out : Bytes}
    (hlen : vs.length < UInt32.size) (hc : ∀ v ∈ vs, v.Counted) (hex : ∃ v ∈ vs, room ≤ v.depth)
    (henc : encodeArray r vs = .ok out) : (counted value).Refuses out := by
  obtain ⟨body, hb, henc⟩ := Result.bind_eq_ok.mp henc
  obtain rfl := Result.pure_eq_ok.mp henc
  obtain ⟨parts, rfl, hparts⟩ := Value.exists_parts_of_encodeAll hb
  rw [hparts.length_eq] at hlen ⊢
  refine counted_refuses (fun p hp => ?_) ?_ hlen
  · obtain ⟨v, hv, henc⟩ := Result.exists_left_of_mem hparts hp
    exact h.reads_or_refuses (hc v hv) henc
  · obtain ⟨v, hv, hdeep⟩ := hex
    obtain ⟨p, hp, henc⟩ := Result.exists_left_of_mem hparts.flip hv
    exact ⟨p, hp, h.refuses (hc v hv) henc hdeep⟩

/-- An element is read or refused with its value, behind the name. -/
theorem Resolver.Limits.element (hrs : r.InverseOnValues s) (h : r.Limits room value)
    {e : Element} {out : Bytes} (hc : e.value.Counted)
    (he : (do return Bytes.uleb (← r.string e.name) ++ (← e.value.encode r)) = Except.ok out) :
    ((∃ w, (elementBody s value).Reads out w) ∨ (elementBody s value).Refuses out) ∧
      (room ≤ e.value.depth → (elementBody s value).Refuses out) := by
  obtain ⟨name, hname, he⟩ := Result.bind_eq_ok.mp he
  obtain ⟨body, hbody, he⟩ := Result.bind_eq_ok.mp he
  obtain rfl := Result.pure_eq_ok.mp he
  have refuses (hv : value.Refuses body) :
      (elementBody s value).Refuses (Bytes.uleb name ++ body) :=
    .behind (uleb_reads name) (.lift (hrs.string hname) hv.bind)
  refine ⟨?_, fun hdeep => refuses (h.refuses hc hbody hdeep)⟩
  refine (h.reads_or_refuses hc hbody).imp (fun ⟨w, hw⟩ => ⟨⟨e.name, w⟩, ?_⟩) refuses
  exact (uleb_reads name).bind (Reads.lift (hrs.string hname) hw.map)

/-- An annotation is refused if the value of one of its elements is. -/
theorem Resolver.Limits.refuses_annotated (hrs : r.InverseOnValues s) (h : r.Limits room value)
    {a : AnnotationValue} {out : Bytes} (hc : a.Counted)
    (hex : ∃ v ∈ a.elements.map Element.value, room ≤ v.depth) (henc : a.encode r = .ok out) :
    (annotationBody s value).Refuses out := by
  obtain ⟨type, elements⟩ := a
  obtain ⟨hlen, hall⟩ := hc
  rw [Element.countedAll_iff] at hall
  obtain ⟨-, index, outs, houts, hi, rfl⟩ := AnnotationValue.encode_eq_ok rfl henc
  -- the elements are written in another order, but each of them is
  have mem {p : String × Result Bytes} :
      p ∈ sortedBy (byKey Text.compareUtf16 Prod.fst) (Element.encodeAll r elements) ↔
        ∃ e ∈ elements, (e.name, do
          return Bytes.uleb (← r.string e.name) ++ (← e.value.encode r)) = p := by
    rw [(sortedBy_perm _ _).mem_iff, Element.encodeAll_eq_map, List.mem_map]
  have hcount : outs.length = elements.length := by
    rw [← houts.length_eq, length_sortedBy, Element.encodeAll_eq_map, List.length_map]
  have hcounted : (counted (elementBody s value)).Refuses
      (Bytes.ulebNat outs.length ++ outs.flatten) := by
    refine counted_refuses (fun out hout => ?_) ?_ (by omega)
    · obtain ⟨p, hp, hrun⟩ := Result.exists_left_of_mem houts hout
      obtain ⟨e, he, rfl⟩ := mem.mp hp
      exact (h.element hrs (hall e he) hrun).1
    · obtain ⟨v, hv, hdeep⟩ := hex
      obtain ⟨e, he, rfl⟩ := List.mem_map.mp hv
      obtain ⟨out, hout, hrun⟩ := Result.exists_left_of_mem houts.flip (mem.mpr ⟨e, he, rfl⟩)
      exact ⟨out, hout, (h.element hrs (hall e he) hrun).2 hdeep⟩
  exact .behind (uleb_reads index) (.lift (hrs.type hi) hcounted.bind)

/-- Reading is the same as for the round trip, so a limit is a matter of what is refused. -/
theorem Value.limits_of_refuses (hrs : r.InverseOnValues s)
    (h : ∀ ⦃v : Value⦄ ⦃out : Bytes⦄, v.Counted → v.encode r = .ok out → room ≤ v.depth →
      (Value.decodeNested s room).Refuses out) :
    r.Limits room (Value.decodeNested s room) where
  reads {v _} hc hv hd := ⟨_, Value.decodeNested_reads hrs v hc hd hv⟩
  refuses {_ _} hc hv hd := h hc hv hd

/-- A reader refuses the values for whose depth it has no room, and reads the others. -/
theorem Value.limits_decodeNested (hrs : r.InverseOnValues s) (room : Nat) :
    r.Limits room (Value.decodeNested s room) := by
  refine Value.limits_of_refuses hrs ?_
  induction room with
  | zero => exact fun _ _ _ _ _ _ _ _ => ⟨_, rfl, rfl⟩
  | succ room ih =>
    intro v out hc h hdeep
    have limits := Value.limits_of_refuses hrs ih
    obtain ⟨w, hw, hle⟩ := Value.lt_depth_iff.mp hdeep
    cases v with
    | array values =>
      rw [Value.Counted, Value.countedAll_iff] at hc
      rw [Value.encode, Value.kind] at h
      obtain ⟨body, hb, h⟩ := Result.bind_eq_ok.mp h
      obtain rfl := Result.pure_eq_ok.mp h
      have henc : encodeArray r values = .ok (Bytes.ulebNat values.length ++ body) :=
        Result.bind_eq_ok.mpr ⟨body, hb, rfl⟩
      have hvalues := limits.refuses_array hc.1 hc.2 ⟨w, hw, hle⟩ henc
      have hk : (0x1c : UInt8) &&& 0x1f = 0x1c := rfl
      refine .behind (u1_reads _) ?_
      simp only [hk]
      exact hvalues.bind
    | annotated a =>
      rw [Value.Counted] at hc
      rw [Value.encode, Value.kind] at h
      obtain ⟨body, hb, h⟩ := Result.bind_eq_ok.mp h
      obtain rfl := Result.pure_eq_ok.mp h
      have hbody := limits.refuses_annotated hrs hc ⟨w, hw, hle⟩ hb
      have hk : (0x1d : UInt8) &&& 0x1f = 0x1d := rfl
      refine .behind (u1_reads _) ?_
      simp only [hk]
      exact hbody.bind
    | _ => cases hw

/-! ## Values at the cursor -/

section
variable (hrs : r.InverseOnValues s) {out : Bytes} {bytes : ByteArray} {index : Nat}
  (hs : out.Stands bytes index)
include hrs hs

theorem Value.decode_checksNesting {v : Value} (hc : v.Counted) (h : v.encode r = .ok out) :
    ((Value.decode s).valueAt bytes index).ChecksNesting v.TooDeep := by
  have limits := Value.limits_decodeNested hrs (maxNesting + 1)
  refine Decoder.checksNesting (fun hdeep => ?_) (fun hdeep => ?_) hs
  · exact limits.refuses hc h (Value.tooDeep_iff.mp hdeep)
  · exact limits.reads hc h (Nat.lt_of_not_ge (mt Value.tooDeep_iff.mpr hdeep))

theorem decodeArray_checksNesting {vs : List Value} (hlen : vs.length < UInt32.size)
    (hc : ∀ v ∈ vs, v.Counted) (h : encodeArray r vs = .ok out) :
    ((decodeArray s).valueAt bytes index).ChecksNesting (∃ v ∈ vs, v.TooDeep) := by
  have limits := Value.limits_decodeNested hrs (maxNesting + 1)
  refine Decoder.checksNesting (fun hdeep => ?_) (fun hdeep => ?_) hs
  · obtain ⟨v, hv, hdeep⟩ := hdeep
    exact limits.refuses_array hlen hc ⟨v, hv, Value.tooDeep_iff.mp hdeep⟩ h
  · refine ⟨_, decodeArray_reads hrs hlen hc (fun v hv => Nat.le_of_not_lt fun hlt => ?_) h⟩
    exact hdeep ⟨v, hv, Value.tooDeep_iff.mpr hlt⟩

end

end Dalvik
