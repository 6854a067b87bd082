import Dalvik.Proofs.Value.RoundTrip

/-!
# The names in an annotation ascend

The elements of an annotation are written in the order of their names. A walk over the bytes of a
value collects the indices of the names of every annotation inside of it, and looks nothing up. Where
indices are in the order of the strings they stand for, the names of each annotation ascend, however
deep it lies.
-/
namespace Dalvik

/-! ## A walk over the bytes -/

/-- The index of the name of an element, with what `value` collects from the value behind it. -/
def elementNames (value : Decoder (List (List UInt32))) :
    Decoder (UInt32 × List (List UInt32)) := do
  let name ← Decoder.uleb
  return (name, ← value)

/-- The indices of the names in an annotation, in front of those in each annotation inside of it. -/
def annotationNames (value : Decoder (List (List UInt32))) : Decoder (List (List UInt32)) := do
  let _ ← Decoder.uleb
  let elements ← counted (elementNames value)
  return elements.map Prod.fst :: elements.flatMap Prod.snd

/-- The indices of the names in every annotation of the value at the cursor; `room` is how many more
arrays and annotations may enclose a value, as in reading one. -/
def Value.decodeNames : (room : Nat) → Decoder (List (List UInt32))
  | 0 => do Decoder.fail (.valueNesting maxNesting (← Decoder.position))
  | room + 1 => do
    let first ← Decoder.u1
    match (first &&& 0x1f).toNat with
    | 0x1c => return (← counted (Value.decodeNames room)).flatten
    | 0x1d => annotationNames (Value.decodeNames room)
    | 0x1e | 0x1f => return []
    | _ =>
      let _ ← Packed.payload (first >>> Packed.argShift)
      return []

/-- The names in an annotation that nothing encloses. -/
def AnnotationValue.decodeNames : Decoder (List (List UInt32)) :=
  annotationNames (Value.decodeNames (maxNesting + 1))

/-- The names in all annotations of the values behind their count. -/
def decodeArrayNames : Decoder (List (List UInt32)) := do
  return (← counted (Value.decodeNames (maxNesting + 1))).flatten

/-! ## Ascending names -/

open Decoder Text

/-- The indices of strings are in their order. -/
def Resolver.KeepsOrder (r : Resolver) : Prop :=
  ∀ {s t i j}, compareUtf16 s t = .lt → r.string s = .ok i → r.string t = .ok j → i < j

/-- The bytes hold lists of names that all ascend. -/
def NamesAscend (d : Decoder (List (List UInt32))) (part : Bytes) : Prop :=
  ∃ lists, d.Reads part lists ∧ ∀ names ∈ lists, names.Pairwise (· < ·)

/-- A value of a kind that neither holds others nor is in its first byte alone has no names. -/
theorem namesAscend_framed {kind : UInt8} {payload : Bytes} {room : Nat} (hk : kind.toNat < 0x1c)
    (hp : 0 < payload.length) (hl : payload.length ≤ 8) :
    NamesAscend (Value.decodeNames (room + 1)) (Packed.framed kind payload) := by
  refine ⟨[], framed_reads (by omega) hp hl fun first hw hkind => ?_, nofun⟩
  simp only [hkind, hw]
  split
  case h_5 => exact (Packed.payload_reads hp hl).bind_last (.pure [])
  all_goals omega

theorem namesAscend_signed {kind : UInt8} (n : Int64) {room : Nat} (hk : kind.toNat < 0x1c) :
    NamesAscend (Value.decodeNames (room + 1)) (Packed.framed kind (Packed.signed n.toInt)) := by
  have hl := n.le_toInt
  have hu := n.toInt_lt
  exact namesAscend_framed hk (Packed.length_signed_pos _)
    (Packed.length_signed_le (by decide) (by omega) (by omega))

theorem namesAscend_index {kind : UInt8} {index : Result UInt32} {room : Nat} {out : Bytes}
    (hk : kind.toNat < 0x1c)
    (h : (do return Packed.framed kind (Packed.unsigned (← index).toNat)) = Except.ok out) :
    NamesAscend (Value.decodeNames (room + 1)) out := by
  obtain ⟨i, -, h⟩ := Result.bind_eq_ok.mp h
  obtain rfl := Result.pure_eq_ok.mp h
  have hi : i.toNat < 2 ^ (8 * 8) := Nat.lt_trans i.toNat_lt (by decide)
  exact namesAscend_framed hk (Packed.length_unsigned_pos _)
    (Packed.length_unsigned_le (by decide) hi)

variable {r : Resolver}

/-- Names in one place after the other. -/
theorem exists_lists {d : Decoder (List (List UInt32))} {parts : List Bytes}
    (h : ∀ p ∈ parts, NamesAscend d p) : ∃ all, List.Forall₂ d.Reads parts all ∧
      ∀ names ∈ all.flatten, names.Pairwise (· < ·) := by
  induction parts with
  | nil => exact ⟨[], .nil, nofun⟩
  | cons p parts ih =>
    obtain ⟨⟨lists, hread, hlists⟩, hparts⟩ := List.forall_mem_cons.mp h
    obtain ⟨all, hreads, hall⟩ := ih hparts
    refine ⟨lists :: all, .cons hread hreads, fun names hnames => ?_⟩
    exact (List.mem_append.mp hnames).elim (hlists names) (hall names)

/-- The names in a list of values. -/
theorem namesAscend_counted {d : Decoder (List (List UInt32))} {parts : List Bytes}
    (h : ∀ p ∈ parts, NamesAscend d p) (hlen : parts.length < UInt32.size) :
    NamesAscend (do return (← counted d).flatten) (Bytes.ulebNat parts.length ++ parts.flatten) := by
  obtain ⟨all, hreads, hall⟩ := exists_lists h
  rw [hreads.length_eq] at hlen ⊢
  have hread := counted_reads hreads hlen
  exact ⟨all.flatten, hread.map, hall⟩

/-- An element whose encoding gives the index of its name, and in whose value names ascend. -/
def ElementAscends (r : Resolver) (value : Decoder (List (List UInt32)))
    (part : String × Result Bytes) : Prop :=
  ∀ out, part.2 = .ok out → ∃ e, (elementNames value).Reads out e ∧ r.string part.1 = .ok e.1 ∧
    ∀ names ∈ e.2, names.Pairwise (· < ·)

theorem elementAscends {value : Decoder (List (List UInt32))} {name : String} {v : Value}
    (h : ∀ out, v.encode r = .ok out → NamesAscend value out) :
    ElementAscends r value (name, do return Bytes.uleb (← r.string name) ++ (← v.encode r)) := by
  intro out ho
  obtain ⟨index, hi, ho⟩ := Result.bind_eq_ok.mp ho
  obtain ⟨body, hb, ho⟩ := Result.bind_eq_ok.mp ho
  obtain rfl := Result.pure_eq_ok.mp ho
  obtain ⟨lists, hread, hlists⟩ := h body hb
  exact ⟨(index, lists), (uleb_reads index).bind hread.map, hi, hlists⟩

theorem exists_elements {value : Decoder (List (List UInt32))} {parts : List (String × Result Bytes)}
    {outs : List Bytes} (he : ∀ p ∈ parts, ElementAscends r value p)
    (ho : List.Forall₂ (fun p out => p.2 = .ok out) parts outs) :
    ∃ elements, List.Forall₂ (elementNames value).Reads outs elements ∧
      List.Forall₂ (fun p e => r.string p.1 = .ok e.1) parts elements ∧
      ∀ names ∈ elements.flatMap Prod.snd, names.Pairwise (· < ·) := by
  induction ho with
  | nil => exact ⟨[], .nil, .nil, nofun⟩
  | cons hout _ ih =>
    obtain ⟨hp, he⟩ := List.forall_mem_cons.mp he
    obtain ⟨e, hread, hname, hlists⟩ := hp _ hout
    obtain ⟨elements, hreads, hnames, hall⟩ := ih he
    refine ⟨e :: elements, .cons hread hreads, .cons hname hnames, fun names hmem => ?_⟩
    rw [List.flatMap_cons] at hmem
    exact (List.mem_append.mp hmem).elim (hlists names) (hall names)

/-- The names of an annotation ascend if those inside of its elements do. -/
theorem annotationNames_ascend (hr : r.KeepsOrder) {value : Decoder (List (List UInt32))}
    {type : TypeId} {elements : List Element} {out : Bytes}
    (he : ∀ p ∈ Element.encodeAll r elements, ElementAscends r value p)
    (h : AnnotationValue.encode r ⟨type, elements⟩ = .ok out)
    (hlen : elements.length < UInt32.size) : NamesAscend (annotationNames value) out := by
  have hsorted := pairwise_sortedBy (byKey compareUtf16 Prod.fst) (Element.encodeAll r elements)
  have he : ∀ p ∈ sortedBy (byKey compareUtf16 Prod.fst) (Element.encodeAll r elements),
      ElementAscends r value p := fun p hp => he p ((sortedBy_perm _ _).mem_iff.mp hp)
  obtain ⟨hd, index, outs, ho, -, rfl⟩ := AnnotationValue.encode_eq_ok rfl h
  obtain ⟨found, hreads, hnames, hinside⟩ := exists_elements he ho
  have hcount : found.length = elements.length := by
    rw [← hnames.length_eq, length_sortedBy, Element.encodeAll_eq_map, List.length_map]
  have hcounted := counted_reads hreads (by omega)
  rw [← hreads.length_eq] at hcounted
  have hindices : found.Pairwise fun e e' => e.1 < e'.1 :=
    Result.pairwise_of_forall₂ hnames (pairwise_lt_of_firstAdjacent? hsorted hd)
      fun _ _ _ _ hlt hi hj => hr hlt hi hj
  exact ⟨found.map Prod.fst :: found.flatMap Prod.snd, (uleb_reads index).bind hcounted.map,
    List.forall_mem_cons.mpr ⟨List.pairwise_map.mpr hindices, hinside⟩⟩

mutual

theorem Value.names_ascend (hr : r.KeepsOrder) : (v : Value) → {room : Nat} → {out : Bytes} →
    v.Counted → v.depth < room → v.encode r = .ok out → NamesAscend (Value.decodeNames room) out
  | .byte n, room + 1, out, _, _, h => by
    rw [Value.encode, Value.kind, Except.ok.injEq, ← Int8.toInt_toInt64] at h
    exact h ▸ namesAscend_signed _ (by decide)
  | .short n, room + 1, out, _, _, h => by
    rw [Value.encode, Value.kind, Except.ok.injEq, ← Int16.toInt_toInt64] at h
    exact h ▸ namesAscend_signed _ (by decide)
  | .char unit, room + 1, out, _, _, h => by
    rw [Value.encode, Value.kind, Except.ok.injEq, ← UInt16.toNat_toUInt64] at h
    subst h
    exact namesAscend_framed (by decide) (Packed.length_unsigned_pos _)
      (Packed.length_unsigned_le (by decide) (UInt64.toNat_lt _))
  | .int n, room + 1, out, _, _, h => by
    rw [Value.encode, Value.kind, Except.ok.injEq, ← Int32.toInt_toInt64] at h
    exact h ▸ namesAscend_signed _ (by decide)
  | .long n, room + 1, out, _, _, h => by
    rw [Value.encode, Value.kind, Except.ok.injEq] at h
    exact h ▸ namesAscend_signed n (by decide)
  | .float bits, room + 1, out, _, _, h => by
    rw [Value.encode, Value.kind, Except.ok.injEq] at h
    obtain ⟨hpos, hlen, -⟩ := Packed.length_rightExtended (bits.toUInt64 <<< 32)
    exact h ▸ namesAscend_framed (by decide) hpos hlen
  | .double bits, room + 1, out, _, _, h => by
    rw [Value.encode, Value.kind, Except.ok.injEq] at h
    obtain ⟨hpos, hlen, -⟩ := Packed.length_rightExtended bits
    exact h ▸ namesAscend_framed (by decide) hpos hlen
  | .methodType _, room + 1, out, _, _, h | .methodHandle _, room + 1, out, _, _, h
  | .string _, room + 1, out, _, _, h | .type _, room + 1, out, _, _, h
  | .field _, room + 1, out, _, _, h | .method _, room + 1, out, _, _, h
  | .enum _, room + 1, out, _, _, h => namesAscend_index (by rw [Value.kind]; decide) h
  | .array values, room + 1, out, hc, hd, h => by
    rw [Value.Counted] at hc
    rw [Value.encode, Value.kind] at h
    obtain ⟨body, hb, h⟩ := Result.bind_eq_ok.mp h
    obtain rfl := Result.pure_eq_ok.mp h
    obtain ⟨parts, rfl, hlength, hparts⟩ :=
      Value.namesAll_ascend hr values hc.2 (Nat.le_of_lt_succ hd) hb
    obtain ⟨lists, hread, hlists⟩ := namesAscend_counted hparts (hlength ▸ hc.1)
    rw [hlength] at hread
    have hk : (0x1c : UInt8) &&& 0x1f = 0x1c := rfl
    refine ⟨lists, u1_bind_reads ?_, hlists⟩
    simp only [hk]
    exact hread
  | .annotated a, room + 1, out, hc, hd, h => by
    rw [Value.Counted] at hc
    rw [Value.encode, Value.kind] at h
    obtain ⟨body, hb, h⟩ := Result.bind_eq_ok.mp h
    obtain rfl := Result.pure_eq_ok.mp h
    obtain ⟨lists, hread, hlists⟩ :=
      AnnotationValue.body_ascends hr a hc (Nat.le_of_lt_succ hd) hb
    have hk : (0x1d : UInt8) &&& 0x1f = 0x1d := rfl
    refine ⟨lists, u1_bind_reads ?_, hlists⟩
    simp only [hk]
    exact hread
  | .null, room + 1, out, _, _, h => by
    cases h
    exact ⟨[], u1_bind_reads (Reads.pure _), nofun⟩
  | .boolean b, room + 1, out, _, _, h => by
    cases h
    cases b with
    | true => exact ⟨[], u1_bind_reads (Reads.pure _), nofun⟩
    | false => exact ⟨[], u1_bind_reads (Reads.pure _), nofun⟩

theorem Value.namesAll_ascend (hr : r.KeepsOrder) : (vs : List Value) → {room : Nat} →
    {out : Bytes} → Value.CountedAll vs → Value.depthAll vs ≤ room →
      Value.encodeAll r vs = .ok out → ∃ parts : List Bytes, out = parts.flatten ∧
        parts.length = vs.length ∧ ∀ p ∈ parts, NamesAscend (Value.decodeNames room) p
  | [], room, out, _, _, h => by
    cases h
    exact ⟨[], rfl, rfl, nofun⟩
  | v :: vs, room, out, hc, hd, h => by
    obtain ⟨head, hh, h⟩ := Result.bind_eq_ok.mp h
    obtain ⟨tail, ht, h⟩ := Result.bind_eq_ok.mp h
    obtain rfl := Result.pure_eq_ok.mp h
    rw [Value.depthAll, Nat.max_le] at hd
    have hv := Value.names_ascend hr v hc.1 (Nat.lt_of_succ_le hd.1) hh
    obtain ⟨parts, rfl, hlength, hparts⟩ := Value.namesAll_ascend hr vs hc.2 hd.2 ht
    exact ⟨head :: parts, rfl, congrArg (· + 1) hlength, List.forall_mem_cons.mpr ⟨hv, hparts⟩⟩

theorem AnnotationValue.body_ascends (hr : r.KeepsOrder) : (a : AnnotationValue) →
    {room : Nat} → {out : Bytes} → a.Counted → a.depth ≤ room → a.encode r = .ok out →
      NamesAscend (annotationNames (Value.decodeNames room)) out
  | ⟨_, elements⟩, _, _, hc, hd, h =>
    annotationNames_ascend hr (Element.all_ascend hr elements hc.2 hd) h hc.1

theorem Element.all_ascend (hr : r.KeepsOrder) : (es : List Element) → {room : Nat} →
    Element.CountedAll es → Element.depthAll es ≤ room →
      ∀ p ∈ Element.encodeAll r es, ElementAscends r (Value.decodeNames room) p
  | [], _, _, _ => nofun
  | ⟨_, v⟩ :: es, _, hc, hd => by
    rw [Element.depthAll, Nat.max_le] at hd
    exact List.forall_mem_cons.mpr
      ⟨elementAscends fun _ => Value.names_ascend hr v hc.1 (Nat.lt_of_succ_le hd.1),
        Element.all_ascend hr es hc.2 hd.2⟩

end

theorem AnnotationValue.names_ascend (hr : r.KeepsOrder) {a : AnnotationValue} {out : Bytes}
    (hd : a.depth ≤ maxNesting + 1) (h : a.encode r = .ok out) (hl : out.length < UInt32.size) :
    NamesAscend AnnotationValue.decodeNames out :=
  AnnotationValue.body_ascends hr a (AnnotationValue.counted_of_encode a h hl) hd h

theorem arrayNames_ascend (hr : r.KeepsOrder) {vs : List Value} {out : Bytes}
    (hd : ∀ v ∈ vs, v.depth ≤ maxNesting) (h : encodeArray r vs = .ok out)
    (hl : out.length < UInt32.size) : NamesAscend decodeArrayNames out := by
  obtain ⟨hlen, hc⟩ := counted_of_encodeArray h hl
  obtain ⟨body, hb, h⟩ := Result.bind_eq_ok.mp h
  obtain rfl := Result.pure_eq_ok.mp h
  obtain ⟨parts, rfl, hlength, hparts⟩ :=
    Value.namesAll_ascend hr vs (Value.countedAll_iff.mpr hc) (Value.depthAll_le hd) hb
  have hnames := namesAscend_counted hparts (hlength ▸ hlen)
  rwa [hlength] at hnames

end Dalvik
