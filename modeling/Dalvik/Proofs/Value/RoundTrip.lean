import Dalvik.Proofs.Packed
import Dalvik.Proofs.Pools
import Dalvik.Proofs.Value.Counted
import Dalvik.Value.References

/-!
# Encoded values are read back

Writing puts the elements of annotations in order, so a value is read back in its sorted form. The
induction is on the value; `room` is what the reader has left of the depth it allows.
-/
namespace Dalvik

/-! ## The sorted form of a value -/

mutual

/-- The value with the elements of all annotations inside it in the order of their names. -/
def Value.sorted : Value → Value
  | .array values => .array (Value.sortedAll values)
  | .annotated a => .annotated a.sorted
  | v => v

def Value.sortedAll : List Value → List Value
  | [] => []
  | v :: vs => v.sorted :: Value.sortedAll vs

def AnnotationValue.sorted : AnnotationValue → AnnotationValue
  | ⟨type, elements⟩ => ⟨type, sortElements (Element.sortedAll elements)⟩

/-- The elements in their places, each with its value in sorted form. -/
def Element.sortedAll : List Element → List Element
  | [] => []
  | ⟨name, v⟩ :: es => ⟨name, v.sorted⟩ :: Element.sortedAll es

end

theorem Value.length_sortedAll (vs : List Value) : (Value.sortedAll vs).length = vs.length := by
  induction vs with
  | nil => rfl
  | cons v vs ih => rw [Value.sortedAll, List.length_cons, ih, List.length_cons]

theorem Value.sortedAll_eq_map (vs : List Value) : Value.sortedAll vs = vs.map Value.sorted := by
  induction vs with
  | nil => rfl
  | cons v vs ih => rw [Value.sortedAll, ih, List.map_cons]

theorem Element.sortedAll_eq_map (es : List Element) :
    Element.sortedAll es = es.map fun e => { e with value := e.value.sorted } := by
  induction es with
  | nil => rfl
  | cons e es ih =>
    cases e
    rw [Element.sortedAll, ih, List.map_cons]

/-- Sorting the values of elements leaves their names alone. -/
theorem Element.sortedAll_sortElements (es : List Element) :
    Element.sortedAll (sortElements es) = sortElements (Element.sortedAll es) := by
  rw [sortedAll_eq_map, sortedAll_eq_map]
  exact map_sortedBy es fun _ _ => rfl

/-! ## Sorted forms stay as they are -/

theorem sortElements_sortElements (elements : List Element) :
    sortElements (sortElements elements) = sortElements elements :=
  sortedBy_of_pairwise (pairwise_sortedBy _ _)

mutual

theorem Value.sorted_sorted : (v : Value) → v.sorted.sorted = v.sorted
  | .array values => by
    rw [Value.sorted, Value.sorted, Value.sortedAll_sortedAll values]
  | .annotated a => by
    rw [Value.sorted, Value.sorted, AnnotationValue.sorted_sorted a]
  | .byte _ | .short _ | .char _ | .int _ | .long _ | .float _ | .double _ | .methodType _
  | .methodHandle _ | .string _ | .type _ | .field _ | .method _ | .enum _ | .null | .boolean _ => by
    simp only [Value.sorted]

theorem Value.sortedAll_sortedAll : (vs : List Value) →
    Value.sortedAll (Value.sortedAll vs) = Value.sortedAll vs
  | [] => rfl
  | v :: vs => by
    rw [Value.sortedAll, Value.sortedAll, Value.sorted_sorted v, Value.sortedAll_sortedAll vs]

theorem AnnotationValue.sorted_sorted : (a : AnnotationValue) → a.sorted.sorted = a.sorted
  | ⟨type, elements⟩ => by
    rw [AnnotationValue.sorted, AnnotationValue.sorted, Element.sortedAll_sortElements,
      Element.sortedAll_sortedAll elements, sortElements_sortElements]

theorem Element.sortedAll_sortedAll : (es : List Element) →
    Element.sortedAll (Element.sortedAll es) = Element.sortedAll es
  | [] => rfl
  | ⟨name, v⟩ :: es => by
    rw [Element.sortedAll, Element.sortedAll, Value.sorted_sorted v, Element.sortedAll_sortedAll es]

end

/-! ## Sorted forms have the same counts -/

mutual

theorem Value.counted_sorted : (v : Value) → (v.sorted.Counted ↔ v.Counted)
  | .array values => by
    rw [Value.sorted, Value.Counted, Value.Counted, Value.length_sortedAll,
      Value.countedAll_sortedAll values]
  | .annotated a => by
    rw [Value.sorted, Value.Counted, Value.Counted, AnnotationValue.counted_sorted a]
  | .byte _ | .short _ | .char _ | .int _ | .long _ | .float _ | .double _ | .methodType _
  | .methodHandle _ | .string _ | .type _ | .field _ | .method _ | .enum _ | .null | .boolean _ => by
    simp only [Value.sorted]

theorem Value.countedAll_sortedAll : (vs : List Value) →
    (Value.CountedAll (Value.sortedAll vs) ↔ Value.CountedAll vs)
  | [] => Iff.rfl
  | v :: vs => by
    rw [Value.sortedAll, Value.CountedAll, Value.CountedAll, Value.counted_sorted v,
      Value.countedAll_sortedAll vs]

theorem AnnotationValue.counted_sorted : (a : AnnotationValue) → (a.sorted.Counted ↔ a.Counted)
  | ⟨type, elements⟩ => by
    have hperm : Element.CountedAll (sortElements (Element.sortedAll elements)) ↔
        Element.CountedAll (Element.sortedAll elements) := by
      simp only [Element.countedAll_iff, sortElements, (sortedBy_perm _ _).mem_iff]
    rw [AnnotationValue.sorted, AnnotationValue.Counted, AnnotationValue.Counted, hperm,
      Element.countedAll_sortedAll elements, sortElements, length_sortedBy,
      Element.sortedAll_eq_map, List.length_map]

theorem Element.countedAll_sortedAll : (es : List Element) →
    (Element.CountedAll (Element.sortedAll es) ↔ Element.CountedAll es)
  | [] => Iff.rfl
  | ⟨name, v⟩ :: es => by
    rw [Element.sortedAll, Element.CountedAll, Element.CountedAll, Value.counted_sorted v,
      Element.countedAll_sortedAll es]

end

/-! ## Parts of an encoding -/

open Decoder

/-- Values behind their count. -/
theorem counted_reads {α : Type} {item : Decoder α} {parts : List Bytes} {values : List α}
    (h : List.Forall₂ item.Reads parts values) (hlen : values.length < UInt32.size) :
    (counted item).Reads (Bytes.ulebNat values.length ++ parts.flatten) values := by
  have hn : (UInt32.ofNat values.length).toNat = values.length := UInt32.toNat_ofNat_of_lt' hlen
  refine (uleb_reads _).bind ?_
  rw [hn]
  exact Reads.repeated h

theorem readIndex_reads (n : UInt32) :
    (readIndex ((Packed.unsigned n.toNat).length - 1).toUInt8).Reads (Packed.unsigned n.toNat) n := by
  have h := Packed.readUnsigned_reads n.toUInt64
  rw [UInt32.toNat_toUInt64] at h
  refine h.bind_last ?_
  have hn : n.toUInt64.toNat < UInt32.size := by simpa using n.toNat_lt
  rw [if_pos hn, UInt32.toUInt32_toUInt64]
  exact Reads.pure n

/-- A payload behind the byte that tells the kind of the value and the length of the payload. -/
theorem framed_reads {α : Type} {kind : UInt8} {payload : Bytes} {a : α} {f : UInt8 → Decoder α}
    (hk : kind.toNat < 32) (hp : 0 < payload.length) (hl : payload.length ≤ 8)
    (h : ∀ first, first >>> Packed.argShift = (payload.length - 1).toUInt8 →
      first &&& 0x1f = kind → (f first).Reads payload a) :
    (u1 >>= f).Reads (Packed.framed kind payload) a := by
  have ha : (payload.length - 1).toUInt8.toNat < 8 := by
    rw [Nat.toUInt8_eq, UInt8.toNat_ofNat', Nat.mod_eq_of_lt (by omega)]
    omega
  exact u1_bind_reads
    (h _ (Packed.header_shiftRight hk ha) (Packed.header_and hk ha))

theorem framed_signed_reads {α : Type} {kind : UInt8} {n : Int64} {a : α} {f : UInt8 → Decoder α}
    (hk : kind.toNat < 32)
    (h : ∀ first, first >>> Packed.argShift = ((Packed.signed n.toInt).length - 1).toUInt8 →
      first &&& 0x1f = kind → (f first).Reads (Packed.signed n.toInt) a) :
    (u1 >>= f).Reads (Packed.framed kind (Packed.signed n.toInt)) a := by
  have hl := n.le_toInt
  have hu := n.toInt_lt
  exact framed_reads hk (Packed.length_signed_pos _)
    (Packed.length_signed_le (by decide) (by omega) (by omega)) h

theorem framed_unsigned_reads {α : Type} {kind : UInt8} {n : UInt64} {a : α}
    {f : UInt8 → Decoder α} (hk : kind.toNat < 32)
    (h : ∀ first, first >>> Packed.argShift = ((Packed.unsigned n.toNat).length - 1).toUInt8 →
      first &&& 0x1f = kind → (f first).Reads (Packed.unsigned n.toNat) a) :
    (u1 >>= f).Reads (Packed.framed kind (Packed.unsigned n.toNat)) a :=
  framed_reads hk (Packed.length_unsigned_pos _) (Packed.length_unsigned_le (by decide) n.toNat_lt) h

/-- An entry of a pool, which is written as its index. -/
theorem framed_index_reads {α β : Type} (kind : UInt8) (value : β → α)
    {resolve : β → Result UInt32} {fetch : UInt32 → Result β} {b : β} {f : UInt8 → Decoder α} {out : Bytes}
    (hk : kind.toNat < 32) (inverse : ∀ {i}, resolve b = .ok i → fetch i = .ok b)
    (h : (do return Packed.framed kind (Packed.unsigned (← resolve b).toNat)) = Except.ok out)
    (hf : ∀ first, first &&& 0x1f = kind →
      f first = do return value (← fetch (← readIndex (first >>> Packed.argShift)))) :
    (u1 >>= f).Reads out (value b) := by
  obtain ⟨i, hi, h⟩ := Result.bind_eq_ok.mp h
  obtain rfl := Result.pure_eq_ok.mp h
  have hn : i.toNat < 2 ^ (8 * 8) := Nat.lt_trans i.toNat_lt (by decide)
  refine framed_reads hk (Packed.length_unsigned_pos _) (Packed.length_unsigned_le (by decide) hn)
    fun first hw he => ?_
  rw [hf first he, hw]
  exact (readIndex_reads i).bind_last (Reads.lift (inverse hi) (Reads.pure _))

/-! ## Values -/

variable {r : Resolver} {s : Source}

/-- A name with the encoding of an element stands for the element in its sorted form. -/
def ElementReads (s : Source) (value : Decoder Value) (part : String × Result Bytes)
    (element : Element) : Prop :=
  part.1 = element.name ∧ ∀ out, part.2 = .ok out → (elementBody s value).Reads out element

theorem elementBody_reads (hrs : r.InverseOnValues s) {value : Decoder Value} {name : String} {v w : Value}
    (h : ∀ out, v.encode r = .ok out → value.Reads out w) :
    ElementReads s value (name, do return Bytes.uleb (← r.string name) ++ (← v.encode r))
      ⟨name, w⟩ := by
  refine ⟨rfl, fun out ho => ?_⟩
  obtain ⟨index, hi, ho⟩ := Result.bind_eq_ok.mp ho
  obtain ⟨body, hb, ho⟩ := Result.bind_eq_ok.mp ho
  obtain rfl := Result.pure_eq_ok.mp ho
  exact (uleb_reads index).bind (Reads.lift (hrs.string hi) (h body hb).map)

theorem elementBodies_read {value : Decoder Value} {parts : List (String × Result Bytes)}
    {elements : List Element} {outs : List Bytes}
    (he : List.Forall₂ (ElementReads s value) parts elements)
    (ho : List.Forall₂ (fun p out => p.2 = .ok out) parts outs) :
    List.Forall₂ (elementBody s value).Reads outs elements := by
  induction he generalizing outs with
  | nil =>
    cases ho
    exact .nil
  | cons hp _ ih =>
    obtain _ | ⟨hout, ho⟩ := ho
    exact .cons (hp.2 _ hout) (ih ho)

/-- An annotation is read back if its elements are, which keep their names. -/
theorem annotationBody_reads (hrs : r.InverseOnValues s) {value : Decoder Value} {type : TypeId}
    {elements sorted : List Element} {out : Bytes}
    (he : List.Forall₂ (ElementReads s value) (Element.encodeAll r elements) sorted)
    (h : AnnotationValue.encode r ⟨type, elements⟩ = .ok out) (hlen : sorted.length < UInt32.size) :
    (annotationBody s value).Reads out ⟨type, sortElements sorted⟩ := by
  have hs := forall₂_sortedBy Text.compareUtf16 he fun _ _ hp => hp.1
  obtain ⟨-, index, outs, ho, hi, rfl⟩ := AnnotationValue.encode_eq_ok rfl h
  have hp := elementBodies_read hs ho
  have hc := counted_reads hp ((length_sortedBy _ _).trans_lt hlen)
  rw [← hp.length_eq] at hc
  exact (uleb_reads index).bind (Reads.lift (hrs.type hi) hc.map)

mutual

theorem Value.decodeNested_reads (hrs : r.InverseOnValues s) : (v : Value) → {room : Nat} → {out : Bytes} →
    v.Counted → v.depth < room → v.encode r = .ok out →
      (Value.decodeNested s room).Reads out v.sorted
  | .byte n, room + 1, out, _, _, h => by
    rw [Value.encode, Value.kind, Except.ok.injEq, ← Int8.toInt_toInt64] at h
    subst h
    refine framed_signed_reads (by decide) fun first hw hk => ?_
    simp only [hw, hk]
    have := (Packed.readSigned_reads n.toInt64).map (g := fun n => Value.byte n.toInt8)
    rwa [Int8.toInt8_toInt64] at this
  | .short n, room + 1, out, _, _, h => by
    rw [Value.encode, Value.kind, Except.ok.injEq, ← Int16.toInt_toInt64] at h
    subst h
    refine framed_signed_reads (by decide) fun first hw hk => ?_
    simp only [hw, hk]
    have := (Packed.readSigned_reads n.toInt64).map (g := fun n => Value.short n.toInt16)
    rwa [Int16.toInt16_toInt64] at this
  | .char unit, room + 1, out, _, _, h => by
    rw [Value.encode, Value.kind, Except.ok.injEq, ← UInt16.toNat_toUInt64] at h
    subst h
    refine framed_unsigned_reads (by decide) fun first hw hk => ?_
    simp only [hw, hk]
    have := (Packed.readUnsigned_reads unit.toUInt64).map (g := fun n => Value.char n.toUInt16)
    rwa [UInt16.toUInt16_toUInt64] at this
  | .int n, room + 1, out, _, _, h => by
    rw [Value.encode, Value.kind, Except.ok.injEq, ← Int32.toInt_toInt64] at h
    subst h
    refine framed_signed_reads (by decide) fun first hw hk => ?_
    simp only [hw, hk]
    have := (Packed.readSigned_reads n.toInt64).map (g := fun n => Value.int n.toInt32)
    rwa [Int32.toInt32_toInt64] at this
  | .long n, room + 1, out, _, _, h => by
    rw [Value.encode, Value.kind, Except.ok.injEq] at h
    subst h
    refine framed_signed_reads (by decide) fun first hw hk => ?_
    simp only [hw, hk]
    exact (Packed.readSigned_reads n).map
  | .float bits, room + 1, out, _, _, h => by
    rw [Value.encode, Value.kind, Except.ok.injEq] at h
    subst h
    obtain ⟨hpos, hlen, -⟩ := Packed.length_rightExtended (bits.toUInt64 <<< 32)
    refine framed_reads (by decide) hpos hlen fun first hw hk => ?_
    simp only [hw, hk]
    exact (Packed.readFloat_reads bits).map
  | .double bits, room + 1, out, _, _, h => by
    rw [Value.encode, Value.kind, Except.ok.injEq] at h
    subst h
    obtain ⟨hpos, hlen, -⟩ := Packed.length_rightExtended bits
    refine framed_reads (by decide) hpos hlen fun first hw hk => ?_
    simp only [hw, hk]
    exact (Packed.readDouble_reads bits).map
  | .methodType id, room + 1, out, _, _, h =>
    framed_index_reads 0x15 Value.methodType (by decide) hrs.proto h
      fun first hk => by simp only [hk]; rfl
  | .methodHandle handle, room + 1, out, _, _, h =>
    framed_index_reads 0x16 Value.methodHandle (by decide) hrs.methodHandle h
      fun first hk => by simp only [hk]; rfl
  | .string text, room + 1, out, _, _, h =>
    framed_index_reads 0x17 Value.string (by decide) hrs.string h
      fun first hk => by simp only [hk]; rfl
  | .type id, room + 1, out, _, _, h =>
    framed_index_reads 0x18 Value.type (by decide) hrs.type h
      fun first hk => by simp only [hk]; rfl
  | .field id, room + 1, out, _, _, h =>
    framed_index_reads 0x19 Value.field (by decide) hrs.field h
      fun first hk => by simp only [hk]; rfl
  | .method id, room + 1, out, _, _, h =>
    framed_index_reads 0x1a Value.method (by decide) hrs.method h
      fun first hk => by simp only [hk]; rfl
  | .enum id, room + 1, out, _, _, h =>
    framed_index_reads 0x1b Value.enum (by decide) hrs.field h
      fun first hk => by simp only [hk]; rfl
  | .array values, room + 1, out, hcounted, hd, h => by
    rw [Value.encode, Value.kind] at h
    obtain ⟨body, hb, h⟩ := Result.bind_eq_ok.mp h
    obtain rfl := Result.pure_eq_ok.mp h
    rw [Value.Counted] at hcounted
    obtain ⟨parts, rfl, hp⟩ :=
      Value.decodeAll_reads hrs values hcounted.2 (Nat.le_of_lt_succ hd) hb
    have hc := counted_reads hp (by rw [Value.length_sortedAll]; exact hcounted.1)
    rw [Value.length_sortedAll] at hc
    have hk : (0x1c : UInt8) &&& 0x1f = 0x1c := rfl
    refine u1_bind_reads ?_
    simp only [hk]
    exact hc.map (g := Value.array)
  | .annotated a, room + 1, out, hcounted, hd, h => by
    rw [Value.encode, Value.kind] at h
    obtain ⟨body, hb, h⟩ := Result.bind_eq_ok.mp h
    obtain rfl := Result.pure_eq_ok.mp h
    rw [Value.Counted] at hcounted
    have ha := AnnotationValue.decodeBody_reads hrs a hcounted (Nat.le_of_lt_succ hd) hb
    have hk : (0x1d : UInt8) &&& 0x1f = 0x1d := rfl
    refine u1_bind_reads ?_
    simp only [hk]
    exact ha.map (g := Value.annotated)
  | .null, room + 1, out, _, _, h => by
    cases h
    exact u1_bind_reads (Reads.pure _)
  | .boolean b, room + 1, out, _, _, h => by
    cases h
    cases b with
    | true => exact u1_bind_reads (Reads.pure _)
    | false => exact u1_bind_reads (Reads.pure _)

theorem Value.decodeAll_reads (hrs : r.InverseOnValues s) : (vs : List Value) → {room : Nat} →
    {out : Bytes} → Value.CountedAll vs → Value.depthAll vs ≤ room →
      Value.encodeAll r vs = .ok out → ∃ parts, out = parts.flatten ∧
        List.Forall₂ (Value.decodeNested s room).Reads parts (Value.sortedAll vs)
  | [], room, out, _, _, h => by
    cases h
    exact ⟨[], rfl, .nil⟩
  | v :: vs, room, out, hc, hd, h => by
    obtain ⟨head, hh, h⟩ := Result.bind_eq_ok.mp h
    obtain ⟨tail, ht, h⟩ := Result.bind_eq_ok.mp h
    obtain rfl := Result.pure_eq_ok.mp h
    rw [Value.depthAll, Nat.max_le] at hd
    have hv := Value.decodeNested_reads hrs v hc.1 (Nat.lt_of_succ_le hd.1) hh
    obtain ⟨parts, rfl, hp⟩ := Value.decodeAll_reads hrs vs hc.2 hd.2 ht
    exact ⟨head :: parts, rfl, .cons hv hp⟩

theorem AnnotationValue.decodeBody_reads (hrs : r.InverseOnValues s) : (a : AnnotationValue) →
    {room : Nat} → {out : Bytes} → a.Counted → a.depth ≤ room → a.encode r = .ok out →
      (annotationBody s (Value.decodeNested s room)).Reads out a.sorted
  | ⟨_, elements⟩, _, _, hc, hd, h => by
    have hlen : (Element.sortedAll elements).length < UInt32.size := by
      rw [Element.sortedAll_eq_map, List.length_map]
      exact hc.1
    exact annotationBody_reads hrs (Element.decodeAll_reads hrs elements hc.2 hd) h hlen

theorem Element.decodeAll_reads (hrs : r.InverseOnValues s) : (es : List Element) → {room : Nat} →
    Element.CountedAll es → Element.depthAll es ≤ room →
      List.Forall₂ (ElementReads s (Value.decodeNested s room)) (Element.encodeAll r es)
        (Element.sortedAll es)
  | [], _, _, _ => .nil
  | ⟨_, v⟩ :: es, _, hc, hd => by
    rw [Element.depthAll, Nat.max_le] at hd
    have hv (out : Bytes) (h : v.encode r = .ok out) :=
      Value.decodeNested_reads hrs v hc.1 (Nat.lt_of_succ_le hd.1) h
    exact .cons (elementBody_reads hrs hv) (Element.decodeAll_reads hrs es hc.2 hd.2)

end

theorem Value.decode_reads (hrs : r.InverseOnValues s) {v : Value} {out : Bytes} (hc : v.Counted)
    (hd : v.depth ≤ maxNesting) (h : v.encode r = .ok out) : (Value.decode s).Reads out v.sorted :=
  Value.decodeNested_reads hrs v hc (Nat.lt_succ_of_le hd) h

theorem AnnotationValue.decode_reads (hrs : r.InverseOnValues s) {a : AnnotationValue} {out : Bytes}
    (hc : a.Counted) (hd : a.depth ≤ maxNesting + 1) (h : a.encode r = .ok out) :
    (AnnotationValue.decode s).Reads out a.sorted :=
  AnnotationValue.decodeBody_reads hrs a hc hd h

theorem Value.depthAll_le {vs : List Value} {n : Nat} (h : ∀ v ∈ vs, v.depth ≤ n) :
    Value.depthAll vs ≤ n + 1 := by
  induction vs with
  | nil => exact Nat.zero_le _
  | cons v vs ih =>
    obtain ⟨hv, hvs⟩ := List.forall_mem_cons.mp h
    exact Nat.max_le.mpr ⟨Nat.succ_le_succ hv, ih hvs⟩

theorem decodeArray_reads (hrs : r.InverseOnValues s) {vs : List Value} {out : Bytes}
    (hlen : vs.length < UInt32.size) (hc : ∀ v ∈ vs, v.Counted)
    (hd : ∀ v ∈ vs, v.depth ≤ maxNesting) (h : encodeArray r vs = .ok out) :
    (decodeArray s).Reads out (Value.sortedAll vs) := by
  obtain ⟨body, hb, h⟩ := Result.bind_eq_ok.mp h
  obtain rfl := Result.pure_eq_ok.mp h
  obtain ⟨parts, rfl, hp⟩ :=
    Value.decodeAll_reads hrs vs (Value.countedAll_iff.mpr hc) (Value.depthAll_le hd) hb
  have hread := counted_reads hp (by rwa [Value.length_sortedAll])
  rwa [Value.length_sortedAll] at hread

/-- In bytes that can be counted with 32 bits everything inside can be. -/
theorem decodeArray_reads_of_length (hrs : r.InverseOnValues s) {vs : List Value} {out : Bytes}
    (hd : ∀ v ∈ vs, v.depth ≤ maxNesting) (h : encodeArray r vs = .ok out)
    (hl : out.length < UInt32.size) : (decodeArray s).Reads out (Value.sortedAll vs) := by
  obtain ⟨hlen, hc⟩ := counted_of_encodeArray h hl
  exact decodeArray_reads hrs hlen hc hd h

end Dalvik
