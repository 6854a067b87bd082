import Dalvik.Proofs.File.Annotations
import Dalvik.Proofs.Gather.Deferred

/-!
# Gathering and reading know one limit

What is set aside while a file is gathered is written in different places, and the readers of these
places start differently: with an array, or with an annotation, that does not count as one around
its values. All of them allow as much around a value as settling does.
-/
namespace Dalvik
open Result

/-- Gathering and reading refuse the same: they raise an error of nesting exactly if one of the
values is nested too deeply, and otherwise neither of them fails. -/
structure SameLimit {α β : Type} (values : List Value) (gathering : Result α) (reading : Result β) :
    Prop where
  same : gathering.RaisesNesting ↔ reading.RaisesNesting
  limit : reading.RaisesNesting ↔ ∃ v ∈ values, v.TooDeep
  succeeds : (∀ v ∈ values, ¬ v.TooDeep) → (∃ a, gathering = .ok a) ∧ ∃ b, reading = .ok b

theorem SameLimit.of_checksNesting {α β : Type} {values : List Value} {gathering : Result α}
    {reading : Result β} (hg : gathering.ChecksNesting (∃ v ∈ values, v.TooDeep))
    (hr : reading.ChecksNesting (∃ v ∈ values, v.TooDeep)) :
    SameLimit values gathering reading where
  same := hg.raises_iff.trans hr.raises_iff.symm
  limit := hr.raises_iff
  succeeds h := by
    have hshallow : ¬ ∃ v ∈ values, v.TooDeep := fun ⟨v, hv, hdeep⟩ => h v hv hdeep
    exact ⟨hg.succeeds hshallow, hr.succeeds hshallow⟩

theorem Value.not_tooDeep_of_isDefault {v : Value} (h : v.isDefault) : ¬ v.TooDeep := by
  rw [Value.tooDeep_iff]
  cases v with
  | array | annotated => cases h
  | _ => simp [Value.depth]

theorem Value.trimDefaults_sublist (vs : List Value) : (Value.trimDefaults vs).Sublist vs := by
  have h := (List.dropWhile_sublist Value.isDefault (l := vs.reverse)).reverse
  rwa [List.reverse_reverse] at h

/-- Defaults are not nested, so nothing is lost with those at the end. -/
theorem Value.exists_tooDeep_trimDefaults (vs : List Value) :
    (∃ v ∈ Value.trimDefaults vs, v.TooDeep) ↔ ∃ v ∈ vs, v.TooDeep := by
  obtain ⟨tail, hvs, htail⟩ := Gather.exists_trim Value.isDefault vs
  constructor
  · rintro ⟨v, hv, hdeep⟩
    exact ⟨v, (Value.trimDefaults_sublist vs).mem hv, hdeep⟩
  · rintro ⟨v, hv, hdeep⟩
    rw [hvs] at hv
    rcases List.mem_append.mp hv with hv | hv
    · exact ⟨v, hv, hdeep⟩
    · exact absurd hdeep (Value.not_tooDeep_of_isDefault (htail v hv))

theorem FieldEntry.exists_tooDeep_iff {fs : List FieldEntry} {vs : List Value}
    (h : fs.mapM FieldEntry.initial = .ok vs) :
    (∃ d ∈ fs.flatMap (·.definition.deferred), d.TooDeep) ↔ ∃ v ∈ vs, v.TooDeep := by
  have field {f : FieldEntry} {v : Value} (h : f.initial = .ok v) :
      (∃ d ∈ f.definition.deferred, d.TooDeep) ↔ v.TooDeep := by
    unfold FieldEntry.initial at h
    unfold FieldDef.deferred
    cases hvalue : f.definition.value with
    | some w =>
      rw [hvalue] at h
      cases h
      simp [Deferred.TooDeep, Deferred.values]
    | none =>
      rw [hvalue] at h
      have hflat := (Value.flat_defaultFor h).2
      simp [Value.tooDeep_iff, hflat]
  have hall := mapM_eq_ok.mp h
  clear h
  induction hall with
  | nil => simp
  | cons hf _ ih =>
    rw [List.flatMap_cons, List.exists_mem_cons_iff]
    simp only [List.mem_append, or_and_right, exists_or]
    exact or_congr (field hf) ih

theorem AnnotationItem.decode_checksNesting {r : Resolver} {s : Source} (hrs : r.InverseOnValues s)
    {a : AnnotationItem} {out : Bytes} (hc : a.value.Counted) (h : a.encode r = .ok out)
    {bytes : ByteArray} {index : Nat} (hs : out.Stands bytes index) :
    ((AnnotationItem.decode s).valueAt bytes index).ChecksNesting
      (∃ v ∈ a.value.elements.map Element.value, v.TooDeep) := by
  refine Decoder.checksNesting (fun hdeep => ?_) (fun hdeep => ?_) hs
  · have limits := Value.limits_decodeNested hrs (maxNesting + 1)
    obtain ⟨v, hv, hdeep⟩ := hdeep
    obtain ⟨value, hvalue, h⟩ := bind_eq_ok.mp h
    obtain rfl := pure_eq_ok.mp h
    have hbody := limits.refuses_annotated hrs hc ⟨v, hv, Value.tooDeep_iff.mp hdeep⟩ hvalue
    exact .behind (Decoder.u1_reads a.visibility.code)
      (.lift (Visibility.ofCode_code a.visibility) hbody.bind)
  · have hle := Nat.le_of_not_lt (mt AnnotationValue.exists_tooDeep_iff.mpr hdeep)
    exact ⟨_, AnnotationItem.decode_reads hrs hc hle h⟩

/-- A value, the values of static fields, those of the elements of an annotation and the arguments of
a call site, as far as they can be counted, are refused while gathering exactly if they are while
reading what was written for them, whatever stands around it: if more arrays and annotations of a
value enclose another one than are allowed. Gathering a file whose classes are in order raises that
error for these values alone. -/
theorem nesting_limit {r : Resolver} {s : Source} (hrs : r.Inverse s) (g : Gathered) {out : Bytes}
    {bytes : ByteArray} {index : Nat} (hs : out.Stands bytes index) :
    (∀ v : Value, v.Counted → v.encode r = .ok out →
      SameLimit [v] (g.settle (.value v)) ((Value.decode s).valueAt bytes index)) ∧
    (∀ (fs : List FieldEntry) vs, fs.mapM FieldEntry.initial = .ok vs → vs.length < UInt32.size →
      (∀ v ∈ vs, v.Counted) → encodeArray r (Value.trimDefaults vs) = .ok out →
      SameLimit vs ((fs.flatMap (·.definition.deferred)).foldlM Gathered.settle g)
        ((decodeArray s).valueAt bytes index)) ∧
    (∀ a : AnnotationItem, a.value.Counted → a.encode r = .ok out →
      SameLimit (a.value.elements.map Element.value) (g.settle (.annotated a))
        ((AnnotationItem.decode s).valueAt bytes index)) ∧
    (∀ c : CallSite, c.toValues.length < UInt32.size → (∀ v ∈ c.arguments, v.Counted) →
      encodeArray r c.toValues = .ok out →
      SameLimit c.arguments (g.settle (.callSite c)) ((decodeArray s).valueAt bytes index)) ∧
    ∀ o d, (Contents.ofDex o d).RaisesNesting ↔
      (∃ classes, Gather.classEntries o ∅ d.classes {} = .ok classes) ∧
        ∃ v ∈ d.outermost, v.TooDeep := by
  have hrs := hrs.onValues
  refine ⟨fun v hc h => ?value, fun fs vs hvs hlen hc h => ?static, fun a hc h => ?annotated,
    fun c hlen hc h => ?callSite, fun o d => Contents.raisesNesting_ofDex_iff⟩
  case value =>
    refine .of_checksNesting (g.settle_checksNesting (.value v)) ?_
    exact (Value.decode_checksNesting hrs hs hc h).of_iff (by simp)
  case static =>
    have htrim := (Value.trimDefaults_sublist vs).length_le
    refine .of_checksNesting ?_ ?_
    · exact (ChecksNesting.foldlM Gathered.settle_checksNesting _ g).of_iff
        (FieldEntry.exists_tooDeep_iff hvs)
    · have hkept (v : Value) (hv : v ∈ Value.trimDefaults vs) : v.Counted :=
        hc v ((Value.trimDefaults_sublist vs).mem hv)
      exact (decodeArray_checksNesting hrs hs (htrim.trans_lt hlen) hkept h).of_iff
        (Value.exists_tooDeep_trimDefaults vs)
  case annotated =>
    exact .of_checksNesting (g.settle_checksNesting (.annotated a))
      (AnnotationItem.decode_checksNesting hrs hc h hs)
  case callSite =>
    refine .of_checksNesting (g.settle_checksNesting (.callSite c)) ?_
    have hall : ∀ v ∈ c.toValues, v.Counted := by
      simpa [CallSite.toValues, Value.Counted] using hc
    refine (decodeArray_checksNesting hrs hs hlen hall h).of_iff ?_
    simp [CallSite.toValues, Value.tooDeep_iff, Value.depth]

/-- A value with as many arrays around it as the number says. -/
def Value.wrapped : Nat → Value
  | 0 => .null
  | n + 1 => .array [wrapped n]

def Value.wrappedBytes : Nat → Bytes
  | 0 => [0x1e]
  | n + 1 => 0x1c :: 1 :: wrappedBytes n

theorem Value.depth_wrapped (n : Nat) : (wrapped n).depth = n := by
  induction n with
  | zero => rfl
  | succ n ih => rw [wrapped, Value.depth, Value.depthAll, Value.depthAll, ih, Nat.max_zero]

theorem Value.encode_wrapped (r : Resolver) (n : Nat) :
    (wrapped n).encode r = .ok (wrappedBytes n) := by
  induction n with
  | zero => rfl
  | succ n ih =>
    have hone : Bytes.ulebNat 1 = [1] := by cbv
    rw [wrapped, Value.encode, Value.encodeAll, Value.encodeAll, ih, List.length_singleton, hone]
    simp [wrappedBytes, Value.kind, ok_bind]

theorem Value.tooDeep_wrapped {n : Nat} : (wrapped n).TooDeep ↔ maxNesting < n := by
  rw [Value.tooDeep_iff, Value.depth_wrapped]

theorem Value.counted_wrapped (n : Nat) : (wrapped n).Counted := by
  induction n with
  | zero => exact trivial
  | succ n ih =>
    rw [wrapped, Value.Counted, List.length_singleton, Value.CountedAll]
    exact ⟨by decide, ih, trivial⟩

/-- As many arrays as are allowed are taken on both sides, and one more on neither. -/
theorem nesting_limit_wrapped :
    ((∃ g, Gathered.settle {} (.value (.wrapped maxNesting)) = .ok g) ∧
      ∃ v, (Value.decode twoNamesSource).valueAt
        ([] ++ Value.wrappedBytes maxNesting ++ []).toByteArray 0 = .ok v) ∧
    (Gathered.settle {} (.value (.wrapped (maxNesting + 1)))).RaisesNesting ∧
      ((Value.decode twoNamesSource).valueAt
        ([] ++ Value.wrappedBytes (maxNesting + 1) ++ []).toByteArray 0).RaisesNesting := by
  have below := (nesting_limit inverse_twoNames {} (Bytes.stands_toByteArray [] _ [])).1 _
    (Value.counted_wrapped maxNesting) (Value.encode_wrapped _ _)
  have above := (nesting_limit inverse_twoNames {} (Bytes.stands_toByteArray [] _ [])).1 _
    (Value.counted_wrapped (maxNesting + 1)) (Value.encode_wrapped _ _)
  have refused := above.limit.mpr
    ⟨_, List.mem_singleton_self _, Value.tooDeep_wrapped.mpr (Nat.lt_succ_self _)⟩
  refine ⟨below.succeeds ?_, above.same.mpr refused, refused⟩
  rintro v hv hdeep
  rw [List.mem_singleton.mp hv, Value.tooDeep_wrapped] at hdeep
  exact Nat.lt_irrefl _ hdeep

/-- A class with a field that holds a value within one array more than is allowed. -/
def nestedClass : ClassDef where
  type := ⟨"LA;"⟩
  staticFields := [{
    name := "f"
    type := ⟨"[I"⟩
    access := 8
    value := some (.wrapped (maxNesting + 1)) }]

theorem Value.tooDeep_array {vs : List Value} :
    (Value.array vs).TooDeep ↔ ∃ v ∈ vs, maxNesting ≤ v.depth := by
  rw [Value.tooDeep_iff, Value.lt_depth_iff, Value.members]

/-- Of an array with as many values as there are words of 32 bits none is read. -/
theorem Value.decode_uncounted {r : Resolver} {s : Source} (hrs : r.InverseOnValues s) {v : Value}
    {part : Bytes} (h : v.encode r = .ok part) :
    ∃ out, (Value.array (List.replicate UInt32.size v)).encode r = .ok out ∧
      (Value.decode s).valueAt ([] ++ out ++ []).toByteArray 0 = .ok (.array []) := by
  have hall (n : Nat) : ∃ rest, Value.encodeAll r (List.replicate n v) = .ok rest := by
    induction n with
    | zero => exact ⟨[], rfl⟩
    | succ n ih =>
      obtain ⟨rest, hrest⟩ := ih
      refine ⟨part ++ rest, ?_⟩
      rw [List.replicate_succ, Value.encodeAll, h, hrest]
      rfl
  obtain ⟨rest, hrest⟩ := hall UInt32.size
  have hzero : Bytes.ulebNat UInt32.size = [0] := by cbv
  have hempty : (Value.array []).encode r = .ok [0x1c, 0] := by
    rw [Value.encode, Value.encodeAll]
    cbv
  have hread := Value.decode_reads hrs (by simp [Value.Counted, Value.CountedAll])
    (by decide) hempty
  refine ⟨[0x1c, 0] ++ rest, ?_, ?_⟩
  · rw [Value.encode, List.length_replicate, hzero, hrest]
    rfl
  · rw [List.append_nil]
    exact hread.valueAt (Bytes.stands_toByteArray [] [0x1c, 0] rest)

/-- Another error may come first, as for a class that is there twice, and of an array that cannot be
counted a reader does not see all. -/
theorem nesting_limit_missed :
    ((Value.wrapped (maxNesting + 1)).TooDeep ∧
      .wrapped (maxNesting + 1) ∈ Dex.outermost ⟨[nestedClass, nestedClass]⟩ ∧
      ¬ (Contents.ofDex {} ⟨[nestedClass, nestedClass]⟩).RaisesNesting ∧
      ((Value.decode twoNamesSource).valueAt
        ([] ++ Value.wrappedBytes (maxNesting + 1) ++ []).toByteArray 0).RaisesNesting) ∧
    ∃ v : Value, v.TooDeep ∧ (Gathered.settle {} (.value v)).RaisesNesting ∧
      ∃ out, v.encode twoNames = .ok out ∧
        (Value.decode twoNamesSource).valueAt ([] ++ out ++ []).toByteArray 0 = .ok (.array []) := by
  have deep : (Value.wrapped (maxNesting + 1)).TooDeep :=
    Value.tooDeep_wrapped.mpr (Nat.lt_succ_self _)
  refine ⟨⟨deep, ?_, fun hraises => ?_, ?_⟩, ?_⟩
  · simp [Dex.outermost, nestedClass, ClassDef.deferred, FieldDef.deferred, Deferred.values,
      ClassDef.fields]
  · obtain ⟨⟨entries, hentries⟩, -⟩ := Contents.raisesNesting_ofDex_iff.mp hraises
    have hnodup := (Gather.nodup_types hentries).1
    simp at hnodup
  · exact (Value.decode_checksNesting inverse_twoNames.onValues (Bytes.stands_toByteArray [] _ [])
      (Value.counted_wrapped _) (Value.encode_wrapped _ _)).raises deep
  · have hmany : (Value.array (List.replicate UInt32.size (.wrapped maxNesting))).TooDeep :=
      Value.tooDeep_array.mpr ⟨_, List.mem_replicate.mpr ⟨by decide, rfl⟩,
        (Value.depth_wrapped maxNesting).ge⟩
    have hsettle := Gathered.settle_checksNesting {}
      (.value (.array (List.replicate UInt32.size (.wrapped maxNesting))))
    exact ⟨_, hmany, hsettle.raises ⟨_, List.mem_singleton_self _, hmany⟩,
      Value.decode_uncounted inverse_twoNames.onValues (Value.encode_wrapped _ _)⟩

end Dalvik
