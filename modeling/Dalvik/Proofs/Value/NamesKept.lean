import Dalvik.Proofs.Along
import Dalvik.Proofs.Value.Names

/-!
# Names that are built and names that are read

An annotation that is built has its elements in the order of their names, and no two of them share
one. Reading keeps the names as they are stored: it neither sorts them nor compares them, at any
depth, so that an annotation can come back with a name twice that could not have been built and
cannot be written.
-/
namespace Dalvik
open Text Decoder

/-! ## The names in a value -/

mutual

/-- The names of the elements of every annotation inside a value, the outer annotation first. -/
def Value.nameLists : Value → List (List String)
  | .array values => Value.nameListsAll values
  | .annotated a => a.nameLists
  | _ => []

def Value.nameListsAll : List Value → List (List String)
  | [] => []
  | v :: vs => v.nameLists ++ Value.nameListsAll vs

def AnnotationValue.nameLists : AnnotationValue → List (List String)
  | ⟨_, elements⟩ => elements.map Element.name :: Element.nameListsAll elements

def Element.nameListsAll : List Element → List (List String)
  | [] => []
  | ⟨_, v⟩ :: es => v.nameLists ++ Element.nameListsAll es

end

theorem Element.mem_nameListsAll {es : List Element} {names : List String} :
    names ∈ Element.nameListsAll es ↔ ∃ e ∈ es, names ∈ e.value.nameLists := by
  induction es with
  | nil => exact iff_of_false nofun nofun
  | cons e es ih =>
    obtain ⟨name, v⟩ := e
    rw [Element.nameListsAll, List.mem_append, ih, List.exists_mem_cons_iff]

/-- The names ascend strictly, so no two of them are the same. -/
def Increasing (names : List String) : Prop :=
  names.Pairwise fun name other => compareUtf16 name other = .lt

/-! ## Building -/

namespace AnnotationValue
variable {elements : List Element}

theorem nodup_of_increasing {names : List String} (h : Increasing names) : names.Nodup := by
  refine h.imp fun hlt heq => ?_
  rw [compareUtf16_eq_iff.mpr heq] at hlt
  cases hlt

theorem names_sortElements_perm : ((sortElements elements).map Element.name).Perm
    (elements.map Element.name) := (sortedBy_perm _ _).map _

theorem increasing_of_duplicateName? (h : duplicateName? (sortElements elements) = none) :
    Increasing ((sortElements elements).map Element.name) := by
  have hnone := Option.map_eq_none_iff.mp h
  exact List.pairwise_map.mpr (pairwise_lt_of_firstAdjacent? (pairwise_sortedBy _ _) hnone)

/-- A name that two neighbours share stands twice among the names. -/
theorem duplicate_of_duplicateName? {name : String} (h : duplicateName? elements = some name) :
    (elements.map Element.name).Duplicate name := by
  obtain ⟨e, he, rfl⟩ := Option.map_eq_some_iff.mp h
  exact duplicate_of_firstAdjacent? he

/-- Building gives the elements in order, or tells a name that stands twice among them. -/
theorem build_cases (type : TypeId) (elements : List Element) :
    ((elements.map Element.name).Nodup ∧ build type elements = .ok ⟨type, sortElements elements⟩ ∧
        Increasing ((sortElements elements).map Element.name)) ∨
      ∃ name, (elements.map Element.name).Duplicate name ∧
        build type elements = Result.violation (.elementName name) := by
  unfold build
  dsimp only
  split
  next name h =>
    refine .inr ⟨name, ?_, rfl⟩
    have hsorted := List.duplicate_iff_two_le_count.mp (duplicate_of_duplicateName? h)
    rw [names_sortElements_perm.count_eq] at hsorted
    exact List.duplicate_iff_two_le_count.mpr hsorted
  next h =>
    have hlt := increasing_of_duplicateName? h
    exact .inl ⟨names_sortElements_perm.nodup_iff.mp (nodup_of_increasing hlt), rfl, hlt⟩

end AnnotationValue

/-! ## Reading -/

section
variable {s : Source}

/-- The names are those that the indices lead to, list by list. -/
def NamedBy (s : Source) (lists : List (List String)) (indices : List (List UInt32)) : Prop :=
  List.Forall₂ (List.Forall₂ fun name index => s.string index = .ok name) lists indices

/-- The names ascend if and only if those do that the indices lead to. -/
theorem NamedBy.increasing_iff {lists : List (List String)} {found : List (List UInt32)}
    (h : NamedBy s lists found) :
    (∀ names ∈ lists, Increasing names) ↔
      ∀ indices ∈ found, ∃ names, indices.mapM s.string = .ok names ∧ Increasing names := by
  induction h with
  | nil => exact iff_of_true (List.forall_mem_nil _) (List.forall_mem_nil _)
  | @cons names indices _ _ hnames _ ih =>
    have hmap : indices.mapM s.string = .ok names := Result.mapM_eq_ok.mpr hnames.flip
    rw [List.forall_mem_cons, List.forall_mem_cons, ih]
    refine and_congr ⟨fun hi => ⟨names, hmap, hi⟩, ?_⟩ Iff.rfl
    rintro ⟨others, hothers, hi⟩
    obtain rfl := Except.ok.inj (hmap.symm.trans hothers)
    exact hi

theorem Value.namedBy_all {vs : List Value} {found : List (List (List UInt32))}
    (h : List.Forall₂ (fun v lists => NamedBy s v.nameLists lists) vs found) :
    NamedBy s (Value.nameListsAll vs) found.flatten := by
  induction h with
  | nil => exact .nil
  | cons hv _ ih => exact List.rel_append hv ih

theorem Element.namedBy_all {es : List Element} {found : List (UInt32 × List (List UInt32))}
    (h : List.Forall₂ (fun e part => s.string part.1 = .ok e.name ∧
      NamedBy s e.value.nameLists part.2) es found) :
    List.Forall₂ (fun name index => s.string index = .ok name) (es.map Element.name)
        (found.map Prod.fst) ∧
      NamedBy s (Element.nameListsAll es) (found.flatMap Prod.snd) := by
  induction h with
  | nil => exact ⟨.nil, .nil⟩
  | @cons e _ _ _ he _ ih =>
    cases e
    exact ⟨.cons he.1 ih.1, List.rel_append he.2 ih.2⟩

theorem along_annotationNames {value : Decoder Value} {names : Decoder (List (List UInt32))}
    (h : Along (fun v lists => NamedBy s v.nameLists lists) value names) :
    Along (fun a lists => NamedBy s a.nameLists lists) (annotationBody s value)
      (annotationNames names) := by
  have element : Along (fun e part => s.string part.1 = .ok e.name ∧
      NamedBy s e.value.nameLists part.2) (elementBody s value) (elementNames names) :=
    Along.self_bind fun index => Along.lift_bind fun name hname => h.map fun _ _ hv => ⟨hname, hv⟩
  refine Along.self_bind fun index => Along.lift_bind fun type _ => element.counted.map ?_
  intro es found hes
  obtain ⟨houter, hinner⟩ := Element.namedBy_all hes
  exact .cons houter hinner

theorem along_decodeNames (s : Source) (room : Nat) :
    Along (fun v lists => NamedBy s v.nameLists lists) (Value.decodeNested s room)
      (Value.decodeNames room) := by
  induction room with
  | zero => exact Along.position_bind fun _ => .fail _
  | succ room ih =>
    refine Along.self_bind fun first => ?_
    dsimp only
    generalize (first &&& 0x1f).toNat = code
    split
    · exact Along.number fun _ => .nil
    · exact Along.number fun _ => .nil
    · exact Along.number fun _ => .nil
    · exact Along.number fun _ => .nil
    · exact Along.number fun _ => .nil
    · exact Along.float fun _ => .nil
    · exact Along.number fun _ => .nil
    · exact Along.entry fun _ => .nil
    · exact Along.entry fun _ => .nil
    · exact Along.entry fun _ => .nil
    · exact Along.entry fun _ => .nil
    · exact Along.entry fun _ => .nil
    · exact Along.entry fun _ => .nil
    · exact Along.entry fun _ => .nil
    · exact ih.counted.map fun _ _ hvs => Value.namedBy_all hvs
    · exact (along_annotationNames ih).map_left fun _ _ ha => ha
    · exact Along.pure .nil
    · exact Along.pure .nil
    · exact Along.position_bind fun _ => .fail _

/-- An element without a value, for each name. -/
theorem elementBodies_null_read {indices : List UInt32} {names : List String} {room : Nat}
    (h : List.Forall₂ (fun index name => s.string index = .ok name) indices names) :
    List.Forall₂ (elementBody s (Value.decodeNested s (room + 1))).Reads
      (indices.map fun index => Bytes.uleb index ++ [0x1e])
      (names.map fun name => ⟨name, .null⟩) := by
  rw [List.forall₂_map_left_iff, List.forall₂_map_right_iff]
  refine h.imp fun index name hname => (uleb_reads index).bind (Reads.lift hname ?_)
  have hnull : (Value.decodeNested s (room + 1)).Reads [0x1e] .null := u1_bind_reads (Reads.pure _)
  exact hnull.map

/-- Names are accepted in any order and however often they stand. -/
theorem decode_null_reads {index : UInt32} {type : TypeId} (htype : s.type index = .ok type)
    {indices : List UInt32} {names : List String} (hl : names.length < UInt32.size)
    (h : List.Forall₂ (fun index name => s.string index = .ok name) indices names) :
    (AnnotationValue.decode s).Reads
      (Bytes.uleb index ++ (Bytes.ulebNat names.length ++
        (indices.map fun index => Bytes.uleb index ++ [0x1e]).flatten))
      ⟨type, names.map fun name => ⟨name, .null⟩⟩ := by
  have hcount : (UInt32.ofNat names.length).toNat = names.length := UInt32.toNat_ofNat_of_lt' hl
  refine (uleb_reads index).bind (Reads.lift htype (Reads.map ?_))
  refine (uleb_reads _).bind ?_
  have hreads := Reads.repeated (@elementBodies_null_read s indices names maxNesting h)
  rw [List.length_map] at hreads
  rw [hcount]
  exact hreads

end

namespace AnnotationValue

/-- What has been built from elements whose own annotations have their names in order has all of
them in order. -/
theorem increasing_sortElements {type : TypeId} {elements : List Element}
    (houter : Increasing ((sortElements elements).map Element.name))
    (hinner : ∀ e ∈ elements, ∀ names ∈ e.value.nameLists, Increasing names) :
    ∀ names ∈ nameLists ⟨type, sortElements elements⟩, Increasing names := by
  rw [nameLists, List.forall_mem_cons]
  refine ⟨houter, fun names hnames => ?_⟩
  obtain ⟨e, he, hnames⟩ := Element.mem_nameListsAll.mp hnames
  exact hinner e ((sortedBy_perm _ _).mem_iff.mp he) names hnames

/-- Building gives an annotation whose names ascend strictly, and so do those of the annotations
inside of it if they did in its elements; without a name that stands twice it succeeds, and with one
it fails for such a name. Reading checks nothing of this: the names of what is read, at any depth,
are those that the indices in the bytes lead to, in the order of the bytes, and they ascend if and
only if these do. Any list of names is accepted. -/
theorem names_build_decode (s : Source) (type : TypeId) (elements : List Element)
    (bytes : ByteArray) (index : Nat) :
    (((elements.map Element.name).Nodup ∧
        build type elements = .ok ⟨type, sortElements elements⟩ ∧
        Increasing ((sortElements elements).map Element.name) ∧
        ((∀ e ∈ elements, ∀ names ∈ e.value.nameLists, Increasing names) →
          ∀ names ∈ nameLists ⟨type, sortElements elements⟩, Increasing names)) ∨
      ∃ name, (elements.map Element.name).Duplicate name ∧
        build type elements = Result.violation (.elementName name)) ∧
      (∀ a after, (decode s).decodeAt bytes index = .ok (a, after) →
        ∃ lists, decodeNames.decodeAt bytes index = .ok (lists, after) ∧
          NamedBy s a.nameLists lists ∧
          ((∀ names ∈ a.nameLists, Increasing names) ↔
            ∀ indices ∈ lists, ∃ names, indices.mapM s.string = .ok names ∧ Increasing names)) ∧
      ∀ typeIndex (indices : List UInt32) (names : List String),
        s.type typeIndex = .ok type → names.length < UInt32.size →
        List.Forall₂ (fun index name => s.string index = .ok name) indices names →
          (decode s).Reads
            (Bytes.uleb typeIndex ++ (Bytes.ulebNat names.length ++
              (indices.map fun index => Bytes.uleb index ++ [0x1e]).flatten))
            ⟨type, names.map fun name => ⟨name, .null⟩⟩ := by
  refine ⟨?_, fun a after h => ?_, fun typeIndex indices names htype hl h => ?_⟩
  · refine (build_cases type elements).imp (fun ⟨hnodup, hbuild, hlt⟩ => ?_) id
    exact ⟨hnodup, hbuild, hlt, increasing_sortElements hlt⟩
  · obtain ⟨lists, hlists, hnamed⟩ := (along_annotationNames (along_decodeNames s _)).decodeAt h
    exact ⟨lists, hlists, hnamed, hnamed.increasing_iff⟩
  · exact decode_null_reads htype hl h

theorem names_build_decode_twice :
    (∃ lists,
      decodeNames.decodeAt ([0, 2, 0, 0x1e, 0, 0x1e] : Bytes).toByteArray 0 = .ok (lists, 6) ∧
        NamedBy twoNamesSource [["a", "a"]] lists ∧
        ((∀ names ∈ [["a", "a"]], Increasing names) ↔ ∀ indices ∈ lists, ∃ names,
          indices.mapM twoNamesSource.string = .ok names ∧ Increasing names)) ∧
      (decode twoNamesSource).Reads [0, 3, 1, 0x1e, 0, 0x1e, 1, 0x1e]
        ⟨⟨"LA;"⟩, [⟨"b", .null⟩, ⟨"a", .null⟩, ⟨"b", .null⟩]⟩ := by
  obtain ⟨-, hkept, haccepted⟩ := names_build_decode twoNamesSource ⟨"LA;"⟩ []
    ([0, 2, 0, 0x1e, 0, 0x1e] : Bytes).toByteArray 0
  have h : (decode twoNamesSource).decodeAt ([0, 2, 0, 0x1e, 0, 0x1e] : Bytes).toByteArray 0 =
      .ok (⟨⟨"LA;"⟩, [⟨"a", .null⟩, ⟨"a", .null⟩]⟩, 6) := by cbv
  refine ⟨hkept _ _ h, ?_⟩
  have hread := haccepted 0 [1, 0, 1] ["b", "a", "b"] rfl (by decide)
    (.cons rfl (.cons rfl (.cons rfl .nil)))
  have hbytes : Bytes.uleb 0 ++ (Bytes.ulebNat ["b", "a", "b"].length ++
      ([1, 0, 1].map fun index => Bytes.uleb index ++ [0x1e]).flatten) =
        [0, 3, 1, 0x1e, 0, 0x1e, 1, 0x1e] := by cbv
  rwa [hbytes] at hread

/-- Two elements of one name are read, but neither built nor written. -/
theorem decode_twice :
    (decode twoNamesSource).decodeAt ([0, 2, 0, 0x1e, 0, 0x1e] : Bytes).toByteArray 0 =
        .ok (⟨⟨"LA;"⟩, [⟨"a", .null⟩, ⟨"a", .null⟩]⟩, 6) ∧
      build ⟨"LA;"⟩ [⟨"a", .null⟩, ⟨"a", .null⟩] = Result.violation (.elementName "a") ∧
      encode twoNames ⟨⟨"LA;"⟩, [⟨"a", .null⟩, ⟨"a", .null⟩]⟩ =
        Result.violation (.elementNameIn "a" "LA;") ∧
      ¬ Increasing ["a", "a"] :=
  ⟨by cbv, by cbv, by cbv, fun h => absurd (nodup_of_increasing h) (by decide)⟩

end AnnotationValue

end Dalvik
