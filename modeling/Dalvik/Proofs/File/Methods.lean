import Dalvik.Proofs.Code.RoundTrip
import Dalvik.Proofs.Debug.OffsetTable
import Dalvik.Proofs.Debug.RoundTrip
import Dalvik.Proofs.File.Members

/-!
# Methods are read back

The code of a method is found by its offset. Its debug information is found by an offset in the
code, or in a compact file by a table that has an offset for every method.
-/
namespace Dalvik
open Result

/-- Code whose instructions have the formats of their opcodes, and which has no line 0. -/
structure Code.WellFormed (c : Code) : Prop where
  instructions : ∀ i ∈ c.instructions, i.WellFormed
  lines : .line 0 ∉ c.debug

/-- Code as it is read back, with call sites that reading changes. -/
def Code.normal (o : WriteOptions) (site : CallSite → CallSite) (c : Code) : Code where
  registers := c.registers
  instructions := c.instructions.map (Instruction.normal site)
  tries := sortedBy (compareOn TryBlock.start) c.tries
  debug := if o.options.debugInfo then DebugItem.normal c.debug else []

/-- A parameter as it is read back, with its name or without. -/
def Parameter.normal (named : Bool) (p : Parameter) : Parameter where
  type := p.type
  name := if named then p.name else none
  annotations := AnnotationItem.normalSet p.annotations

/-- A method as it is read back. The names of its parameters are part of the debug information. -/
def MethodDef.readAs (o : WriteOptions) (site : CallSite → CallSite) (m : MethodDef) : MethodDef :=
  { m with
    parameters := m.parameters.map (Parameter.normal (m.code.isSome && o.options.debugInfo))
    access := (o.flags m.access m.restriction).1
    restriction := (o.flags m.access m.restriction).2
    code := m.code.map (Code.normal o site)
    annotations := AnnotationItem.normalSet m.annotations }

/-! ## Names and annotations of parameters -/

namespace MethodDef

variable {o : WriteOptions} {m : MethodDef} {i : Nat} {p : Parameter}

/-- The names are found in the debug information, if there is any. -/
theorem names_eq (h : m.parameters[i]? = some p) :
    (((m.storedDebug o).map DebugInfo.parameters).getD [])[i]?.join =
      if m.code.isSome && o.options.debugInfo then p.name else none := by
  have hname : m.parameterNames[i]? = some p.name := by
    rw [parameterNames, List.getElem?_map, h]
    rfl
  unfold storedDebug
  cases m.code with
  | none => rfl
  | some c =>
    cases o.options.debugInfo with
    | false => rfl
    | true =>
      cases hempty : (m.debugInfo c).isEmpty with
      | false =>
        simp only [Option.bind_some, hempty]
        simp [debugInfo, hname]
      | true =>
        have hall : m.parameterNames.all Option.isNone := by
          rw [DebugInfo.isEmpty, Bool.and_eq_true] at hempty
          exact hempty.2
        have hnone := List.all_eq_true.mp hall _ (List.mem_of_getElem? hname)
        simp only [Option.isNone_iff_eq_none] at hnone
        simp only [Option.bind_some, hempty]
        simp [hnone]

/-- So are the events along the code. -/
theorem items_eq {c : Code} (h : m.code = some c) :
    ((m.storedDebug o).map (DebugItem.normal ·.items)).getD [] =
      if o.options.debugInfo then DebugItem.normal c.debug else [] := by
  unfold storedDebug
  rw [h, Option.bind_some]
  cases o.options.debugInfo with
  | false => rfl
  | true =>
    cases hempty : (m.debugInfo c).isEmpty with
    | false => rfl
    | true =>
      have hitems : c.debug = [] := by
        rw [DebugInfo.isEmpty, Bool.and_eq_true, List.isEmpty_iff] at hempty
        exact hempty.1
      rw [hitems]
      rfl

/-- The sets of annotations are found in the list that is left without the empty ones at its end. -/
theorem parameterSet_eq {all : List (List AnnotationItem)}
    (hall : Gather.parameterSetsOf m = .ok all) (h : m.parameters[i]? = some p) :
    ((AnnotationItem.trimEmpty all).map (List.map AnnotationItem.normal)).getD i [] =
      AnnotationItem.normalSet p.annotations := by
  obtain ⟨set, hset, hsorted⟩ : ∃ set, all[i]? = some set ∧
      AnnotationItem.sortedSet p.annotations = .ok set := by
    have heach := mapM_eq_ok.mp hall
    obtain ⟨hi, rfl⟩ := List.getElem?_eq_some_iff.mp h
    have hlength : i < all.length := heach.length_eq ▸ hi
    exact ⟨all[i], List.getElem?_eq_getElem hlength, heach.get hi hlength⟩
  rw [← AnnotationItem.normalSet_of_sortedSet hsorted]
  obtain ⟨tail, htail, hempty⟩ := Gather.exists_trim List.isEmpty all
  have htail : all = AnnotationItem.trimEmpty all ++ tail := htail
  rw [List.getD_eq_getElem?_getD, List.getElem?_map]
  rw [htail] at hset
  rcases Nat.lt_or_ge i (AnnotationItem.trimEmpty all).length with hi | hi
  · rw [List.getElem?_append_left hi] at hset
    rw [hset]
    rfl
  · rw [List.getElem?_append_right hi] at hset
    rw [List.getElem?_eq_none hi, List.isEmpty_iff.mp (hempty set (List.mem_of_getElem? hset))]
    rfl

end MethodDef

/-! ## Code and debug information in a file -/

theorem DebugInfo.length_parameters_le {r : Resolver} {i : DebugInfo} {out : Bytes}
    (h : i.encode r = .ok out) : i.parameters.length ≤ out.length := by
  obtain ⟨⟨program, lineStart⟩, -, h⟩ := bind_eq_ok.mp h
  obtain ⟨names, hnames, h⟩ := bind_eq_ok.mp h
  cases h
  have hnames := mapM_eq_ok.mp hnames
  have hne : ∀ part ∈ names, part ≠ [] := by
    intro part hpart
    obtain ⟨name, -, h⟩ := exists_left_of_mem hnames hpart
    obtain ⟨index, -, h⟩ := bind_eq_ok.mp h
    cases h
    exact DebugOp.optionalIndex_ne_nil index
  have hlen := length_le_length_flatten hne
  simp only [List.length_append, hnames.length_eq]
  omega

theorem MethodDef.noZero_of_storedDebug {o : WriteOptions} {m : MethodDef} {d : DebugInfo}
    (hw : ∀ x ∈ m.code, x.WellFormed) (hd : m.storedDebug o = some d) : .line 0 ∉ d.items := by
  obtain ⟨x, hx, hd⟩ := Option.bind_eq_some_iff.mp hd
  split at hd
  · split at hd
    · cases hd
    · cases hd
      exact (hw x hx).lines
  · cases hd

/-! ## The table of debug information -/

section
variable {known : List (UInt32 × UInt32)} {start : Array UInt32} {i offset : UInt32}

/-- Puts offsets to their indices. -/
def putAll (known : List (UInt32 × UInt32)) (start : Array UInt32) : Array UInt32 :=
  known.foldl (fun offsets (index, offset) => offsets.setIfInBounds index.toNat offset) start

theorem size_putAll : (putAll known start).size = start.size := by
  induction known generalizing start with
  | nil => rfl
  | cons e known ih => exact ih.trans Array.size_setIfInBounds

theorem getElem?_putAll_of_notMem (h : i ∉ known.map Prod.fst) :
    (putAll known start)[i.toNat]? = start[i.toNat]? := by
  induction known generalizing start with
  | nil => rfl
  | cons e known ih =>
    rw [List.map_cons, List.mem_cons, not_or] at h
    have hne : e.1.toNat ≠ i.toNat := fun heq => h.1 (UInt32.toNat_inj.mp heq.symm)
    exact (ih h.2).trans (Array.getElem?_setIfInBounds_ne hne)

theorem getElem?_putAll_of_mem (hd : (known.map Prod.fst).Nodup) (h : (i, offset) ∈ known)
    (hi : i.toNat < start.size) : (putAll known start)[i.toNat]? = some offset := by
  induction known generalizing start with
  | nil => cases h
  | cons e known ih =>
    rw [List.map_cons, List.nodup_cons] at hd
    rcases List.mem_cons.mp h with rfl | h
    · exact (getElem?_putAll_of_notMem hd.1).trans (Array.getElem?_setIfInBounds_self_of_lt hi)
    · exact ih hd.2 h (by rwa [Array.size_setIfInBounds])

end

/-- Every method has the offset of its debug information in the table. -/
theorem Contents.debugOffsets_spec {c : Contents} {d : Data} {offsets : List UInt32}
    (hp : c.pools.Short) (h : c.debugOffsets d = .ok offsets)
    (hd : ((c.classes.flatMap ClassEntry.methods).map MethodEntry.id).Nodup) :
    offsets.length = c.pools.methods.size ∧
      ∀ m ∈ c.classes.flatMap ClassEntry.methods, ∀ i, c.resolver.method m.id = .ok i →
        ∃ offset, offsets[i.toNat]? = some offset ∧
          d.debugInfos.optionalOffset "debug info" m.debug = .ok offset := by
  have hsize : c.pools.methods.size ≤ UInt32.size := Nat.le_trans hp.methods (by decide)
  obtain ⟨known, hknown, h⟩ := bind_eq_ok.mp h
  have hoffsets : offsets = (putAll known (Array.replicate c.pools.methods.size 0)).toList :=
    (pure_eq_ok.mp h).symm
  have heach := mapM_eq_ok.mp hknown
  generalize hdescribed :
    (c.classes.flatMap ClassEntry.methods).filter (·.debug.isSome) = described at heach
  have hids : (described.map MethodEntry.id).Nodup :=
    hdescribed ▸ hd.sublist (List.filter_sublist.map _)
  have heach : List.Forall₂ (fun m e => c.resolver.method m.id = .ok e.1 ∧
      d.debugInfos.offset "debug info" m.debug = .ok e.2) described known := by
    refine heach.imp fun m e he => ?_
    obtain ⟨index, hindex, he⟩ := bind_eq_ok.mp he
    obtain ⟨offset, hoffset, he⟩ := bind_eq_ok.mp he
    obtain rfl := pure_eq_ok.mp he
    exact ⟨hindex, hoffset⟩
  have hnodup : (known.map Prod.fst).Nodup :=
    nodup_of_forall₂ (fun a b i ha hb => Pools.lookup_injective hsize ha hb)
      (heach.imp fun _ _ => And.left) hids
  have hlength : offsets.length = c.pools.methods.size := by
    rw [hoffsets, Array.length_toList, size_putAll, Array.size_replicate]
  refine ⟨hlength, fun m hm i hi => ?_⟩
  have hlt := Pools.toNat_lt_of_lookup hsize hi
  rw [hoffsets, Array.getElem?_toList]
  cases hdebug : m.debug with
  | none =>
    refine ⟨0, ?_, rfl⟩
    rw [getElem?_putAll_of_notMem]
    · simp [hlt]
    · intro hmem
      obtain ⟨e, he, rfl⟩ := List.mem_map.mp hmem
      obtain ⟨m', hm', hindex, -⟩ := exists_left_of_mem heach he
      rw [← hdescribed, List.mem_filter] at hm'
      have hsame : m' = m := List.inj_on_of_nodup_map hd hm'.1 hm
        (Pools.lookup_injective hsize hindex hi)
      rw [hsame, hdebug] at hm'
      cases hm'.2
  | some id =>
    have hmem : m ∈ described := by
      rw [← hdescribed, List.mem_filter, hdebug]
      exact ⟨hm, rfl⟩
    obtain ⟨e, he, hindex, hoffset⟩ := exists_left_of_mem heach.flip hmem
    have hfst : e.1 = i := Except.ok.inj (hindex.symm.trans hi)
    refine ⟨e.2, getElem?_putAll_of_mem hnodup (hfst ▸ he) (by simpa using hlt), ?_⟩
    rw [hdebug] at hoffset
    exact hoffset

/-- The resolver of a file gives small indices. -/
theorem Contents.small_of_holds {f : DexFile} {o : WriteOptions} {c : Contents} {d : Data}
    (h : f.Holds o c d) (hp : c.pools.Short) : c.resolver.Small where
  string {v i} hi := by
    have hlt := Pools.toNat_lt_of_lookup (DexFile.strings_le h) hi
    have hcount := h.stringCount
    have hsize : UInt32.size = 4294967296 := rfl
    omega
  type {v i} hi := by
    have hlt := Pools.toNat_lt_of_lookup (Nat.le_trans hp.types (by decide)) hi
    have hcount := hp.types
    have hmax : Pools.maxSize = 65536 := rfl
    omega

namespace DexFile

/-- The shared code that an offset leads to, which names its debug information by its offset. -/
theorem exists_encode_of_offset {f : DexFile} {o : WriteOptions} {c : Contents}
    {d : Contents.Data} (h : f.Holds o c d) {s : SharedCode} {what : String} {offset : UInt32}
    (ho : d.code.offset what (c.items.code.id? s) = .ok offset) :
    ∃ (debugOffset : UInt32) (position : Nat) (p : Placed),
      (¬ o.version.isCompact → d.debugInfos.optionalOffset "debug info" s.debug = .ok debugOffset) ∧
      CodeItem.encode o.version.isCompact (.ofTarget o.target) c.resolver position
        ⟨s.code.registers, s.incoming, s.outgoing, debugOffset, s.code.instructions, s.code.tries⟩ =
          .ok p ∧
      p.bytes.Stands f.data position ∧ 0 < position ∧ position + p.bytes.length ≤ f.data.size ∧
      offset ≠ 0 ∧ offset.toNat = p.offset := by
  obtain ⟨debugs, hdebugs, hcode⟩ := h.data.code
  cases hid : c.items.code.id? s with
  | none =>
    rw [hid] at ho
    cases ho
  | some id =>
    obtain ⟨p, position, hget, hplaced, hstands, hpos, hfit⟩ :=
      hcode id s (ItemSet.id?_eq_iff_getElem?.mp hid)
    obtain ⟨debugOffset, hdebugOffset, hplaced⟩ := bind_eq_ok.mp hplaced
    have hencode : CodeItem.encode o.version.isCompact (.ofTarget o.target) c.resolver position
        ⟨s.code.registers, s.incoming, s.outgoing, debugOffset, s.code.instructions, s.code.tries⟩ =
          .ok p := by
      dsimp only at hplaced
      split at hplaced
      · exact within_eq_ok_iff.mp hplaced
      · exact hplaced
    have hsmall := h.small
    have hle := CodeItem.offset_le_of_encode hencode
    rw [hid] at ho
    exact ⟨debugOffset, position, p, fun hcompact => hdebugs hcompact ▸ hdebugOffset, hencode, hstands,
      hpos, hfit, DataSection.offset_eq_ok hget (by omega) ho⟩

variable {f : DexFile} {o : WriteOptions} {c : Contents} {d : Contents.Data} {g : Gathered}
  (h : f.Holds o c d) (hp : c.pools.Short)
  (hm : ∀ m ∈ c.pools.methodHandles.toList, m.IsConsistent) (hn : c.Shallow)
  (hg : c.items = g.items)
include h hp hm hn hg

/-! ## Code and debug information -/

/-- The code of a method is found at its offset; in a standard file it says where the debug
information of the method is. -/
theorem exists_codeItem (hv : o.validate = .ok ()) {m : MethodDef} {debug code : Option Nat}
    {offset : UInt32} {what : String} (hw : ∀ x ∈ m.code, x.WellFormed)
    (hplace : g.Places ((m.sharedCode o debug).map .code) code)
    (ho : d.code.optionalOffset what code = .ok offset) :
    ∃ debugOffset, (m.code.isSome → ¬ o.version.isCompact →
        d.debugInfos.optionalOffset "debug info" debug = .ok debugOffset) ∧
      f.codeItem offset = .ok (m.code.map fun x => {
        registers := x.registers
        incoming := m.incoming.toUInt16
        outgoing := x.outgoing
        debugOffset
        instructions := x.instructions.map (Instruction.normal c.readSite)
        tries := sortedBy (compareOn TryBlock.start) x.tries }) := by
  have hfaithful := WriteOptions.faithful hv
  rcases hplace.offset_cases ho with ⟨hnone, -, rfl⟩ | ⟨part, hpart, hoffset⟩
  · have hcode : m.code = none := by
      rw [Option.map_eq_none_iff, MethodDef.sharedCode, Option.map_eq_none_iff] at hnone
      exact hnone
    refine ⟨0, ?_, ?_⟩
    · rw [hcode]
      intro hsome
      cases hsome
    · rw [hcode]
      rfl
  · obtain ⟨s, hs, rfl⟩ := Option.map_eq_some_iff.mp hpart
    obtain ⟨x, hx, rfl⟩ := Option.map_eq_some_iff.mp hs
    have hoffset : d.code.offset what (g.items.code.id? _) = .ok offset := hoffset
    rw [← hg] at hoffset
    obtain ⟨debugOffset, position, p, hdebugOffset, hencode, hstands, -, hfit, hne, hnat⟩ :=
      exists_encode_of_offset h hoffset
    have hsmall := h.small
    have hinstructions := (hw x hx).instructions
    have hread := CodeItem.decode_eq hfaithful (source_inverse h hp hm hn) hinstructions
      (CodeItem.counted_of_encode hinstructions hencode (by omega)) hencode hstands
    refine ⟨if o.version.isCompact then 0 else debugOffset, fun _ hcompact => ?_, ?_⟩
    · rw [if_neg hcompact]
      simpa only [if_neg hcompact] using hdebugOffset hcompact
    · rw [codeItem, if_neg hne]
      dsimp only
      rw [h.version, h.opcodes, hnat, hread, hx]
      rfl

/-- The debug information of a method is found where a standard file says so in the code, and a
compact file in the table. -/
theorem debugInfo_eq {m : MethodDef} {e : MethodEntry} {item : CodeItem} {index : UInt32}
    (hd : ((c.classes.flatMap ClassEntry.methods).map MethodEntry.id).Nodup)
    (he : e ∈ c.classes.flatMap ClassEntry.methods) (hindex : c.resolver.method e.id = .ok index)
    (hw : ∀ x ∈ m.code, x.WellFormed)
    (hplace : g.Places ((m.storedDebug o).map .debugInfo) e.debug)
    (hitem : ¬ o.version.isCompact →
      d.debugInfos.optionalOffset "debug info" e.debug = .ok item.debugOffset) :
    f.debugInfo index item = .ok ((m.storedDebug o).map DebugInfo.normal) := by
  have hread {offset : UInt32}
      (ho : d.debugInfos.optionalOffset "debug info" e.debug = .ok offset) :
      (if offset = 0 then pure none else do
        let d ← ((DebugInfo.decode f.source).valueAt f.data offset.toNat).within
          s!"debug info at {Text.hex offset.toNat}"
        return some d) = Except.ok ((m.storedDebug o).map DebugInfo.normal) := by
    rcases hplace.offset_cases ho with ⟨hnone, -, rfl⟩ | ⟨part, hpart, ho⟩
    · rw [Option.map_eq_none_iff.mp hnone]
      rfl
    · obtain ⟨x, hx, rfl⟩ := Option.map_eq_some_iff.mp hpart
      have ho : d.debugInfos.offset "debug info" (g.items.debugInfos.id? x) = .ok offset := ho
      rw [← hg] at ho
      obtain ⟨hne, part, hpart, hstands⟩ := h.data.debugInfos.of_offset_id h.small ho
      have hsmall := h.small
      have hinside := hstands.length_le
      have hcount := DebugInfo.length_parameters_le hpart
      have hread := DebugInfo.decode_reads (source_inverse h hp hm hn).onIds
        (Contents.small_of_holds h hp) (MethodDef.noZero_of_storedDebug hw hx) (by omega) hpart
      rw [if_neg hne, hread.valueAt hstands, hx]
      rfl
  unfold debugInfo
  rw [h.options]
  cases hoption : o.options.debugInfo with
  | false =>
    have hnone : m.storedDebug o = none := by
      unfold MethodDef.storedDebug
      simp [hoption]
    rw [hnone]
    rfl
  | true =>
    have hisSome := h.compact
    cases hcompact : f.header.compact with
    | none =>
      rw [hcompact] at hisSome
      exact hread (hitem (by rw [← hisSome]; decide))
    | some fields =>
      obtain ⟨offsets, hoffsets, hzero, hbase, hpos, hstands⟩ := h.debugTable fields hcompact
      obtain ⟨hlength, hspec⟩ := Contents.debugOffsets_spec hp hoffsets hd
      obtain ⟨offset, hget, hoffset⟩ := hspec e he index hindex
      have hsize : f.methods.size = offsets.length := by
        rw [h.methods.size, ItemSet.length_toList, hlength]
      have hlookup : (DebugTable.lookup fields.debugTable.toNat fields.debugIndex.toNat
          fields.debugBase f.methods.size index).valueAt f.data 0 = .ok offset := by
        rw [hzero, hbase, hsize]
        exact DebugTable.lookup_eq hpos hstands (hstands.length_lt h.small) hget
      dsimp only
      rw [hlookup]
      exact hread hoffset

/-! ## Methods -/

/-- A method that is called by its id and whose annotations have been read. -/
structure MethodGiven (g : Gathered) (r : Resolver) (o : WriteOptions) (a : Annotations)
    (x : MethodEntry) : Prop where
  name : x.id.name = x.definition.name
  proto : x.id.proto = x.definition.proto
  formed : ∀ c ∈ x.definition.code, c.WellFormed
  debug : g.Places ((x.definition.storedDebug o).map .debugInfo) x.debug
  code : g.Places ((x.definition.sharedCode o x.debug).map .code) x.code
  annotations : ∀ i, r.method x.id = .ok i →
    lastFor a.ofMethods i = AnnotationItem.normalSet x.definition.annotations
  parameters : ∀ i, r.method x.id = .ok i → ∀ (k : Nat) (p : Parameter),
    x.definition.parameters[k]? = some p →
    (lastFor a.ofParameters i).getD k [] = AnnotationItem.normalSet p.annotations

theorem methodDef_eq (hv : o.validate = .ok ())
    (hd : ((c.classes.flatMap ClassEntry.methods).map MethodEntry.id).Nodup) {a : Annotations}
    {x : MethodEntry} (hx : MethodGiven g c.resolver o a x)
    (hmem : x ∈ c.classes.flatMap ClassEntry.methods) {index offset : UInt32} {what : String}
    (hindex : c.resolver.method x.id = .ok index)
    (ho : d.code.optionalOffset what x.code = .ok offset) (access restriction : UInt32) :
    f.methodDef a index x.id access restriction offset =
      .ok { x.definition.readAs o c.readSite with access, restriction } := by
  obtain ⟨debugOffset, hdebugOffset, hitem⟩ := exists_codeItem h hp hm hn hg hv hx.formed hx.code ho
  -- what is read of the debug information tells the names and the events
  have hparameters : (x.id.proto.parameters.zipIdx.map fun e => ({
        type := e.1
        name := (((x.definition.storedDebug o).map DebugInfo.parameters).getD [])[e.2]?.join
        annotations := (lastFor a.ofParameters index).getD e.2 [] } : Parameter)) =
      x.definition.parameters.map
        (Parameter.normal (x.definition.code.isSome && o.options.debugInfo)) := by
    rw [hx.proto]
    refine List.ext_getElem? fun k => ?_
    simp only [MethodDef.proto, List.getElem?_map, List.getElem?_zipIdx]
    cases hk : x.definition.parameters[k]? with
    | none => rfl
    | some p =>
      simp only [Option.map_some, Nat.zero_add, MethodDef.names_eq hk,
        hx.parameters index hindex k p hk]
      rfl
  unfold methodDef
  rw [hitem, ok_bind]
  have hannotations := hx.annotations index hindex
  cases hcode : x.definition.code with
  | none =>
    have hstored : x.definition.storedDebug o = none := by
      rw [MethodDef.storedDebug, hcode]
      rfl
    rw [hstored, hcode] at hparameters
    simp only [MethodDef.readAs, hcode, ← hparameters, hx.name, hx.proto, hannotations]
    rfl
  | some code =>
    dsimp only [Option.map_some]
    have hsome : x.definition.code.isSome := by
      rw [hcode]
      rfl
    rw [debugInfo_eq h hp hm hn hg hd hmem hindex hx.formed hx.debug (hdebugOffset hsome), ok_bind]
    have hitems := MethodDef.items_eq (o := o) hcode
    rw [hcode] at hparameters
    simp only [Option.map_map, Function.comp_def, DebugInfo.normal, CodeItem.toCode, hitems,
      MethodDef.readAs, hcode, ← hparameters, hx.name, hx.proto, hannotations]
    rfl

theorem decodeMethods_reads (hv : o.validate = .ok ())
    (hd : ((c.classes.flatMap ClassEntry.methods).map MethodEntry.id).Nodup) {a : Annotations}
    (previous : Option UInt32) {methods : List MethodEntry} {part : Bytes}
    (hgiven : ∀ x ∈ methods, MethodGiven g c.resolver o a x)
    (hmem : ∀ x ∈ methods, x ∈ c.classes.flatMap ClassEntry.methods)
    (hascending : Ascending c.resolver.method previous (methods.map MethodEntry.id))
    (hpart : Contents.encodeMethods c.resolver o d.code (previous.getD 0) methods = .ok part) :
    f.MemberReads o (f.decodeMethods a methods.length previous)
      (methods.map (·.definition.restriction)) part
      (methods.map (·.definition.readAs o c.readSite)) := by
  induction methods generalizing previous part with
  | nil =>
    cases hpart
    exact .pure []
  | cons x methods ih =>
    obtain ⟨index, stored, offset, rest, hindex, hstored, hoffset, hrest, rfl⟩ :=
      Contents.exists_of_encodeMethods hpart
    obtain ⟨hx, hgiven⟩ := List.forall_mem_cons.mp hgiven
    obtain ⟨hin, hmem⟩ := List.forall_mem_cons.mp hmem
    obtain ⟨hbehind, hascending⟩ := hascending index hindex
    apply MemberReads.lift (nextIndex_reads hbehind)
    apply MemberReads.lift_ok (method_of_lookup h hp hindex)
    apply MemberReads.lift (Decoder.uleb_reads stored)
    apply (memberFlags_reads h hstored).bind
    apply MemberReads.lift (Decoder.uleb_reads offset)
    apply MemberReads.lift_ok (within_eq_ok_iff.mpr
      (methodDef_eq h hp hm hn hg hv hd hx hin hindex hoffset _ _))
    exact (ih (some index) hgiven hmem hascending hrest).map

end DexFile

end Dalvik
