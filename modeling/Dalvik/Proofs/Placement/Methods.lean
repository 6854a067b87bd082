import Dalvik.Proofs.Placement.Data

/-!
# Methods of two files with the same contents

The code of a method is the same in both files but for the offset of its debug information, which
leads to the same debug information.
-/
namespace Dalvik
open Result

namespace CodeItem

variable {table : OpcodeTable} {r : Resolver} {s t : Source} {i x : CodeItem} {debugOffset : UInt32}
  {position position' : Nat} {placed placed' : Placed} {bytes bytes' : ByteArray}

/-- An item that is written once more at another place, with another place of its debug
information, is read like the first one. -/
theorem decode_eq_ok (hext : t.Extends s) (hrs : r.InverseOnIds s) (hrt : r.InverseOnIds t)
    (h : i.encode false table r position = .ok placed)
    (h' : { i with debugOffset }.encode false table r position' = .ok placed')
    (hl : placed.bytes.length < UInt32.size) (hs : placed.bytes.Stands bytes position)
    (hs' : placed'.bytes.Stands bytes' position')
    (hx : (decode false table s).valueAt bytes placed.offset = .ok x) :
    x.debugOffset = i.debugOffset ∧ (decode false table t).valueAt bytes' placed'.offset =
      .ok { x with debugOffset } := by
  have hc : ∀ t ∈ i.tries, t.handler.Counted := counted_tries_of_encode h hl
  obtain ⟨e, code, place, hlies⟩ := exists_lies hc h hs
  obtain ⟨e', code', place', hlies'⟩ := exists_lies (i := { i with debugOffset }) hc h' hs'
  obtain rfl := Instruction.eq_of_encodeAll hlies.encoded hlies'.encoded
  obtain ⟨stop, hblocks⟩ := hlies.blocks s hrs
  obtain ⟨stop', hblocks'⟩ := hlies'.blocks t hrt
  obtain ⟨after, hx⟩ := Decoder.valueAt_eq_ok.mp hx
  rw [decode_bind, Decoder.bind_of_ok hlies.header, hlies.units, hlies.tries] at hx
  obtain ⟨instructions, between, hinstructions, hx⟩ := Decoder.bind_eq_ok.mp hx
  obtain ⟨hbetween, hinstructions'⟩ := Instruction.decodeAll_alike hext hlies.stands hlies'.stands
    hlies.length (hlies.even.trans hlies'.even.symm) hlies'.inside hinstructions
  rw [hbetween, Decoder.bind_of_ok hblocks] at hx
  cases hx
  refine ⟨hlies.debugOffset, Decoder.valueAt_eq_ok.mpr ⟨stop', ?_⟩⟩
  rw [decode_bind, Decoder.bind_of_ok hlies'.header, hlies'.units, hlies'.tries,
    Decoder.bind_of_ok hinstructions', Decoder.bind_of_ok hblocks', hlies.registers, hlies.incoming,
    hlies.outgoing, hlies'.registers, hlies'.incoming, hlies'.outgoing, hlies'.debugOffset]
  rfl

end CodeItem

namespace DexFile

section
variable {f f' : DexFile} {o : WriteOptions} {c : Contents} {d d' : Contents.Data} {g : Gathered}
  (h : f.Holds o c d) (h' : f'.Holds o c d') (hp : c.pools.Short) (hn : c.Shallow)
  (hg : c.items = g.items) (ho : o.version.isCompact = false)
include h hp

omit hn hg ho in
theorem source_onIds : c.resolver.InverseOnIds f.source where
  string := string_of_lookup h
  type := type_of_lookup h hp
  proto := proto_of_lookup h hp
  field := field_of_lookup h hp
  method := method_of_lookup h hp

include h' hn hg ho

theorem codeItem_eq_ok {m : MethodDef} {debug code : Option Nat} {offset offset' : UInt32}
    {what : String} (hplace : g.Places ((m.sharedCode o debug).map .code) code)
    (hoffset : d.code.optionalOffset what code = .ok offset)
    (hoffset' : d'.code.optionalOffset what code = .ok offset') {x : Option CodeItem}
    (hx : f.codeItem offset = .ok x) :
    (x = none ∧ f'.codeItem offset' = .ok none) ∨ ∃ (i : CodeItem) (debugOffset : UInt32),
      x = some i ∧ d.debugInfos.optionalOffset "debug info" debug = .ok i.debugOffset ∧
      d'.debugInfos.optionalOffset "debug info" debug = .ok debugOffset ∧
      f'.codeItem offset' = .ok (some { i with debugOffset }) := by
  rcases hplace.offsets_cases hoffset hoffset' with ⟨-, rfl, rfl⟩ | ⟨p, hpart, hoffset, hoffset'⟩
  · rw [codeItem, if_pos rfl] at hx
    exact .inl ⟨(pure_eq_ok.mp hx).symm, by rw [codeItem, if_pos rfl]; rfl⟩
  · obtain ⟨s, hs, rfl⟩ := Option.map_eq_some_iff.mp hpart
    obtain ⟨y, -, rfl⟩ := Option.map_eq_some_iff.mp hs
    have hoffset : d.code.offset what (g.items.code.id? _) = .ok offset := hoffset
    have hoffset' : d'.code.offset what (g.items.code.id? _) = .ok offset' := hoffset'
    rw [← hg] at hoffset hoffset'
    obtain ⟨debugOffset, position, p, hdebug, hencode, hstands, -, hfit, hne, hnat⟩ :=
      exists_encode_of_offset h hoffset
    obtain ⟨debugOffset', position', p', hdebug', hencode', hstands', -, hfit', hne', hnat'⟩ :=
      exists_encode_of_offset h' hoffset'
    have hsmall := h.small
    rw [codeItem, if_neg hne] at hx
    dsimp only at hx
    obtain ⟨i, hi, hx⟩ := bind_eq_ok.mp hx
    obtain rfl := pure_eq_ok.mp hx
    rw [h.version, h.opcodes, hnat, ho] at hi
    rw [ho] at hencode hencode'
    obtain ⟨hfirst, hsecond⟩ := CodeItem.decode_eq_ok (source_extends h h' hp hn) (source_onIds h hp)
      (source_onIds h' hp) hencode hencode' (by omega) hstands hstands' (within_eq_ok_iff.mp hi)
    have hdebug := hdebug (by simp [ho])
    have hdebug' := hdebug' (by simp [ho])
    rw [ho] at hdebug hdebug'
    refine .inr ⟨i, debugOffset', rfl, ?_, hdebug', ?_⟩
    · rw [hfirst]
      exact hdebug
    · rw [codeItem, if_neg hne']
      dsimp only
      rw [h'.version, h'.opcodes, hnat', ho, hsecond]
      rfl

omit hn in
/-- The debug information of a method is the same in both files. -/
theorem debugInfo_eq_ok {m : MethodDef} {e : MethodEntry} {item item' : CodeItem} {index : UInt32}
    (hplace : g.Places ((m.storedDebug o).map .debugInfo) e.debug)
    (hitem : d.debugInfos.optionalOffset "debug info" e.debug = .ok item.debugOffset)
    (hitem' : d'.debugInfos.optionalOffset "debug info" e.debug = .ok item'.debugOffset)
    {x : Option DebugInfo} (hx : f.debugInfo index item = .ok x) :
    f'.debugInfo index item' = .ok x := by
  have hcompact := h.compact
  have hcompact' := h'.compact
  rw [ho, Option.isSome_eq_false_iff, Option.isNone_iff_eq_none] at hcompact hcompact'
  unfold debugInfo at hx ⊢
  rw [h.options, hcompact] at hx
  rw [h'.options, hcompact']
  cases hoption : o.options.debugInfo with
  | false =>
    rw [hoption, if_pos (by decide)] at hx
    rw [if_pos (by decide)]
    exact hx
  | true =>
    rw [hoption, if_neg (by decide)] at hx
    rw [if_neg (by decide)]
    dsimp only at hx ⊢
    rw [pure_bind] at hx ⊢
    rcases hplace.offsets_cases hitem hitem' with ⟨-, hzero, hzero'⟩ | ⟨p, hpart, hitem, hitem'⟩
    · rw [if_pos hzero] at hx
      rw [if_pos hzero']
      exact hx
    · obtain ⟨y, -, rfl⟩ := Option.map_eq_some_iff.mp hpart
      have hitem : d.debugInfos.offset "debug info" (g.items.debugInfos.id? y) =
        .ok item.debugOffset := hitem
      have hitem' : d'.debugInfos.offset "debug info" (g.items.debugInfos.id? y) =
        .ok item'.debugOffset := hitem'
      rw [← hg] at hitem hitem'
      obtain ⟨hne, part, hpart, hstands⟩ := h.data.debugInfos.of_offset_id h.small hitem
      obtain ⟨hne', part', hpart', hstands'⟩ := h'.data.debugInfos.of_offset_id h'.small hitem'
      obtain rfl := Except.ok.inj (hpart.symm.trans hpart')
      have hsmall := h.small
      have hinside := hstands.length_le
      have hcount := DebugInfo.length_parameters_le hpart
      obtain ⟨program, lineStart, hprogram, hread⟩ := DebugInfo.decode_reads_shown
        (source_onIds h hp) (Contents.small_of_holds h hp) (by omega) hpart
      obtain ⟨program', lineStart', hprogram', hread'⟩ := DebugInfo.decode_reads_shown
        (source_onIds h' hp) (Contents.small_of_holds h hp) (by omega) hpart
      obtain ⟨rfl, rfl⟩ := Prod.mk.inj (Except.ok.inj (hprogram.symm.trans hprogram'))
      rw [if_neg hne, hread.valueAt hstands] at hx
      rw [if_neg hne', hread'.valueAt hstands']
      exact hx

/-! ## Methods -/

theorem methodDef_eq_ok {a : Annotations} {x : MethodEntry} {index offset offset' : UInt32}
    {what : String} (hdebug : g.Places ((x.definition.storedDebug o).map .debugInfo) x.debug)
    (hcode : g.Places ((x.definition.sharedCode o x.debug).map .code) x.code)
    (hoffset : d.code.optionalOffset what x.code = .ok offset)
    (hoffset' : d'.code.optionalOffset what x.code = .ok offset') {access restriction : UInt32}
    {m : MethodDef} (hm : f.methodDef a index x.id access restriction offset = .ok m) :
    f'.methodDef a index x.id access restriction offset' = .ok m := by
  obtain ⟨item, hitem, hm⟩ := bind_eq_ok.mp hm
  rcases codeItem_eq_ok h h' hp hn hg ho hcode hoffset hoffset' hitem with
    ⟨rfl, hitem'⟩ | ⟨i, debugOffset, rfl, hplace, hplace', hitem'⟩
  · exact bind_eq_ok.mpr ⟨none, hitem', hm⟩
  · obtain ⟨debug, hinfo, hm⟩ := bind_eq_ok.mp hm
    have hinfo' : f'.debugInfo index { i with debugOffset } = .ok debug :=
      debugInfo_eq_ok h h' hp hg ho hdebug hplace hplace' hinfo
    exact bind_eq_ok.mpr ⟨_, hitem', bind_eq_ok.mpr ⟨debug, hinfo', hm⟩⟩

end

end DexFile

end Dalvik
