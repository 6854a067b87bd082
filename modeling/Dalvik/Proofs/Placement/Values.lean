import Dalvik.AnnotationItem
import Dalvik.Proofs.Placement.Decoders
import Dalvik.Proofs.Value.RoundTrip

/-!
# Values read the same wherever they lie

The source may make anything of the index of a method handle, or nothing. How many bytes a value takes
does not depend on that, so it is known from a source that leads every handle back to itself.
-/
namespace Dalvik
open Decoder

/-- The second source gives what the first one gives; in place of a method handle it may give another
one. -/
structure Source.Covers (s t : Source) : Prop where
  string : s.string = t.string
  type : s.type = t.type
  proto : s.proto = t.proto
  field : s.field = t.field
  method : s.method = t.method
  methodHandle : ∀ i x, s.methodHandle i = .ok x → ∃ y, t.methodHandle i = .ok y

/-! ## How far a value reaches -/

theorem tracks_payload (width : UInt8) : Tracks (Packed.payload width) (Packed.payload width) := by
  unfold Packed.payload
  split
  · exact .of_fails nofun
  · exact Tracks.u1.repeated _

theorem tracks_readIndex (width : UInt8) : Tracks (readIndex width) (readIndex width) := by
  refine (tracks_payload width).map.bind fun n => ?_
  split
  · exact .pure _ _
  · exact .of_fails nofun

section
variable {α β : Type} {d : Decoder α} {e : Decoder β} {fetch : UInt32 → Result α}
  {fetch' : UInt32 → Result β}

theorem tracks_counted (h : Tracks d e) : Tracks (counted d) (counted e) :=
  Tracks.uleb.bind fun count => h.repeated count.toNat

/-- An entry of a pool by its index. -/
theorem tracks_entry (value : α → Value) (value' : β → Value)
    (h : ∀ i a, fetch i = .ok a → ∃ b, fetch' i = .ok b) (width : UInt8) :
    Tracks (do return value (← fetch (← readIndex width)))
      (do return value' (← fetch' (← readIndex width))) :=
  (tracks_readIndex width).bind fun index => (Tracks.lift (h index)).map

end

variable {s t : Source}

section
variable (h : s.Covers t)
include h

theorem tracks_annotationBody {value value' : Decoder Value} (hv : Tracks value value') :
    Tracks (annotationBody s value) (annotationBody t value') := by
  have element : Tracks (elementBody s value) (elementBody t value') := by
    unfold elementBody
    rw [h.string]
    exact Tracks.uleb.bind fun index => (Tracks.lift_self _).bind fun name => hv.map
  unfold annotationBody
  rw [h.type]
  exact Tracks.uleb.bind fun index => (Tracks.lift_self _).bind fun type => (tracks_counted element).map

theorem Value.tracks_decodeNested (room : Nat) :
    Tracks (Value.decodeNested s room) (Value.decodeNested t room) := by
  induction room with
  | zero => exact .of_fails nofun
  | succ room ih =>
    unfold Value.decodeNested
    refine Tracks.u1.bind fun first => ?_
    dsimp only
    rw [h.proto, h.string, h.type, h.field, h.method]
    split
    · exact (tracks_payload _).map.map
    · exact (tracks_payload _).map.map
    · exact (tracks_payload _).map.map
    · exact (tracks_payload _).map.map
    · exact (tracks_payload _).map.map
    · exact (tracks_payload _).map.map.map
    · exact (tracks_payload _).map.map
    · exact tracks_entry _ _ (fun _ x hx => ⟨x, hx⟩) _
    · exact tracks_entry _ _ h.methodHandle _
    · exact tracks_entry _ _ (fun _ x hx => ⟨x, hx⟩) _
    · exact tracks_entry _ _ (fun _ x hx => ⟨x, hx⟩) _
    · exact tracks_entry _ _ (fun _ x hx => ⟨x, hx⟩) _
    · exact tracks_entry _ _ (fun _ x hx => ⟨x, hx⟩) _
    · exact tracks_entry _ _ (fun _ x hx => ⟨x, hx⟩) _
    · exact (tracks_counted ih).map
    · exact (tracks_annotationBody h ih).map
    · exact .pure _ _
    · exact .pure _ _
    · exact .of_fails nofun

/-! ## Lists of values and annotations -/

omit h in
/-- No value refers to a call site. -/
theorem Value.decodeNested_callSite (s : Source) (site : UInt32 → Result CallSite) (room : Nat) :
    Value.decodeNested { s with callSite := site } room = Value.decodeNested s room := by
  induction room with
  | zero => rfl
  | succ room ih =>
    unfold Value.decodeNested
    rw [ih]
    rfl

omit h in
theorem AnnotationItem.decode_callSite (s : Source) (site : UInt32 → Result CallSite) :
    AnnotationItem.decode { s with callSite := site } = AnnotationItem.decode s := by
  unfold AnnotationItem.decode AnnotationValue.decode Value.decode
  rw [Value.decodeNested_callSite]
  rfl

theorem decodeArray_follows {r : Resolver} (hrs : r.InverseOnValues t) {vs : List Value} {out : Bytes}
    (hd : ∀ v ∈ vs, v.depth ≤ maxNesting) (he : encodeArray r vs = .ok out)
    (hl : out.length < UInt32.size) : Follows Eq (decodeArray s) (decodeArray s) out out :=
  (tracks_counted (Value.tracks_decodeNested h _)).follows
    (decodeArray_reads_of_length hrs hd he hl)

theorem AnnotationItem.tracks_decode : Tracks (AnnotationItem.decode s) (AnnotationItem.decode t) :=
  Tracks.u1.bind fun _ => (Tracks.lift_self _).bind fun _ =>
    (tracks_annotationBody h (Value.tracks_decodeNested h _)).map

end

end Dalvik
