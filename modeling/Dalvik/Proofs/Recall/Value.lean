import Dalvik.Recall.Value
import Dalvik.Proofs.Recall

/-!
# Values are read the same with a memory

By induction on the nesting that is still allowed: every kind of value reads the same bytes with and
without a memory, and what it refers to is the same by what is known of the two sources.
-/
namespace Dalvik.RecallSource.Agrees
variable {answer : Answers} {t : RecallSource} {s : Source}

theorem counted {α : Type} {x : RecallDecoder α} {d : Decoder α} (h : x.Agrees answer d) :
    (RecallSource.counted x).Agrees answer (Dalvik.counted d) :=
  .decoder_bind fun n => h.repeated n.toNat

variable {x : RecallDecoder Value} {d : Decoder Value}

theorem elementBody (h : Agrees answer t s) (hx : x.Agrees answer d) :
    (t.elementBody x).Agrees answer (Dalvik.elementBody s d) :=
  .decoder_bind fun index => .lifted_bind (h.string index) fun _ => hx.bind fun _ => .pure _

theorem annotationBody (h : Agrees answer t s) (hx : x.Agrees answer d) :
    (t.annotationBody x).Agrees answer (Dalvik.annotationBody s d) :=
  .decoder_bind fun index => .lifted_bind (h.type index) fun _ =>
    (counted (h.elementBody hx)).bind fun _ => .pure _

theorem decodeNested (h : Agrees answer t s) (room : Nat) :
    (t.decodeNested room).Agrees answer (Value.decodeNested s room) := by
  induction room with
  | zero => exact .decoder_bind fun _ => .decoder _
  | succ room ih =>
    unfold RecallSource.decodeNested Value.decodeNested
    refine .decoder_bind fun first => ?_
    dsimp only
    generalize (first &&& 0x1f).toNat = kind
    split
    · exact .decoder_bind fun _ => .pure _
    · exact .decoder_bind fun _ => .pure _
    · exact .decoder_bind fun _ => .pure _
    · exact .decoder_bind fun _ => .pure _
    · exact .decoder_bind fun _ => .pure _
    · exact .decoder_bind fun _ => .pure _
    · exact .decoder_bind fun _ => .pure _
    · exact .decoder_bind fun index => .lifted_bind (h.proto index) fun _ => .pure _
    · exact .decoder_bind fun index => .lifted_bind (h.methodHandle index) fun _ => .pure _
    · exact .decoder_bind fun index => .lifted_bind (h.string index) fun _ => .pure _
    · exact .decoder_bind fun index => .lifted_bind (h.type index) fun _ => .pure _
    · exact .decoder_bind fun index => .lifted_bind (h.field index) fun _ => .pure _
    · exact .decoder_bind fun index => .lifted_bind (h.method index) fun _ => .pure _
    · exact .decoder_bind fun index => .lifted_bind (h.field index) fun _ => .pure _
    · exact (counted ih).bind fun _ => .pure _
    · exact (h.annotationBody ih).bind fun _ => .pure _
    · exact .pure _
    · exact .pure _
    -- none of the kinds above, whichever of the two is looked at
    · simpa only using RecallDecoder.Agrees.decoder_bind fun _ => .decoder _

theorem decodeArray (h : Agrees answer t s) :
    t.decodeArray.Agrees answer (Dalvik.decodeArray s) :=
  counted (h.decodeNested _)

theorem decodeAnnotationItem (h : Agrees answer t s) :
    t.decodeAnnotationItem.Agrees answer (AnnotationItem.decode s) :=
  .decoder_bind fun _ => .decoder_bind fun _ =>
    (h.annotationBody (h.decodeNested _)).bind fun _ => .pure _

end Dalvik.RecallSource.Agrees
