import Dalvik.Plain.Instructions
import Dalvik.AnnotationItem
import Dalvik.Instruction.Decode
import Dalvik.Instruction.Encode
import Dalvik.Instruction
import Dalvik.Opcode
import Dalvik.Options
import Dalvik.Value.Codec
import Dalvik.CallSite
import Dalvik.ItemSet
import Dalvik.Leb128
import Dalvik.Packed
import Dalvik.Text.ModifiedUtf8
import Dalvik.Code
import Dalvik.Debug.Decode
import Dalvik.Code.Handlers
import Dalvik.Code.Header
import Dalvik.Code.Item
import Dalvik.AccessFlags
import Dalvik.Digest.Adler32
import Dalvik.Digest.Sha1
import Dalvik.Header
import Dalvik.HiddenApi
import Dalvik.MapList
import Dalvik.Class
import Dalvik.Plain.Classes
import Dalvik.Contents
import Dalvik.Contents.Gather
import Dalvik.Plain.Contents
import Dalvik.Contents.Data
import Dalvik.Debug.OffsetTable
import Dalvik.Contents.Ids
import Dalvik.File.Encode
import Dalvik.File
import Dalvik.File.Classes
import Dalvik.File.Decode
import Dalvik.Proofs.Value.Write
import Dalvik.Proofs.Opcode
import Dalvik.Proofs.Instruction.RoundTrip
import Dalvik.Proofs.Resolved.File
import Dalvik.Proofs.Code.Header
import Dalvik.Proofs.Code.RoundTrip
import Dalvik.Proofs.Debug.RoundTrip
import Dalvik.Proofs.Text.PlainUtf8
import Dalvik.Proofs.Leb128.Shortest
import Dalvik.Proofs.Leb128.Overlong
import Dalvik.Proofs.Debug.OffsetTable
import Dalvik.Proofs.File.Data
import Dalvik.Proofs.File.Ids
import Dalvik.Proofs.File.Map
import Dalvik.Proofs.File.Open
import Dalvik.Proofs.File.Container
import Dalvik.Proofs.File.Sealed
import Dalvik.Proofs.HiddenApi
import Dalvik.Proofs.Debug.LineStart
import Dalvik.Proofs.File.Entries
import Dalvik.Proofs.File.Annotations
import Dalvik.Proofs.File.Classes
import Dalvik.Proofs.File.RoundTrip
import Dalvik.Proofs.File.Rewriting
import Dalvik.Proofs.File.Layout
import Dalvik.Proofs.File.Order
import Dalvik.Proofs.File.Shared
import Dalvik.Proofs.File.Uses
import Dalvik.Proofs.File.Sharing
import Dalvik.Proofs.File.Reordered
import Dalvik.Proofs.Faultless.File
import Dalvik.Proofs.Placement.Container
import Dalvik.Proofs.Instruction.FirstUnit
import Dalvik.Proofs.File.StaticFields
import Dalvik.Proofs.File.Ascending
import Dalvik.Proofs.Recall.Classes
import Dalvik.Proofs.Code.Alignment
import Dalvik.Proofs.Pools.Ranked
import Dalvik.Proofs.Packed.Shortest
import Dalvik.Proofs.Gather.Limit
import Dalvik.Proofs.Instruction.Rewritten
import Dalvik.Proofs.Instruction.Taken
import Dalvik.Proofs.Code.Counted
import Dalvik.Proofs.Code.Measured
import Dalvik.Proofs.HiddenApi.Section
import Dalvik.Proofs.Debug.Absent
import Dalvik.Proofs.Value.Narrowed
import Dalvik.Proofs.Value.NamesKept
import Dalvik.Proofs.File.MemberDeltas
import Dalvik.Proofs.Debug.Widths
import Dalvik.Proofs.Code.Counts
import Dalvik.Proofs.Code.Overlap
