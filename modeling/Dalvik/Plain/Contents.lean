import Dalvik.Contents
import Dalvik.Plain.Classes

/-!
# Plain forms of the contents of a file

Members are shown by the text of their ids, shared items in the order of their ids.
-/
namespace Dalvik
open Plain

instance : ToPlain AnnotationDirectory where
  plain d :=
    let member {ι α : Type} [ToString ι] (entry : ι × α) : String × α :=
      (toString entry.1, entry.2)
    record [("owner", plain d.owner), ("class", plain d.ofClass),
      ("fields", plain (d.ofFields.map member)), ("methods", plain (d.ofMethods.map member)),
      ("params", plain (d.ofParameters.map member))]

instance : ToPlain SharedCode :=
  ⟨fun c => list [plain c.incoming, plain c.outgoing, plain c.debug, plain c.code.units]⟩

instance : ToPlain FieldEntry := ⟨fun f => text (toString f.id)⟩

instance : ToPlain MethodEntry :=
  ⟨fun m => list [text (toString m.id), plain m.code, plain m.debug]⟩

instance : ToPlain ClassEntry :=
  ⟨fun c => record [("class", text (toString c.definition)), ("interfaces", plain c.interfaces),
    ("static_values", plain c.staticValues), ("annotations", plain c.annotations),
    ("has_data", plain c.hasData), ("static_fields", plain c.staticFields),
    ("instance_fields", plain c.instanceFields), ("direct_methods", plain c.directMethods),
    ("virtual_methods", plain c.virtualMethods)]⟩

instance : ToPlain Contents :=
  ⟨fun c => record [("pools", plain c.pools), ("classes", plain c.classes),
    ("type_lists", plain c.items.typeLists.toList),
    ("encoded_arrays", plain c.items.encodedArrays.toList),
    ("annotations", plain c.items.annotations.toList),
    ("annotation_sets", plain c.items.annotationSets.toList),
    ("annotation_set_lists", plain c.items.annotationSetLists.toList),
    ("directories", plain c.items.directories.toList),
    ("code_items", plain c.items.code.toList),
    ("debug_infos", plain c.items.debugInfos.toList)]⟩

end Dalvik
