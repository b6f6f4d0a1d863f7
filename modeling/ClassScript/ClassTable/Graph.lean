import ClassScript.ClassTable
import ClassScript.Data

/-!
# The class graph as data

One map for each class in index order. Bases are given by index, so the graph says as much about
members as the table does.
-/

namespace ClassScript

def Member.toData : Member → Data
  | .field name access initializer _ =>
    .map [("name", .text name), ("access", .text access.word),
      ("initialized", .boolean initializer.isSome)]
  | .method name access params _ isVirtual isOverride _ =>
    .map [("name", .text name), ("access", .text access.word),
      ("params", .list (params.map .text)), ("virtual", .boolean isVirtual),
      ("override", .boolean isOverride)]

def ClassDef.toData (c : ClassDef) (index : Nat) : Data :=
  .map [("index", .int index), ("name", .text c.name),
    ("base", match c.base with
      | none => .null
      | some base => .int base),
    ("interfaces", .list (c.interfaces.map .text)),
    ("fields", .list (c.fields.map Member.toData)),
    ("methods", .list (c.methods.map Member.toData))]

def ClassTable.graph (t : ClassTable) : Data :=
  .list (t.classes.toList.zipIdx.map fun (c, index) => c.toData index)

end ClassScript
