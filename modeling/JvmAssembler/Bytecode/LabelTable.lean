import JvmAssembler.Diagnostic
import Std.Data.HashMap

/-!
# Label tables

The labels of the code of one method. A label is made by its name, or fresh without one; a fresh
label is never the same as a named one, even if the names agree. A label is placed at most once, in
front of an instruction.
-/

namespace JvmAssembler

/-- What is known of a label. -/
structure LabelInfo where
  name : String
  /-- The instruction in front of which the label is placed. -/
  placement : Option Nat := none
  deriving DecidableEq, Repr

/-- The labels of the code of one method. -/
structure LabelTable where
  /-- The labels, in the order of their numbers. -/
  infos : Array LabelInfo := #[]
  /-- The labels that were made by name. -/
  byName : Std.HashMap String Label := ∅

namespace LabelTable

/-- The number of labels. -/
def size (table : LabelTable) : Nat := table.infos.size

/-- The label with the given name, which is made if there is none. -/
def named (table : LabelTable) (name : String) : Label × LabelTable :=
  match table.byName[name]? with
  | some label => (label, table)
  | none =>
    let label : Label := ⟨table.infos.size⟩
    (label, { infos := table.infos.push { name }, byName := table.byName.insert name label })

/-- A new label, named after its number. -/
def fresh (table : LabelTable) : Label × LabelTable :=
  let label : Label := ⟨table.infos.size⟩
  (label, { table with infos := table.infos.push { name := label.text } })

/-- The name of a label, which is empty for a label that is not of this table. -/
def name (table : LabelTable) (label : Label) : String :=
  match table.infos[label.id]? with
  | some info => info.name
  | none => ""

/-- Places a label in front of an instruction. -/
def place (label : Label) (instruction : Nat) : EStateM AssemblyError LabelTable Unit := fun ⟨infos, byName⟩ =>
  match infos[label.id]? with
  | none => .error (.labelOutsideCode label) ⟨infos, byName⟩
  | some { placement := some _, name } => .error (.duplicateLabel name) ⟨infos, byName⟩
  | some { placement := none, .. } =>
    .ok () ⟨infos.modify label.id fun info => { info with placement := some instruction }, byName⟩

/-- The instruction in front of which a label is placed. -/
def placement (table : LabelTable) (label : Label) : Except AssemblyError Nat :=
  match table.infos[label.id]? with
  | none => .error (.labelOutsideCode label)
  | some { placement := some instruction, .. } => .ok instruction
  | some { placement := none, name } => .error (.undefinedLabel name)

end LabelTable

end JvmAssembler
