import JvmAssembler.Diagnostic

/-!
# Layouts of code

Where the instructions and the labels of a method stand, as distances in bytes from the start of the
code.
-/

namespace JvmAssembler

/-- Where a label stands. -/
structure LabelPlace where
  name : String
  /-- The program counter of the label, if it is placed. -/
  pc : Option Nat
  deriving DecidableEq, Repr

/-- The program counters of the code of a method. -/
structure Layout where
  /-- The program counter of each instruction. -/
  starts : Array Nat
  /-- Where each label stands. -/
  labels : Array LabelPlace
  /-- The length of the code. -/
  length : Nat
  deriving DecidableEq, Repr

/-- The program counter of a label. -/
def Layout.pcOf (layout : Layout) (label : Label) : Except AssemblyError Nat :=
  match layout.labels[label.id]? with
  | some { pc := some pc, .. } => .ok pc
  | some { pc := none, name } => .error (.undefinedLabel name)
  | none => .error (.labelOutsideCode label)

end JvmAssembler
