import JvmAssembler.Bytecode.Instruction
import JvmAssembler.Bytecode.LabelTable

/-!
# Code

The instructions of a method, with the labels placed between them. Laying out the code fixes the
program counter of every instruction and of every label; the layout is kept until the code changes.
-/

namespace JvmAssembler

/-- The code of a method. -/
structure Body where
  instructions : Array Instruction := #[]
  labels : LabelTable := {}
  /-- The layout of the code, if it was laid out since it last changed. -/
  layout : Option Layout := none

namespace Body

/-- The longest code that a method may have. -/
def maxLength : Nat := 65535

/-- The code with one more instruction. -/
def push (body : Body) (instruction : Instruction) : Body :=
  { body with instructions := body.instructions.push instruction, layout := none }

/-- The label with the given name, which is made if there is none. -/
def label (body : Body) (name : String) : Label × Body :=
  let (label, labels) := body.labels.named name
  (label, { body with labels })

/-- A new label. -/
def freshLabel (body : Body) : Label × Body :=
  let (label, labels) := body.labels.fresh
  (label, { body with labels })

/-- Places a label in front of the next instruction. The layout is dropped, even if this fails. -/
def place (label : Label) : EStateM AssemblyError Body Unit := fun ⟨instructions, labels, _⟩ =>
  match LabelTable.place label instructions.size labels with
  | .ok _ labels => .ok () ⟨instructions, labels, none⟩
  | .error e labels => .error e ⟨instructions, labels, none⟩

/-- The program counters of instructions that start at `pc`, after those of `starts`, and the
program counter behind the last one. -/
def starts (method : String) : (starts : Array Nat) → (pc : Nat) → List Instruction →
    Except AssemblyError (Array Nat × Nat)
  | starts, pc, [] => .ok (starts, pc)
  | starts, pc, instruction :: rest =>
    match instruction.length pc with
    | .error e => .error (e.inMethod method)
    | .ok length =>
      let next := min (pc + length) lengthLimit
      if maxLength < next then .error (.codeOverflow next) else Body.starts method (starts.push pc) next rest

/-- Where the labels of a table stand, given where the instructions start and where the code ends. -/
def labelPlaces (labels : LabelTable) (starts : Array Nat) (length : Nat) : Array LabelPlace :=
  labels.infos.map fun info =>
    { name := info.name, pc := info.placement.map fun instruction => starts[instruction]?.getD length }

/-- The layout of the code. Every label that an instruction jumps to must be placed. -/
def computeLayout (body : Body) (method : String) : Except AssemblyError Layout := do
  let (starts, length) ← Body.starts method #[] 0 body.instructions.toList
  let layout : Layout := { starts, labels := labelPlaces body.labels starts length, length }
  body.instructions.toList.forM fun instruction =>
    instruction.targets.forM fun target => do
      let _ ← layout.pcOf target
  return layout

/-- Lays out the code. The name of the method is for messages. -/
def layOut (body : Body) (method : String) : Except AssemblyError Body := do
  return { body with layout := some (← body.computeLayout method) }

/-- The length of the code, which is 0 before it is laid out. -/
def codeLength (body : Body) : Nat := (body.layout.map (·.length)).getD 0

/-- The pool in which every constant that an instruction refers to has the rank that the instruction
asks for. -/
def rankConstants (body : Body) (pool : Pool) : Pool :=
  body.instructions.foldl (fun pool instruction =>
    match instruction.constantReference? with
    | some (cell, rank) => pool.setRank cell rank
    | none => pool) pool

/-- The bytes of the code with a given layout. -/
def emitWith (body : Body) (layout : Layout) : Emit Bytes :=
  Emit.inCode layout
    (Emit.each (body.instructions.toList.zip layout.starts.toList) fun (instruction, pc) => instruction.emit pc)

/-- The bytes of the code, which must be laid out. -/
def emit (body : Body) : Emit Bytes :=
  match body.layout with
  | none => throw .codeNotLaidOut
  | some layout => body.emitWith layout

end Body

end JvmAssembler
