import JvmAssembler.Bytecode.Opcode
import JvmAssembler.Bytecode.Switch
import JvmAssembler.Descriptor

/-!
# Instructions

An instruction has an opcode and up to two operands. Its length depends on its program counter only
if it is a switch, and never on where it jumps to, so that code can be laid out before its labels
are known. An operand that does not fit its field is written without its high bytes, and a warning
is reported.
-/

namespace JvmAssembler

/-- The first operand of an instruction. -/
inductive Operand where
  | none
  /-- A number, written as it is. -/
  | value (value : Int32)
  /-- A constant. -/
  | constant (cell : Cell)
  /-- The target of a jump. -/
  | label (label : Label)
  /-- The opcode widened by `wide`, with its local variable. -/
  | wide (opcode : UInt8) (index : Int32)
  | switch (switch : Switch)
  deriving DecidableEq, Repr

/-- An instruction. -/
structure Instruction where
  opcode : Opcode
  operand : Operand := .none
  /-- The second operand: the increment of `iinc`, the argument slots of `invokeinterface` (counted
  in its descriptor if absent), or the dimensions of `multianewarray`. -/
  extra : Option Int32 := Option.none
  /-- The position in the source, for warnings. -/
  position : Nat := 0
  deriving DecidableEq, Repr

namespace Instruction

/-- The instruction that adds a constant to a local variable. -/
def iinc (index increment : Int32) : Instruction :=
  { opcode := .iinc, operand := .value index, extra := some increment }

/-- An instruction with a local variable in two bytes. -/
def wide (opcode : Opcode) (index : Int32) : Instruction :=
  { opcode := .wide, operand := .wide opcode.byte index }

/-- The instruction of a switch. -/
def switch (switch : Switch) : Instruction :=
  { opcode := match switch.kind with
      | .table => .tableSwitch
      | .lookup => .lookupSwitch
    operand := .switch switch }

/-- The labels that an instruction may jump to. -/
def targets (instruction : Instruction) : List Label :=
  match instruction.operand with
  | .label label => [label]
  | .switch switch => switch.targets ++ switch.default.toList
  | _ => []

/-- The constant that an instruction refers to, with the rank that this asks for. -/
def constantReference? (instruction : Instruction) : Option (Cell × Rank) :=
  match instruction.operand with
  | .constant cell =>
    match instruction.opcode.info? with
    | some { format := .ldcIndex, .. } => some (cell, .ldc)
    | _ => some (cell, .any)
  | _ => none

/-- The error for an operand that is missing, or of the wrong kind for the opcode. -/
def malformed (instruction : Instruction) (method : String) (pc : Nat) : AssemblyError :=
  .malformedOperand method pc instruction.opcode.mnemonic

/-- The length of the instruction at a program counter. -/
def length (instruction : Instruction) (pc : Nat) : Except AssemblyError Nat :=
  match instruction.opcode with
  | .privileged _ | .nonPrivileged _ => .ok 2
  | .standard _ =>
    match instruction.opcode.info with
    | .error e => .error e
    | .ok info =>
      match info.format, instruction.operand with
      | .tableSwitch, .switch switch =>
        if switch.kind = .table then .ok (switch.size pc) else .error (instruction.malformed "" pc)
      | .lookupSwitch, .switch switch =>
        if switch.kind = .lookup then .ok (switch.size pc) else .error (instruction.malformed "" pc)
      | .wide, .wide opcode _ => .ok (if opcode = Opcode.iincByte then 6 else 4)
      | .tableSwitch, _ | .lookupSwitch, _ | .wide, _ => .error (instruction.malformed "" pc)
      | _, _ => .ok info.length

/-- Whether a number fits a field of `width` bytes. -/
def fits (width : Nat) (signed : Bool) (value : Int) : Bool :=
  let capacity : Int := Bytes.capacity width
  if signed then -(capacity / 2) ≤ value ∧ value < capacity / 2
  else 0 ≤ value ∧ value < capacity

/-- Reports a warning if a number does not fit its field. -/
def checkFits (instruction : Instruction) (pc : Nat) (value : Int) (width : Nat) (signed : Bool) :
    Emit Unit := do
  if fits width signed value then return ()
  else
    let method ← Emit.methodName
    Emit.warn ⟨instruction.position, .operandOverflow method pc instruction.opcode.mnemonic value⟩

/-- The low-order bytes of a number that should fit its field. -/
def field (instruction : Instruction) (pc : Nat) (value : Int) (width : Nat) (signed : Bool) : Emit Bytes := do
  instruction.checkFits pc value width signed
  return Bytes.beInt width value

/-- Fails because an operand is missing, or of the wrong kind. -/
def refuse {α : Type} (instruction : Instruction) (pc : Nat) : Emit α := do
  throw (instruction.malformed (← Emit.methodName) pc)

/-- The second operand, which must be there. -/
def requireExtra (instruction : Instruction) (pc : Nat) : Emit Int :=
  match instruction.extra with
  | some extra => return extra.toInt
  | none => instruction.refuse pc

/-- The index of the constant that the instruction refers to. -/
def constantIndex (pc : Nat) (cell : Cell) : Emit Nat := do
  match (← read).indexOf cell with
  | .ok index => return index
  | .error _ => throw (.unresolvedOperand (← Emit.methodName) pc)

/-- The argument slots of a method, the receiver included, counted in its descriptor. -/
def interfaceSlots? (pool : Pool) (method : Cell) : Option Nat := do
  let .member kind _ signature ← pool.get? method | none
  if kind = .field then none
  else
    let .nameAndType _ descriptor ← pool.get? signature | none
    let slots ← Descriptor.argumentSlots (← pool.utf8? descriptor)
    return slots + 1

/-- The number of argument slots of an interface call. -/
def interfaceCount (instruction : Instruction) (pc : Nat) (method : Cell) : Emit Int := do
  match instruction.extra with
  | some extra => return extra.toInt
  | none =>
    match interfaceSlots? (← read) method with
    | some slots => return slots
    | none => instruction.refuse pc

/-- The operand of an instruction of fixed length as one number, the fields of a packed operand side
by side. The second field of a packed operand is checked here and cut to its byte. -/
def operandValue (instruction : Instruction) (format : OperandFormat) (pc : Nat) : Emit Int := do
  match format, instruction.operand with
  | .branch, .label label | .wideBranch, .label label => return (← Emit.labelPc label : Int) - pc
  | .byte, .value v | .short, .value v | .localIndex, .value v | .arrayType, .value v | .ldcIndex, .value v
  | .poolIndex, .value v | .branch, .value v | .wideBranch, .value v => return v.toInt
  | .ldcIndex, .constant cell | .poolIndex, .constant cell => return (← constantIndex pc cell : Int)
  | .increment, .value index =>
    let increment ← instruction.requireExtra pc
    instruction.checkFits pc increment 1 true
    return index.toInt * 256 + increment % 256
  | .multiArray, .constant cell =>
    let dimensions ← instruction.requireExtra pc
    instruction.checkFits pc dimensions 1 false
    return (← constantIndex pc cell : Int) * 256 + dimensions % 256
  | .interfaceCall, .constant cell =>
    let count ← instruction.interfaceCount pc cell
    instruction.checkFits pc count 1 false
    return ((← constantIndex pc cell : Int) * 256 + count % 256) * 256
  | .dynamicCall, .constant cell => return (← constantIndex pc cell : Int) * 65536
  | _, _ => instruction.refuse pc

/-- The operand of an instruction of fixed length. The index of `ldc` is never cut. -/
def fixedOperand (instruction : Instruction) (info : OpcodeInfo) (pc : Nat) : Emit Bytes := do
  if 2 ≤ info.length ∧ info.length ≤ 5 then
    let value ← instruction.operandValue info.format pc
    if info.format = .ldcIndex ∧ ¬ (0 ≤ value ∧ value ≤ 255) then
      throw (.ldcOverflow (← Emit.methodName) pc value)
    else instruction.field pc value (info.length - 1) info.format.isSigned
  else throw (.malformedLength info.mnemonic info.length)

/-- What follows the opcode of the instruction. -/
def emitOperand (instruction : Instruction) (info : OpcodeInfo) (pc : Nat) : Emit Bytes := do
  match info.format, instruction.operand with
  | .none, .none => return []
  | .tableSwitch, .switch switch | .lookupSwitch, .switch switch => switch.emit pc
  | .wide, .wide opcode index =>
    let head ← instruction.field pc index.toInt 2 false
    if opcode = Opcode.iincByte then
      let increment ← instruction.requireExtra pc
      return opcode :: head ++ (← instruction.field pc increment 2 true)
    else return opcode :: head
  | .none, _ | .tableSwitch, _ | .lookupSwitch, _ | .wide, _ => instruction.refuse pc
  | _, _ => instruction.fixedOperand info pc

/-- The bytes of the instruction at a program counter. -/
def emit (instruction : Instruction) (pc : Nat) : Emit Bytes := do
  match instruction.opcode with
  | .privileged byte => return [Opcode.privilegedByte, byte]
  | .nonPrivileged byte => return [Opcode.nonPrivilegedByte, byte]
  | .standard byte =>
    let info ← Emit.ofExcept instruction.opcode.info
    return byte :: (← instruction.emitOperand info pc)

end Instruction

end JvmAssembler
