import JvmAssembler.Bytecode.Body
import JvmAssembler.Proofs.Reader

/-!
# Reading code

The instructions of the virtual machine as a reader of bytes sees them: pool indices in place of cells and
distances in place of labels. `readCode` reads the instructions of code of a given length, and
`Instruction.resolved?` is what a reader is expected to find of an instruction at a program counter. Which
fields follow an opcode is given here by the ranges of the instruction set, apart from the table that the
assembler works with; `formatOf?_eq` compares the two.
-/

namespace JvmAssembler

/-- The operand of an instruction that was read. -/
inductive ReadOperand where
  | none
  /-- A number to push. -/
  | immediate (value : Int)
  | localVariable (index : Nat)
  | arrayType (code : Nat)
  | constant (index : Nat)
  /-- The distance to the target of a jump. -/
  | jump (distance : Int)
  | increment (index : Nat) (amount : Int)
  | multiArray (index : Nat) (dimensions : Nat)
  | interfaceCall (index : Nat) (count : Nat)
  | dynamicCall (index : Nat)
  /-- The distances for a key outside of `low` to `high`, and for each key from `low` to `high`. -/
  | tableSwitch (default : Int) (low high : Int) (distances : List Int)
  /-- The distance for other keys, and each key with its distance. -/
  | lookupSwitch (default : Int) (pairs : List (Int × Int))
  /-- The opcode that was widened, with its local variable. -/
  | wide (opcode : UInt8) (index : Nat)
  | wideIncrement (index : Nat) (amount : Int)
  deriving DecidableEq, Repr

/-- An instruction that was read. -/
structure ReadInstruction where
  opcode : Opcode
  operand : ReadOperand
  deriving DecidableEq, Repr

/-! ### The instruction set -/

/-- The formats of the operands, each with the first and the last opcode of a range that has it. -/
def formatRanges : List (Nat × Nat × OperandFormat) :=
  [(0x00, 0x0F, .none), (0x10, 0x10, .byte), (0x11, 0x11, .short), (0x12, 0x12, .ldcIndex),
    (0x13, 0x14, .poolIndex), (0x15, 0x19, .localIndex), (0x1A, 0x35, .none), (0x36, 0x3A, .localIndex),
    (0x3B, 0x83, .none), (0x84, 0x84, .increment), (0x85, 0x98, .none), (0x99, 0xA8, .branch),
    (0xA9, 0xA9, .localIndex), (0xAA, 0xAA, .tableSwitch), (0xAB, 0xAB, .lookupSwitch), (0xAC, 0xB1, .none),
    (0xB2, 0xB8, .poolIndex), (0xB9, 0xB9, .interfaceCall), (0xBA, 0xBA, .dynamicCall), (0xBB, 0xBB, .poolIndex),
    (0xBC, 0xBC, .arrayType), (0xBD, 0xBD, .poolIndex), (0xBE, 0xBF, .none), (0xC0, 0xC1, .poolIndex),
    (0xC2, 0xC3, .none), (0xC4, 0xC4, .wide), (0xC5, 0xC5, .multiArray), (0xC6, 0xC7, .branch),
    (0xC8, 0xC9, .wideBranch), (0xCA, 0xCA, .none)]

/-- The format of the operand of an opcode. -/
def formatOf? (byte : UInt8) : Option OperandFormat :=
  (formatRanges.find? fun (first, last, _) => first ≤ byte.toNat ∧ byte.toNat ≤ last).map (·.2.2)

/-- The length of an operand, where it does not depend on anything but the format. -/
def OperandFormat.operandLength : OperandFormat → Nat
  | none | tableSwitch | lookupSwitch | wide => 0
  | byte | localIndex | arrayType | ldcIndex => 1
  | short | poolIndex | branch | increment => 2
  | multiArray => 3
  | wideBranch | interfaceCall | dynamicCall => 4

/-! ### The reader -/

/-- The number of bytes behind the opcode of a switch that bring what follows to a multiple of four. -/
def alignment (pc : Nat) : Nat := (4 - (pc + 1) % 4) % 4

/-- Reads the operand of an instruction at a program counter. -/
def readOperand (pc : Nat) : OperandFormat → Reader ReadOperand
  | .none => return .none
  | .byte => return .immediate (← Reader.int 1)
  | .short => return .immediate (← Reader.int 2)
  | .localIndex => return .localVariable (← Reader.nat 1)
  | .arrayType => return .arrayType (← Reader.nat 1)
  | .ldcIndex => return .constant (← Reader.nat 1)
  | .poolIndex => return .constant (← Reader.nat 2)
  | .branch => return .jump (← Reader.int 2)
  | .wideBranch => return .jump (← Reader.int 4)
  | .increment => return .increment (← Reader.nat 1) (← Reader.int 1)
  | .multiArray => return .multiArray (← Reader.nat 2) (← Reader.nat 1)
  | .interfaceCall => do
    let index ← Reader.nat 2
    let count ← Reader.nat 1
    Reader.zeros 1
    return .interfaceCall index count
  | .dynamicCall => do
    let index ← Reader.nat 2
    Reader.zeros 2
    return .dynamicCall index
  | .tableSwitch => do
    Reader.zeros (alignment pc)
    let default ← Reader.int 4
    let low ← Reader.int 4
    let high ← Reader.int 4
    return .tableSwitch default low high (← Reader.many (Reader.int 4) (high - low + 1).toNat)
  | .lookupSwitch => do
    Reader.zeros (alignment pc)
    let default ← Reader.int 4
    let count ← Reader.nat 4
    return .lookupSwitch default (← Reader.many (do return (← Reader.int 4, ← Reader.int 4)) count)
  | .wide => do
    let opcode ← Reader.byte
    let index ← Reader.nat 2
    if opcode = 0x84 then return .wideIncrement index (← Reader.int 2) else return .wide opcode index

/-- Reads the instruction at a program counter. -/
def readInstruction (pc : Nat) : Reader ReadInstruction := do
  let byte ← Reader.byte
  if byte = 0xFE then return ⟨.privileged (← Reader.byte), .none⟩
  else if byte = 0xFF then return ⟨.nonPrivileged (← Reader.byte), .none⟩
  else
    match formatOf? byte with
    | none => failure
    | some format => return ⟨.standard byte, ← readOperand pc format⟩

/-- Reads the instructions from a program counter on, up to the end of code of the given length, each with
its program counter. An instruction must not reach past the end. -/
def readCode (length pc : Nat) (bytes : Bytes) : Option (List (Nat × ReadInstruction) × Bytes) :=
  if pc < length then
    match readInstruction pc bytes with
    | none => none
    | some (instruction, rest) =>
      let next := pc + (bytes.length - rest.length)
      if pc < next then (readCode length next rest).map fun (tail, rest) => ((pc, instruction) :: tail, rest)
      else none
  else if pc = length then some ([], bytes)
  else none
termination_by length - pc

/-! ### What there is to read -/

/-- The distance from a program counter to a label. -/
def Layout.distance? (layout : Layout) (pc : Nat) (label : Label) : Option Int :=
  (layout.pcOf label).toOption.map fun target => (target : Int) - pc

/-- The index of a cell. -/
def Pool.index? (pool : Pool) (cell : Cell) : Option Nat := (pool.indexOf cell).toOption

namespace Switch

/-- Where a switch goes on a key: to the last target that was given for it, or else to the default. -/
def targetOf (switch : Switch) (pc : Nat) (key : Int) : SwitchTarget :=
  match (switch.keys.zip switch.targets).reverse.find? fun pair => pair.1.toInt = key with
  | some (_, label) => .label label
  | none => switch.defaultTarget pc

/-- The distance from the switch at a program counter to a target, in four bytes. -/
def distance? (layout : Layout) (pc : Nat) : SwitchTarget → Option Int
  | .label label => (layout.distance? pc label).map (Bytes.signed 4)
  | .pc target => some (Bytes.signed 4 ((target : Int) - pc))

/-- The operand of a switch as a table: for each key from the lowest to the highest, where the switch goes. -/
def tableOperand? (switch : Switch) (layout : Layout) (pc : Nat) : Option ReadOperand := do
  let (low, high, count) := switch.bounds
  let targets := (List.range count).map fun (i : Nat) => switch.targetOf pc (low + i)
  let default ← distance? layout pc (switch.defaultTarget pc)
  return .tableSwitch default low high (← targets.mapM (distance? layout pc))

/-- The operand of a switch as a list of keys, each with its target. -/
def lookupOperand? (switch : Switch) (layout : Layout) (pc : Nat) : Option ReadOperand := do
  let pairs := switch.keys.zip (switch.targets.map SwitchTarget.label)
  let default ← distance? layout pc (switch.defaultTarget pc)
  return .lookupSwitch default (← pairs.mapM fun (key, target) => do
    return (key.toInt, ← distance? layout pc target))

end Switch

namespace Instruction

/-- The argument slots of an interface call: as given, or as counted in the descriptor of the method. -/
def interfaceCount? (pool : Pool) (instruction : Instruction) (method : Cell) : Option Int :=
  match instruction.extra with
  | some extra => some extra.toInt
  | none => (interfaceSlots? pool method).map Int.ofNat

/-- The operand that is to be read of an instruction at a program counter, if the instruction has the fields
that its format asks for. Cells are replaced by their indices and labels by their distances, and every number
is reduced to the width of its field. -/
def resolvedOperand? (pool : Pool) (layout : Layout) (pc : Nat) (instruction : Instruction)
    (format : OperandFormat) : Option ReadOperand :=
  match format, instruction.operand with
  | .none, .none => some .none
  | .byte, .value v => some (.immediate (Bytes.signed 1 v.toInt))
  | .short, .value v => some (.immediate (Bytes.signed 2 v.toInt))
  | .localIndex, .value v => some (.localVariable (Bytes.unsigned 1 v.toInt))
  | .arrayType, .value v => some (.arrayType (Bytes.unsigned 1 v.toInt))
  | .ldcIndex, .value v => some (.constant (Bytes.unsigned 1 v.toInt))
  | .ldcIndex, .constant cell => return .constant (Bytes.unsigned 1 (← pool.index? cell))
  | .poolIndex, .value v => some (.constant (Bytes.unsigned 2 v.toInt))
  | .poolIndex, .constant cell => return .constant (Bytes.unsigned 2 (← pool.index? cell))
  | .branch, .value v => some (.jump (Bytes.signed 2 v.toInt))
  | .branch, .label label => return .jump (Bytes.signed 2 (← layout.distance? pc label))
  | .wideBranch, .value v => some (.jump (Bytes.signed 4 v.toInt))
  | .wideBranch, .label label => return .jump (Bytes.signed 4 (← layout.distance? pc label))
  | .increment, .value v => do
    return .increment (Bytes.unsigned 1 v.toInt) (Bytes.signed 1 (← instruction.extra).toInt)
  | .multiArray, .constant cell => do
    return .multiArray (Bytes.unsigned 2 (← pool.index? cell)) (Bytes.unsigned 1 (← instruction.extra).toInt)
  | .interfaceCall, .constant cell => do
    return .interfaceCall (Bytes.unsigned 2 (← pool.index? cell))
      (Bytes.unsigned 1 (← instruction.interfaceCount? pool cell))
  | .dynamicCall, .constant cell => return .dynamicCall (Bytes.unsigned 2 (← pool.index? cell))
  | .tableSwitch, .switch switch => switch.tableOperand? layout pc
  | .lookupSwitch, .switch switch => switch.lookupOperand? layout pc
  | .wide, .wide opcode v =>
    if opcode = Opcode.iincByte then do
      return .wideIncrement (Bytes.unsigned 2 v.toInt) (Bytes.signed 2 (← instruction.extra).toInt)
    else some (.wide opcode (Bytes.unsigned 2 v.toInt))
  | _, _ => none

/-- What is to be read of an instruction at a program counter. The operand of a two-byte opcode is not
written. -/
def resolved? (pool : Pool) (layout : Layout) (pc : Nat) (instruction : Instruction) : Option ReadInstruction :=
  match instruction.opcode with
  | .privileged _ | .nonPrivileged _ => some ⟨instruction.opcode, .none⟩
  | .standard byte => do
    return ⟨instruction.opcode, ← instruction.resolvedOperand? pool layout pc (← formatOf? byte)⟩

end Instruction

/-! ### The ranges and the table of the assembler -/

theorem formatOf?_eq (byte : UInt8) : formatOf? byte = opcodeTable[byte.toNat]?.map (·.format) := by
  have h : ∀ n : Fin 256, formatOf? (UInt8.ofNat n) = opcodeTable[(UInt8.ofNat n).toNat]?.map (·.format) := by
    decide +kernel
  have hbyte := h ⟨byte.toNat, byte.toNat_lt⟩
  rwa [UInt8.ofNat_toNat] at hbyte

/-- The lengths of the table are those of the formats. -/
theorem length_of_mem_opcodeTable {info : OpcodeInfo} (h : info ∈ opcodeTable)
    (hfixed : info.format ∉ [OperandFormat.tableSwitch, .lookupSwitch, .wide]) :
    info.length = 1 + info.format.operandLength := by
  have hall : ∀ info ∈ opcodeTable, info.format ∉ [OperandFormat.tableSwitch, .lookupSwitch, .wide] →
      info.length = 1 + info.format.operandLength := by
    decide +kernel
  exact hall info h hfixed

end JvmAssembler
