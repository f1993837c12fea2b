import JvmAssembler.Diagnostic

/-!
# Opcodes

The instructions of the virtual machine, with the length of each and the format of its operand.
Besides the opcodes of the table there are two families of two-byte opcodes, which start with `0xFE`
and `0xFF`.
-/

namespace JvmAssembler

/-- What follows the opcode of an instruction. -/
inductive OperandFormat where
  /-- Nothing. -/
  | none
  /-- A signed byte. -/
  | byte
  /-- A signed two-byte number. -/
  | short
  /-- A local variable, in one byte. -/
  | localIndex
  /-- The element type of an array, in one byte. -/
  | arrayType
  /-- A pool index in one byte. -/
  | ldcIndex
  /-- A pool index in two bytes. -/
  | poolIndex
  /-- A signed two-byte distance to a target. -/
  | branch
  /-- A signed four-byte distance to a target. -/
  | wideBranch
  /-- A local variable and a signed increment, each in one byte. -/
  | increment
  /-- A pool index and a number of dimensions. -/
  | multiArray
  /-- A pool index, a number of argument slots, and a zero byte. -/
  | interfaceCall
  /-- A pool index and two zero bytes. -/
  | dynamicCall
  /-- An aligned table of distances. -/
  | tableSwitch
  /-- An aligned table of keys and distances. -/
  | lookupSwitch
  /-- Another opcode with wider operands. -/
  | wide
  deriving DecidableEq, Repr

namespace OperandFormat

/-- Whether the operand is a signed number. -/
def isSigned : OperandFormat → Bool
  | byte | short | branch | wideBranch => true
  | _ => false

/-- Whether the operand is the distance to a target. -/
def isBranch : OperandFormat → Bool
  | branch | wideBranch => true
  | _ => false

/-- The name of a format. -/
def name : OperandFormat → String
  | none => "None" | byte => "Byte" | short => "Short" | localIndex => "Local"
  | arrayType => "ArrayType" | ldcIndex => "Const" | poolIndex => "ConstShort" | branch => "Branch"
  | wideBranch => "BranchWide" | increment => "IInc" | multiArray => "MultiANewArray"
  | interfaceCall => "InvokeInterface" | dynamicCall => "InvokeDynamic"
  | tableSwitch => "TableSwitch" | lookupSwitch => "LookupSwitch" | wide => "Wide"

end OperandFormat

/-- What is known of an opcode. -/
structure OpcodeInfo where
  mnemonic : String
  /-- The length of the instruction in bytes, its opcode included; 0 if it varies. -/
  length : Nat
  format : OperandFormat
  deriving DecidableEq, Repr

/-- The one-byte opcodes, in the order of their bytes. -/
def opcodeTable : Array OpcodeInfo := #[
    ⟨"nop", 1, .none⟩, ⟨"aconst_null", 1, .none⟩, ⟨"iconst_m1", 1, .none⟩, ⟨"iconst_0", 1, .none⟩,
    ⟨"iconst_1", 1, .none⟩, ⟨"iconst_2", 1, .none⟩, ⟨"iconst_3", 1, .none⟩, ⟨"iconst_4", 1, .none⟩,
    ⟨"iconst_5", 1, .none⟩, ⟨"lconst_0", 1, .none⟩, ⟨"lconst_1", 1, .none⟩, ⟨"fconst_0", 1, .none⟩,
    ⟨"fconst_1", 1, .none⟩, ⟨"fconst_2", 1, .none⟩, ⟨"dconst_0", 1, .none⟩, ⟨"dconst_1", 1, .none⟩,
    ⟨"bipush", 2, .byte⟩, ⟨"sipush", 3, .short⟩, ⟨"ldc", 2, .ldcIndex⟩, ⟨"ldc_w", 3, .poolIndex⟩,
    ⟨"ldc2_w", 3, .poolIndex⟩, ⟨"iload", 2, .localIndex⟩, ⟨"lload", 2, .localIndex⟩, ⟨"fload", 2, .localIndex⟩,
    ⟨"dload", 2, .localIndex⟩, ⟨"aload", 2, .localIndex⟩, ⟨"iload_0", 1, .none⟩, ⟨"iload_1", 1, .none⟩,
    ⟨"iload_2", 1, .none⟩, ⟨"iload_3", 1, .none⟩, ⟨"lload_0", 1, .none⟩, ⟨"lload_1", 1, .none⟩,
    ⟨"lload_2", 1, .none⟩, ⟨"lload_3", 1, .none⟩, ⟨"fload_0", 1, .none⟩, ⟨"fload_1", 1, .none⟩,
    ⟨"fload_2", 1, .none⟩, ⟨"fload_3", 1, .none⟩, ⟨"dload_0", 1, .none⟩, ⟨"dload_1", 1, .none⟩,
    ⟨"dload_2", 1, .none⟩, ⟨"dload_3", 1, .none⟩, ⟨"aload_0", 1, .none⟩, ⟨"aload_1", 1, .none⟩,
    ⟨"aload_2", 1, .none⟩, ⟨"aload_3", 1, .none⟩, ⟨"iaload", 1, .none⟩, ⟨"laload", 1, .none⟩,
    ⟨"faload", 1, .none⟩, ⟨"daload", 1, .none⟩, ⟨"aaload", 1, .none⟩, ⟨"baload", 1, .none⟩,
    ⟨"caload", 1, .none⟩, ⟨"saload", 1, .none⟩, ⟨"istore", 2, .localIndex⟩, ⟨"lstore", 2, .localIndex⟩,
    ⟨"fstore", 2, .localIndex⟩, ⟨"dstore", 2, .localIndex⟩, ⟨"astore", 2, .localIndex⟩, ⟨"istore_0", 1, .none⟩,
    ⟨"istore_1", 1, .none⟩, ⟨"istore_2", 1, .none⟩, ⟨"istore_3", 1, .none⟩, ⟨"lstore_0", 1, .none⟩,
    ⟨"lstore_1", 1, .none⟩, ⟨"lstore_2", 1, .none⟩, ⟨"lstore_3", 1, .none⟩, ⟨"fstore_0", 1, .none⟩,
    ⟨"fstore_1", 1, .none⟩, ⟨"fstore_2", 1, .none⟩, ⟨"fstore_3", 1, .none⟩, ⟨"dstore_0", 1, .none⟩,
    ⟨"dstore_1", 1, .none⟩, ⟨"dstore_2", 1, .none⟩, ⟨"dstore_3", 1, .none⟩, ⟨"astore_0", 1, .none⟩,
    ⟨"astore_1", 1, .none⟩, ⟨"astore_2", 1, .none⟩, ⟨"astore_3", 1, .none⟩, ⟨"iastore", 1, .none⟩,
    ⟨"lastore", 1, .none⟩, ⟨"fastore", 1, .none⟩, ⟨"dastore", 1, .none⟩, ⟨"aastore", 1, .none⟩,
    ⟨"bastore", 1, .none⟩, ⟨"castore", 1, .none⟩, ⟨"sastore", 1, .none⟩, ⟨"pop", 1, .none⟩, ⟨"pop2", 1, .none⟩,
    ⟨"dup", 1, .none⟩, ⟨"dup_x1", 1, .none⟩, ⟨"dup_x2", 1, .none⟩, ⟨"dup2", 1, .none⟩, ⟨"dup2_x1", 1, .none⟩,
    ⟨"dup2_x2", 1, .none⟩, ⟨"swap", 1, .none⟩, ⟨"iadd", 1, .none⟩, ⟨"ladd", 1, .none⟩, ⟨"fadd", 1, .none⟩,
    ⟨"dadd", 1, .none⟩, ⟨"isub", 1, .none⟩, ⟨"lsub", 1, .none⟩, ⟨"fsub", 1, .none⟩, ⟨"dsub", 1, .none⟩,
    ⟨"imul", 1, .none⟩, ⟨"lmul", 1, .none⟩, ⟨"fmul", 1, .none⟩, ⟨"dmul", 1, .none⟩, ⟨"idiv", 1, .none⟩,
    ⟨"ldiv", 1, .none⟩, ⟨"fdiv", 1, .none⟩, ⟨"ddiv", 1, .none⟩, ⟨"irem", 1, .none⟩, ⟨"lrem", 1, .none⟩,
    ⟨"frem", 1, .none⟩, ⟨"drem", 1, .none⟩, ⟨"ineg", 1, .none⟩, ⟨"lneg", 1, .none⟩, ⟨"fneg", 1, .none⟩,
    ⟨"dneg", 1, .none⟩, ⟨"ishl", 1, .none⟩, ⟨"lshl", 1, .none⟩, ⟨"ishr", 1, .none⟩, ⟨"lshr", 1, .none⟩,
    ⟨"iushr", 1, .none⟩, ⟨"lushr", 1, .none⟩, ⟨"iand", 1, .none⟩, ⟨"land", 1, .none⟩, ⟨"ior", 1, .none⟩,
    ⟨"lor", 1, .none⟩, ⟨"ixor", 1, .none⟩, ⟨"lxor", 1, .none⟩, ⟨"iinc", 3, .increment⟩, ⟨"i2l", 1, .none⟩,
    ⟨"i2f", 1, .none⟩, ⟨"i2d", 1, .none⟩, ⟨"l2i", 1, .none⟩, ⟨"l2f", 1, .none⟩, ⟨"l2d", 1, .none⟩,
    ⟨"f2i", 1, .none⟩, ⟨"f2l", 1, .none⟩, ⟨"f2d", 1, .none⟩, ⟨"d2i", 1, .none⟩, ⟨"d2l", 1, .none⟩,
    ⟨"d2f", 1, .none⟩, ⟨"i2b", 1, .none⟩, ⟨"i2c", 1, .none⟩, ⟨"i2s", 1, .none⟩, ⟨"lcmp", 1, .none⟩,
    ⟨"fcmpl", 1, .none⟩, ⟨"fcmpg", 1, .none⟩, ⟨"dcmpl", 1, .none⟩, ⟨"dcmpg", 1, .none⟩, ⟨"ifeq", 3, .branch⟩,
    ⟨"ifne", 3, .branch⟩, ⟨"iflt", 3, .branch⟩, ⟨"ifge", 3, .branch⟩, ⟨"ifgt", 3, .branch⟩,
    ⟨"ifle", 3, .branch⟩, ⟨"if_icmpeq", 3, .branch⟩, ⟨"if_icmpne", 3, .branch⟩, ⟨"if_icmplt", 3, .branch⟩,
    ⟨"if_icmpge", 3, .branch⟩, ⟨"if_icmpgt", 3, .branch⟩, ⟨"if_icmple", 3, .branch⟩, ⟨"if_acmpeq", 3, .branch⟩,
    ⟨"if_acmpne", 3, .branch⟩, ⟨"goto", 3, .branch⟩, ⟨"jsr", 3, .branch⟩, ⟨"ret", 2, .localIndex⟩,
    ⟨"tableswitch", 0, .tableSwitch⟩, ⟨"lookupswitch", 0, .lookupSwitch⟩, ⟨"ireturn", 1, .none⟩,
    ⟨"lreturn", 1, .none⟩, ⟨"freturn", 1, .none⟩, ⟨"dreturn", 1, .none⟩, ⟨"areturn", 1, .none⟩,
    ⟨"return", 1, .none⟩, ⟨"getstatic", 3, .poolIndex⟩, ⟨"putstatic", 3, .poolIndex⟩,
    ⟨"getfield", 3, .poolIndex⟩, ⟨"putfield", 3, .poolIndex⟩, ⟨"invokevirtual", 3, .poolIndex⟩,
    ⟨"invokespecial", 3, .poolIndex⟩, ⟨"invokestatic", 3, .poolIndex⟩, ⟨"invokeinterface", 5, .interfaceCall⟩,
    ⟨"invokedynamic", 5, .dynamicCall⟩, ⟨"new", 3, .poolIndex⟩, ⟨"newarray", 2, .arrayType⟩,
    ⟨"anewarray", 3, .poolIndex⟩, ⟨"arraylength", 1, .none⟩, ⟨"athrow", 1, .none⟩, ⟨"checkcast", 3, .poolIndex⟩,
    ⟨"instanceof", 3, .poolIndex⟩, ⟨"monitorenter", 1, .none⟩, ⟨"monitorexit", 1, .none⟩, ⟨"wide", 0, .wide⟩,
    ⟨"multianewarray", 4, .multiArray⟩, ⟨"ifnull", 3, .branch⟩, ⟨"ifnonnull", 3, .branch⟩,
    ⟨"goto_w", 5, .wideBranch⟩, ⟨"jsr_w", 5, .wideBranch⟩, ⟨"breakpoint", 1, .none⟩]

/-- The opcode of an instruction. -/
inductive Opcode where
  /-- An opcode of the table. -/
  | standard (byte : UInt8)
  /-- A two-byte opcode that starts with `0xFE`. -/
  | privileged (byte : UInt8)
  /-- A two-byte opcode that starts with `0xFF`. -/
  | nonPrivileged (byte : UInt8)
  deriving DecidableEq, Repr

namespace Opcode

/-- The opcode that adds a constant to a local variable. -/
def iincByte : UInt8 := 0x84

/-- The opcode that adds a constant to a local variable. -/
def iinc : Opcode := .standard iincByte

/-- The opcode that jumps through a table of consecutive keys. -/
def tableSwitch : Opcode := .standard 0xAA

/-- The opcode that jumps through a table of keys. -/
def lookupSwitch : Opcode := .standard 0xAB

/-- The opcode that widens the operands of another one. -/
def wide : Opcode := .standard 0xC4

/-- The first byte of the privileged opcodes. -/
def privilegedByte : UInt8 := 0xFE

/-- The first byte of the non-privileged two-byte opcodes. -/
def nonPrivilegedByte : UInt8 := 0xFF

/-- The byte that tells the opcode from the others of its family. -/
def byte : Opcode → UInt8
  | standard byte | privileged byte | nonPrivileged byte => byte

/-- What is known of an opcode of the table. -/
def info? : Opcode → Option OpcodeInfo
  | standard byte => opcodeTable[byte.toNat]?
  | _ => none

/-- What is known of an opcode, which must be one of the table. -/
def info (opcode : Opcode) : Except AssemblyError OpcodeInfo :=
  match opcode.info? with
  | some info => .ok info
  | none =>
    match opcode with
    | standard byte => .error (.unknownOpcode byte)
    | privileged _ => .error (.unknownOpcode privilegedByte)
    | nonPrivileged _ => .error (.unknownOpcode nonPrivilegedByte)

/-- The name of an opcode in messages. -/
def mnemonic : Opcode → String
  | standard byte => (opcodeTable[byte.toNat]?).elim "<unknown>" (·.mnemonic)
  | privileged _ => "<privileged>"
  | nonPrivileged _ => "<nonprivileged>"

/-- The opcode as it is listed: its mnemonic, or its family and its byte. -/
def text : Opcode → String
  | opcode@(standard _) => opcode.mnemonic
  | privileged byte => "priv " ++ hexByte byte
  | nonPrivileged byte => "nonpriv " ++ hexByte byte

/-- The opcode of the table with the given mnemonic. -/
def ofMnemonic? (mnemonic : String) : Option Opcode :=
  (opcodeTable.findIdx? (·.mnemonic == mnemonic)).map fun byte => .standard (UInt8.ofNat byte)

end Opcode

end JvmAssembler
