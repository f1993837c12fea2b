import JvmAssembler.Bytecode.Label
import JvmAssembler.Constant

/-!
# Errors and warnings

An error stops the assembly of a class; a warning is reported and the assembly goes on. Both are
causes: the text shown to a user is looked up elsewhere by the identifier and the arguments given
here.
-/

namespace JvmAssembler

/-- A byte as `0x` and two hexadecimal digits. -/
def hexByte (byte : UInt8) : String :=
  String.ofList ['0', 'x', Nat.digitChar (byte.toNat / 16), Nat.digitChar (byte.toNat % 16)]

/-- Why a class could not be assembled. -/
inductive AssemblyError where
  /-- A file or directory could not be written. -/
  | storage
  /-- The pool needs more indices than there are. -/
  | poolOverflow (slots : Nat)
  /-- A new constant was requested after the indices were given out. -/
  | poolFinalized
  /-- A cell has no value or no index when it is needed. -/
  | unresolvedConstant (cell : Cell)
  /-- An explicit index at which no entry starts. -/
  | invalidReference (index : UInt16)
  /-- A constant of the wrong kind. -/
  | unexpectedConstant (expected found : Tag)
  /-- A dynamic constant or call site refers past the end of the bootstrap methods. -/
  | undefinedBootstrap (index : UInt16)
  /-- A text whose encoding does not fit a `Utf8` constant. -/
  | utf8TooLong (length : Nat)
  /-- An operand refers to a constant without an index. -/
  | unresolvedOperand (method : String) (pc : Nat)
  /-- The operand of `ldc` does not fit its byte. -/
  | ldcOverflow (method : String) (pc : Nat) (index : Int)
  /-- An operand is missing, or of the wrong kind for its opcode. -/
  | malformedOperand (method : String) (pc : Nat) (opcode : String)
  /-- A switch has not as many targets as keys. -/
  | switchMismatch (keys targets : Nat)
  /-- A byte that is no opcode. -/
  | unknownOpcode (byte : UInt8)
  /-- An opcode of a length that cannot be written. -/
  | malformedLength (opcode : String) (length : Nat)
  /-- A label that is used and never placed. -/
  | undefinedLabel (name : String)
  /-- A label that is placed twice. -/
  | duplicateLabel (name : String)
  /-- A label that does not belong to the code in which it is used. -/
  | labelOutsideCode (label : Label)
  /-- Code that is written before it is laid out. -/
  | codeNotLaidOut
  /-- Code that is longer than a method may be. -/
  | codeOverflow (length : Nat)
  /-- A list that is longer than its count can express. -/
  | countOverflow (what : String) (count : Nat)
  /-- A mandatory reference that is not set. -/
  | missingReference (what : String)
  /-- The assembly never comes to an end, as it looks into something that contains itself. There is no report of
  this, and no answer. -/
  | endless
  deriving DecidableEq, Inhabited, Repr

namespace AssemblyError

/-- The identifier under which the text of the error is found. An assembly without an end has no text. -/
def id : AssemblyError → String
  | storage => "err.io"
  | poolOverflow _ => "err.cpool.overflow"
  | poolFinalized => "err.cpool.finalized"
  | unresolvedConstant _ => "err.cpool.unresolved"
  | invalidReference _ => "err.cpool.invalid.ref"
  | unexpectedConstant _ _ => "err.cpool.unexpected.tag"
  | undefinedBootstrap _ => "err.bsm.undefined"
  | utf8TooLong _ => "err.utf8.too.long"
  | unresolvedOperand _ _ => "err.operand.unresolved"
  | ldcOverflow _ _ _ => "err.ldc.index.overflow"
  | malformedOperand _ _ _ => "err.operand.malformed"
  | switchMismatch _ _ => "err.switch.targets"
  | unknownOpcode _ => "err.opcode.unknown"
  | malformedLength _ _ => "err.opcode.length"
  | undefinedLabel _ => "err.label.undefined"
  | duplicateLabel _ => "err.label.duplicate"
  | labelOutsideCode _ => "err.label.outside.code"
  | codeNotLaidOut => "err.code.layout"
  | codeOverflow _ => "err.code.overflow"
  | countOverflow _ _ => "err.count.overflow"
  | missingReference _ => "err.cpool.missing.ref"
  | endless => ""

/-- The arguments of the text of the error. -/
def args : AssemblyError → List String
  | storage | poolFinalized | codeNotLaidOut | endless => []
  | poolOverflow slots => [toString slots]
  | unresolvedConstant cell => [cell.text]
  | invalidReference index | undefinedBootstrap index => [toString index.toNat]
  | unexpectedConstant expected found => [expected.name, found.name]
  | utf8TooLong length | codeOverflow length => [toString length]
  | unresolvedOperand method pc => [method, toString pc]
  | ldcOverflow method pc index => [method, toString pc, toString index]
  | malformedOperand method pc opcode => [method, toString pc, opcode]
  | switchMismatch keys targets => [toString keys, toString targets]
  | unknownOpcode byte => [hexByte byte]
  | malformedLength opcode length => [opcode, toString length]
  | undefinedLabel name | duplicateLabel name => [name]
  | labelOutsideCode label => [label.text]
  | countOverflow what count => [what, toString count]
  | missingReference what => [what]

/-- The error with the name of the method filled in where it has room for one and names none. -/
def inMethod (name : String) : AssemblyError → AssemblyError
  | unresolvedOperand "" pc => unresolvedOperand name pc
  | ldcOverflow "" pc index => ldcOverflow name pc index
  | malformedOperand "" pc opcode => malformedOperand name pc opcode
  | error => error

end AssemblyError

/-- What a warning is about. -/
inductive WarningCause where
  /-- An explicit reference to the reserved index 0. -/
  | zeroReference
  /-- An operand that does not fit its field and loses its high bytes. -/
  | operandOverflow (method : String) (pc : Nat) (opcode : String) (value : Int)
  /-- A dynamic constant in a class file of a version that has none. -/
  | dynamicConstant (index : Nat) (major : UInt16)
  deriving DecidableEq, Repr

/-- A warning, with the position in the source that it is about. -/
structure Warning where
  position : Nat
  cause : WarningCause
  deriving DecidableEq, Repr

namespace Warning

/-- The identifier under which the text of the warning is found. -/
def id (warning : Warning) : String :=
  match warning.cause with
  | .zeroReference => "warn.cpool.zero.ref"
  | .operandOverflow .. => "warn.operand.overflow"
  | .dynamicConstant .. => "warn.version.dynamic"

/-- The arguments of the text of the warning. -/
def args (warning : Warning) : List String :=
  match warning.cause with
  | .zeroReference => []
  | .operandOverflow method pc opcode value => [method, toString pc, opcode, toString value]
  | .dynamicConstant index major => [toString index, toString major.toNat]

end Warning

/-- A state together with the warnings reported so far, in order. -/
structure Reported (σ : Type) where
  state : σ
  warnings : Array Warning := #[]

/-- A computation that may fail and reports warnings on the way. Both the state and the warnings
survive a failure. -/
abbrev Reporting (σ : Type) := EStateM AssemblyError (Reported σ)

namespace Reporting

variable {σ α : Type}

/-- Reports a warning. -/
def warn (warning : Warning) : Reporting σ Unit :=
  modify fun s => { s with warnings := s.warnings.push warning }

/-- A computation on the state alone, which reports nothing. -/
@[inline] def lift (action : EStateM AssemblyError σ α) : Reporting σ α := fun ⟨state, warnings⟩ =>
  match action state with
  | .ok a state => .ok a ⟨state, warnings⟩
  | .error e state => .error e ⟨state, warnings⟩

end Reporting

end JvmAssembler
