/-!
# Method descriptors

A method descriptor `(…)R` lists the types of the arguments of a method. `argumentSlots` counts the
operand stack slots that the arguments take: two for a `long` or a `double`, one for everything
else. The result type is not looked at, and an array takes one slot whatever follows its brackets.
-/

namespace JvmAssembler.Descriptor

/-- Slot counts are 32-bit words: a larger count is refused. -/
def slotLimit : Nat := 0x100000000

/-- What the scan of an argument list expects next. -/
inductive Scan where
  /-- An argument or the closing parenthesis. -/
  | argument
  /-- The element type of an array, or one more bracket. -/
  | element
  /-- The rest of a class name, up to its semicolon. -/
  | className
  deriving DecidableEq, Repr

/-- The slots of the arguments up to the closing parenthesis, added to `slots`; `none` if the text
ends before it, or if an argument starts with a character that starts no type. -/
def scan : Scan → (slots : Nat) → List Char → Option Nat
  | _, _, [] => none
  | .argument, slots, c :: rest =>
    match c with
    | ')' => some slots
    | 'J' | 'D' => if slots + 2 < slotLimit then scan .argument (slots + 2) rest else none
    | 'B' | 'C' | 'F' | 'I' | 'S' | 'Z' =>
      if slots + 1 < slotLimit then scan .argument (slots + 1) rest else none
    | 'L' => scan .className slots rest
    | '[' => scan .element slots rest
    | _ => none
  | .element, slots, c :: rest =>
    match c with
    | '[' => scan .element slots rest
    | 'L' => scan .className slots rest
    | _ => if slots + 1 < slotLimit then scan .argument (slots + 1) rest else none
  | .className, slots, c :: rest =>
    if c = ';' then
      if slots + 1 < slotLimit then scan .argument (slots + 1) rest else none
    else scan .className slots rest

/-- The operand stack slots that the arguments of a method take, or `none` if the descriptor does
not start with an argument list. -/
def argumentSlots (descriptor : String) : Option Nat :=
  match descriptor.toList with
  | '(' :: rest => scan .argument 0 rest
  | _ => none

end JvmAssembler.Descriptor
