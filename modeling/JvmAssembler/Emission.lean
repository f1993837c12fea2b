import JvmAssembler.Bytecode.Layout
import JvmAssembler.Pool.Encode
import JvmAssembler.Widths

/-!
# Writing with references

The parts of a class file refer to constants by cell and to places in code by label. Writing them
replaces a cell by its index in the finalized pool and a label by its program counter in the code
that is being written. `Emit` is such a writing: it reads the pool, keeps track of the method and
the code it is in, may report warnings, and may fail.
-/

namespace JvmAssembler

/-- Where the writing is: in which method, and in which code. -/
structure Scope where
  /-- The name of the method, for messages. -/
  method : Option String := none
  /-- The layout of the code to which labels refer. -/
  code : Option Layout := none
  deriving DecidableEq, Repr

/-- A writing that looks up references in a pool. -/
abbrev Emit := ReaderT Pool (Reporting Scope)

namespace Emit

variable {α : Type}

/-- The outcome of a computation that only may fail. -/
@[inline] def ofExcept (result : Except AssemblyError α) : Emit α := fun _ s =>
  match result with
  | .ok a => .ok a s
  | .error e => .error e s

/-- Reports a warning. -/
@[inline] def warn (warning : Warning) : Emit Unit := fun _ => Reporting.warn warning

/-- The name of the method, which is empty outside of methods. -/
def methodName : Emit String := do return (← get).state.method.getD ""

/-- Writes in the scope of a method, and returns to the scope outside, whether the writing fails or
not. -/
@[inline] def inMethod (name : String) (action : Emit α) : Emit α := fun pool ⟨scope, warnings⟩ =>
  match action pool ⟨{ scope with method := some name }, warnings⟩ with
  | .ok a ⟨inner, warnings⟩ => .ok a ⟨{ inner with method := scope.method }, warnings⟩
  | .error e ⟨inner, warnings⟩ => .error e ⟨{ inner with method := scope.method }, warnings⟩

/-- Writes in the scope of laid out code, and returns to the scope outside, whether the writing
fails or not. -/
@[inline] def inCode (layout : Layout) (action : Emit α) : Emit α := fun pool ⟨scope, warnings⟩ =>
  match action pool ⟨{ scope with code := some layout }, warnings⟩ with
  | .ok a ⟨inner, warnings⟩ => .ok a ⟨{ inner with code := scope.code }, warnings⟩
  | .error e ⟨inner, warnings⟩ => .error e ⟨{ inner with code := scope.code }, warnings⟩

/-- The index of a cell, in two bytes. The zero cell is refused: a reference that may be absent is
an option. -/
def cell (cell : Cell) : Emit Bytes := do
  if cell = .zero then throw (.missingReference "constant")
  else return Bytes.be 2 (← ofExcept ((← read).indexOf cell))

/-- The index of a cell, in two bytes, or the reserved index 0 if there is no cell. -/
def cell? : Option Cell → Emit Bytes
  | some c => cell c
  | none => return Bytes.be 2 0

/-- The program counter of a label of the code that is being written. -/
def labelPc (label : Label) : Emit Nat := do
  match (← get).state.code with
  | some layout => ofExcept (layout.pcOf label)
  | none => throw (.labelOutsideCode label)

/-- The program counter of a label, in two bytes. -/
def label (label : Label) : Emit Bytes := do return Bytes.be 2 (← labelPc label)

/-- The number of items of a list, in `width` bytes, if they can hold it. `what` says what is
counted. -/
def count (width : Nat) (what : String) (items : Nat) : Emit Bytes :=
  if items < Bytes.capacity width then return Bytes.be width items else throw (.countOverflow what items)

/-- The items of a list, one after the other. -/
def each (items : List α) (item : α → Emit Bytes) : Emit Bytes := do return (← items.mapM item).flatten

/-- The number of items of a list, and then the items. -/
def counted (width : Nat) (what : String) (items : List α) (item : α → Emit Bytes) : Emit Bytes := do
  return (← count width what items.length) ++ (← each items item)

/-- A list of records: their number in two bytes, and then the records. -/
def records (items : List α) (item : α → Emit Bytes) : Emit Bytes := counted 2 "records" items item

/-- A list of cells: their number in two bytes, and then their indices. -/
def cells (items : List Cell) : Emit Bytes := counted 2 "constant references" items cell

/-- The length of a counted list in bytes. -/
def countedLength (width : Nat) (items : List α) (length : α → Nat) : Nat := width + total length items

/-- The length of a list of records in bytes. -/
def recordsLength (items : List α) (length : α → Nat) : Nat := countedLength 2 items length

/-- The length of a list of cells in bytes. -/
def cellsLength (items : List Cell) : Nat := 2 + 2 * items.length

end Emit

end JvmAssembler
