import JvmAssembler.Diagnostic
import JvmAssembler.OffsetTable
import Std.Data.HashMap

/-!
# Constant pools

A pool hands out cells. A cell owns a constant, or stands for one that is decided later: for the
entry at an explicit index, or for a wrapper of a name. Once decided, such a cell becomes an alias
of the cell that owns the constant. Entries keep the order in which they were first requested, and
get their indices when the pool is finalized.

This module holds the state of a pool and the questions that only read it.
-/

namespace JvmAssembler

/-- How cheaply an entry needs to be referred to by code. -/
inductive Rank where
  /-- No instruction refers to the entry. -/
  | unused
  /-- An instruction with a two-byte index refers to the entry. -/
  | any
  /-- An `ldc`, whose index has one byte, refers to the entry. -/
  | ldc
  deriving DecidableEq, Repr

namespace Rank

/-- The position of a rank in their order. -/
def level : Rank → Nat
  | unused => 0 | any => 1 | ldc => 2

/-- The higher of two ranks. -/
def max (a b : Rank) : Rank := if a.level ≤ b.level then b else a

/-- The name of a rank. -/
def name : Rank → String
  | unused => "None" | any => "Any" | ldc => "Ldc"

/-- The rank with the given name. -/
def ofName? (name : String) : Option Rank := [unused, any, ldc].find? (·.name == name)

end Rank

/-- What a cell stands for. -/
inductive Binding where
  /-- The cell owns an entry. -/
  | owned (value : Constant Cell)
  /-- The cell stands for the same entry as another cell. -/
  | alias (target : Cell)
  /-- The cell stands for the entry that gets the given index; `position` is where this was said. -/
  | indexed (index : UInt16) (position : Nat)
  /-- The cell stands for the wrapper of a name, whether or not the pool has it yet. -/
  | promised (kind : Wrapper) (name : Cell)
  deriving DecidableEq, Repr

/-- The state of a cell. -/
structure Slot where
  binding : Binding
  /-- The index of the entry that the cell owns, once it has one. -/
  index : Option Nat := none
  rank : Rank := .unused
  deriving DecidableEq, Repr

/-- The content of an entry: its shape and, in place of its references, the contents of what it
refers to. Two entries are equal by value when their contents are equal. -/
inductive Content where
  | leaf (shape : Constant Unit)
  | unary (shape : Constant Unit) (inner : Content)
  | binary (shape : Constant Unit) (first second : Content)
  deriving DecidableEq, Hashable, Repr

/-- A method that computes dynamic constants or call sites, with its static arguments. -/
structure Bootstrap where
  /-- The method handle. -/
  handle : Cell
  arguments : List Cell
  deriving DecidableEq, Hashable, Repr

/-- A constant pool. -/
structure Pool where
  /-- The cells handed out, in the order of their numbers. -/
  slots : Array Slot
  /-- The cells that own an entry, in the order of the entries. -/
  order : Array Cell
  /-- The cell that owns a constant, by the constant with its references as cells. -/
  byValue : Std.HashMap (Constant Cell) Cell
  /-- The cell that owns a constant, by the content of the constant. -/
  byContent : Std.HashMap Content Cell
  /-- The bootstrap methods, in the order of their positions. -/
  bootstraps : Array Bootstrap
  /-- The position of a bootstrap method. -/
  bootstrapIndex : Std.HashMap Bootstrap UInt16
  /-- The cells of the entries by index, once the pool is finalized. -/
  layout : Option (OffsetTable Cell)

namespace Pool

/-- The pool with no entries. Only the reserved entry at index 0 has a cell. -/
def empty : Pool where
  slots := #[{ binding := .owned .zero, index := some 0 }]
  order := #[]
  byValue := ∅
  byContent := ∅
  bootstraps := #[]
  bootstrapIndex := ∅
  layout := none

/-- The number of entries. -/
def size (pool : Pool) : Nat := pool.order.size

/-- Whether the indices have been given out, after which the pool takes no new entries. -/
def isFinalized (pool : Pool) : Bool := pool.layout.isSome

/-- The state of a cell. -/
def slot? (pool : Pool) (cell : Cell) : Option Slot := pool.slots[cell.id]?

/-- The cell reached by following at most `fuel` aliases. -/
def follow (pool : Pool) : (fuel : Nat) → Cell → Cell
  | 0, cell => cell
  | fuel + 1, cell =>
    match pool.slot? cell with
    | some { binding := .alias target, .. } => pool.follow fuel target
    | _ => cell

/-- The cell that a cell is an alias of, or the cell itself. -/
def canonical (pool : Pool) (cell : Cell) : Cell := pool.follow pool.slots.size cell

/-- The constant of the entry that a cell stands for. -/
def get? (pool : Pool) (cell : Cell) : Option (Constant Cell) :=
  match pool.slot? (pool.canonical cell) with
  | some { binding := .owned value, .. } => some value
  | _ => none

/-- The text of the `Utf8` entry that a cell stands for. -/
def utf8? (pool : Pool) (cell : Cell) : Option String :=
  match pool.get? cell with
  | some (.utf8 text) => some text
  | _ => none

/-- The index of the entry that a cell stands for. -/
def indexOf (pool : Pool) (cell : Cell) : Except AssemblyError Nat :=
  let owner := pool.canonical cell
  match pool.slot? owner with
  | some { binding := .owned _, index := some index, .. } => .ok index
  | some _ => .error (.unresolvedConstant cell)
  | none => .error (.unresolvedConstant owner)

/-- Whether a cell stands for an entry that has its index. -/
def isSet (pool : Pool) (cell : Cell) : Bool := (pool.indexOf cell).isOk

/-- The rank of the entry that a cell stands for. -/
def rank (pool : Pool) (cell : Cell) : Rank :=
  match pool.slot? (pool.canonical cell) with
  | some slot => slot.rank
  | none => .unused

/-- The entries that have an index, in order. -/
def entries (pool : Pool) : List (Nat × Constant Cell) :=
  pool.order.toList.filterMap fun cell =>
    match pool.indexOf cell, pool.get? cell with
    | .ok index, some value => some (index, value)
    | _, _ => none

end Pool

/-- The answer of a search: what is found, or `none` if there is nothing to find. A search that never comes to an end
has no answer, which is an error of its own. -/
abbrev Search (α : Type) := Except AssemblyError (Option α)

namespace Search

variable {α β : Type}

/-- What is found, if the search comes to an end and finds something. -/
def found? : Search α → Option α
  | .ok found => found
  | .error _ => none

/-- Goes on with what is found. -/
def andThen (search : Search α) (next : α → Search β) : Search β :=
  match search with
  | .ok (some a) => next a
  | .ok none => .ok none
  | .error e => .error e

end Search

/-- The content of a constant, given the contents of its references. A reference is looked into only if the content of
the one before it is known. -/
def Constant.content (value : Constant Cell) (inner : Cell → Search Content) : Search Content :=
  match value.refs with
  | [] => .ok (some (.leaf value.shape))
  | [a] => (inner a).andThen fun x => .ok (some (.unary value.shape x))
  | a :: b :: _ => (inner a).andThen fun x => (inner b).andThen fun y => .ok (some (.binary value.shape x y))

namespace Pool

/-- The content of the entry that a cell stands for, following references to a depth of less than `fuel`. There is none
while it depends on an explicit index. Where references lead deeper, the search is taken to have no end. -/
def contentWithin (pool : Pool) : (fuel : Nat) → Cell → Search Content
  | 0, _ => .error .endless
  | fuel + 1, cell =>
    match pool.slot? (pool.canonical cell) with
    | some { binding := .owned value, .. } => value.content (pool.contentWithin fuel)
    | some { binding := .promised kind name, .. } =>
      (pool.contentWithin fuel name).andThen fun x => .ok (some (.unary (.wrapper kind ()) x))
    | _ => .ok none

/-- The content of the entry that a cell stands for. References that are followed to a depth of the number of cells have
come back to an entry that they have been at, and would be followed for ever: the search for the content of an entry
that contains itself has no end. -/
def content (pool : Pool) (cell : Cell) : Search Content := pool.contentWithin (pool.slots.size + 1) cell

/-- The content of a constant whose references are cells of the pool. -/
def contentOf (pool : Pool) (value : Constant Cell) : Search Content := value.content pool.content

/-- The content of a constant, if it is known. -/
def contentOf? (pool : Pool) (value : Constant Cell) : Option Content := (pool.contentOf value).found?

/-- Whether two cells stand for entries that are equal by value. The contents of both are looked for, unless the cells
stand for the same entry. -/
def sameValue (pool : Pool) (a b : Cell) : Except AssemblyError Bool :=
  let a := pool.canonical a
  let b := pool.canonical b
  if a = b then .ok true
  else do
    let x ← pool.content a
    let y ← pool.content b
    return x.isSome && x = y

/-- The cell that owns an entry equal to a constant, by its references or by its content. -/
def find (pool : Pool) (value : Constant Cell) : Search Cell :=
  match pool.byValue[value]? with
  | some cell => .ok (some cell)
  | none => (pool.contentOf value).andThen fun content => .ok pool.byContent[content]?

end Pool

end JvmAssembler
