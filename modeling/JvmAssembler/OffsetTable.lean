/-!
# Offset tables

A sequence of elements of different widths, where the offset of an element is the start of the table
plus the widths of the elements before it. The constant pool is numbered this way: it starts at 1,
and an entry takes one or two indices. `push` appends an element and `lookup` finds the element at
an offset by bisection.
-/

namespace JvmAssembler

/-- A sequence of elements, each with its offset. -/
structure OffsetTable (α : Type) where
  /-- The offset of the first element. -/
  start : Nat
  /-- The elements, each with its offset. -/
  entries : Array (Nat × α)
  /-- The offset of the next element. -/
  next : Nat

namespace OffsetTable

variable {α : Type}

/-- The empty table with the given first offset. -/
def startingAt (start : Nat) : OffsetTable α := ⟨start, #[], start⟩

/-- The number of elements. -/
def size (table : OffsetTable α) : Nat := table.entries.size

/-- The offset at which one more element is placed, and the table with this element. -/
def push (table : OffsetTable α) (width : Nat) (value : α) : Nat × OffsetTable α :=
  (table.next, { table with entries := table.entries.push (table.next, value), next := table.next + width })

/-- The answer to the question which element is at an offset. -/
inductive Lookup (α : Type) where
  /-- An element starts at the offset. -/
  | found (index : Nat) (value : α)
  /-- The offset falls inside of an element. -/
  | inside (index : Nat)
  /-- The offset is before the first element. -/
  | tooSmall
  /-- The offset is past the last element. -/
  | tooLarge
  deriving DecidableEq, Repr

/-- The element found, if there is one. -/
def Lookup.value? : Lookup α → Option α
  | found _ value => some value
  | _ => none

/-- The number of entries in `lo … hi` whose offset is at most `offset`, plus `lo`, by bisection.
Every step halves the range, so that `fuel` steps suffice for a range shorter than `2 ^ fuel`. -/
def bisect (entries : Array (Nat × α)) (offset : Nat) : (fuel lo hi : Nat) → Nat
  | 0, lo, _ => lo
  | fuel + 1, lo, hi =>
    if lo < hi then
      let mid := (lo + hi) / 2
      match entries[mid]? with
      | some (start, _) =>
        if start ≤ offset then bisect entries offset fuel (mid + 1) hi else bisect entries offset fuel lo mid
      | none => lo
    else lo

/-- The element at an offset. -/
def lookup (table : OffsetTable α) (offset : Nat) : Lookup α :=
  if offset < table.start then .tooSmall
  else if table.next ≤ offset then .tooLarge
  else
    let index := bisect table.entries offset (table.size + 1) 0 table.size - 1
    match table.entries[index]? with
    | some (start, value) => if start = offset then .found index value else .inside index
    | none => .tooLarge

/-- The elements with their offsets in brackets, each printed as `#offset = element`. -/
def text (table : OffsetTable α) (element : α → String) : String :=
  let items := table.entries.toList.map fun (start, value) => s!"#{start} = " ++ element value
  "[" ++ ", ".intercalate items ++ "]"

end OffsetTable

end JvmAssembler
