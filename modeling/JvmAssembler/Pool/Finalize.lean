import JvmAssembler.Pool.Intern

/-!
# Giving out indices

Finalizing a pool binds the promised wrappers, which may add entries; numbers the entries in order,
starting at 1; and binds the explicit indices to the entries that got them. A failure leaves the
pool open, with what was done before the failure.
-/

namespace JvmAssembler.Pool

/-- The largest number of indices that a pool may need, the reserved index 0 included. -/
def indexLimit : Nat := 65535

/-- Binds a cell if it is a promised wrapper. -/
def bindPromise (id : Nat) : PoolM Unit := fun pool =>
  match pool.slots[id]? with
  | some { binding := .promised _ _, .. } => (discard (resolve ⟨id⟩)) pool
  | _ => .ok () pool

/-- Binds all promised wrappers, in the order of their cells. -/
def bindPromises : PoolM Unit := fun pool => (List.range pool.slots.size).forM bindPromise pool

/-- The number of indices that the entry of a cell takes. -/
def entryWidth (pool : Pool) (cell : Cell) : Nat :=
  match pool.slot? cell with
  | some { binding := .owned value, .. } => value.width
  | _ => 1

/-- The entries by index. -/
def numbering (pool : Pool) : OffsetTable Cell :=
  pool.order.foldl (fun table cell => (table.push (pool.entryWidth cell) cell).2) (.startingAt 1)

/-- The pool in which every entry has the index that the numbering gives it. -/
def assignIndices (pool : Pool) (numbering : OffsetTable Cell) : Pool :=
  { pool with
    slots := numbering.entries.foldl
      (fun slots (index, cell) => slots.modify cell.id fun slot => { slot with index := some index })
      pool.slots }

/-- The first entry that refers past the end of the bootstrap methods. -/
def undefinedBootstrap? (pool : Pool) : Option UInt16 :=
  pool.order.toList.findSome? fun cell =>
    match (pool.get? cell).bind Constant.bootstrap? with
    | some bootstrap => if pool.bootstraps.size ≤ bootstrap.toNat then some bootstrap else none
    | none => none

/-- Binds a cell if it stands for an explicit index. The reserved index 0 is allowed, with a
warning. -/
def bindReference (numbering : OffsetTable Cell) (id : Nat) : Reporting Pool Unit := fun ⟨pool, warnings⟩ =>
  match pool.slots[id]? with
  | some { binding := .indexed index position, .. } =>
    if index = 0 then
      .ok () ⟨pool.bind ⟨id⟩ .zero, warnings.push ⟨position, .zeroReference⟩⟩
    else
      match (numbering.lookup index.toNat).value? with
      | some target => .ok () ⟨pool.bind ⟨id⟩ target, warnings⟩
      | none => .error (.invalidReference index) ⟨pool, warnings⟩
  | _ => .ok () ⟨pool, warnings⟩

/-- Binds all explicit indices, in the order of their cells. -/
def bindReferences (numbering : OffsetTable Cell) : Reporting Pool Unit := fun s =>
  (List.range s.state.slots.size).forM (bindReference numbering) s

/-- Numbers the entries and checks that everything that refers to a number refers to an entry. -/
def giveIndices : Reporting Pool Unit := fun ⟨pool, warnings⟩ =>
  let numbering := pool.numbering
  if indexLimit < numbering.next then .error (.poolOverflow (numbering.next - 1)) ⟨pool, warnings⟩
  else
    let pool := pool.assignIndices numbering
    match pool.undefinedBootstrap? with
    | some bootstrap => .error (.undefinedBootstrap bootstrap) ⟨pool, warnings⟩
    | none =>
      match bindReferences numbering ⟨pool, warnings⟩ with
      | .error e s => .error e s
      | .ok _ ⟨pool, warnings⟩ => .ok () ⟨{ pool with layout := some numbering }, warnings⟩

/-- Gives out the indices. A pool that has them already stays as it is. -/
def finalize : Reporting Pool Unit := fun s =>
  if s.state.isFinalized then .ok () s
  else
    match Reporting.lift bindPromises s with
    | .error e s => .error e s
    | .ok _ s => giveIndices s

end JvmAssembler.Pool
