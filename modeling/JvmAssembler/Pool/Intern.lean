import JvmAssembler.Bytes
import JvmAssembler.Pool.Basic

/-!
# Requests for constants

The operations by which a pool grows. `intern` gives the cell of a constant and adds the constant if
the pool has no equal one; `reference` and `promise` give cells whose constant is decided later;
`resolve` decides a promised one. Each of them may fail, and the pool that a failure leaves behind
is part of the answer.
-/

namespace JvmAssembler

/-- An operation on a pool. -/
abbrev PoolM := EStateM AssemblyError Pool

namespace Pool

/-- The pool with one more cell. -/
def pushSlot (pool : Pool) (binding : Binding) : Pool :=
  { pool with slots := pool.slots.push { binding } }

/-- The pool with one more entry, owned by the next cell. -/
def addEntry (pool : Pool) (value : Constant Cell) : Pool :=
  let cell : Cell := ⟨pool.slots.size⟩
  let content := pool.contentOf? value
  let ⟨slots, order, byValue, byContent, bootstraps, bootstrapIndex, layout⟩ := pool
  { slots := slots.push { binding := .owned value }
    order := order.push cell
    byValue := byValue.insert value cell
    byContent := match content with
      | some content => byContent.insert content cell
      | none => byContent
    bootstraps, bootstrapIndex, layout }

/-- The cell of a constant. An entry that is equal by value is used again; otherwise the constant
becomes a new entry, unless the pool is finalized. There is no answer if the search for an equal entry has no end. -/
def intern (value : Constant Cell) : PoolM Cell := fun pool =>
  if value = .zero then .ok .zero pool
  else
    match pool.find value with
    | .error e => .error e pool
    | .ok (some cell) => .ok cell pool
    | .ok none =>
      if pool.isFinalized then .error .poolFinalized pool
      else .ok ⟨pool.slots.size⟩ (pool.addEntry value)

/-- A new cell that stands for whatever entry gets the given index. -/
def reference (index : UInt16) (position : Nat) : PoolM Cell := fun pool =>
  if pool.isFinalized then .error .poolFinalized pool
  else .ok ⟨pool.slots.size⟩ (pool.pushSlot (.indexed index position))

/-- A new cell that stands for the wrapper of a name, to be bound to an equal entry or to a new one
when it is resolved. -/
def promise (tag : Tag) (name : Cell) : PoolM Cell := fun pool =>
  match tag.wrapper? with
  | none => .error (.unexpectedConstant .classInfo tag) pool
  | some kind =>
    if pool.isFinalized then .error .poolFinalized pool
    else .ok ⟨pool.slots.size⟩ (pool.pushSlot (.promised kind name))

/-- The pool in which the state of a cell is changed. -/
def modifySlot (pool : Pool) (cell : Cell) (f : Slot → Slot) : Pool :=
  let ⟨slots, order, byValue, byContent, bootstraps, bootstrapIndex, layout⟩ := pool
  { slots := slots.modify cell.id f, order, byValue, byContent, bootstraps, bootstrapIndex, layout }

/-- The pool in which the rank of the entry that a cell stands for is at least `rank`. -/
def setRank (pool : Pool) (cell : Cell) (rank : Rank) : Pool :=
  let owner := pool.canonical cell
  pool.modifySlot owner fun slot => { slot with rank := slot.rank.max rank }

/-- The pool in which a cell is an alias of what `target` stands for. The rank of the cell carries
over. -/
def bind (pool : Pool) (cell target : Cell) : Pool :=
  let target := pool.canonical target
  if cell = target then pool
  else
    let rank := match pool.slot? cell with
      | some slot => slot.rank
      | none => .unused
    (pool.modifySlot cell fun slot => { slot with binding := .alias target }).setRank target rank

/-- The cell that owns the entry of a cell, where promises of promises are followed to a depth of less
than `fuel`. Where they lead deeper, following them is taken to have no end. -/
def resolveWithin : (fuel : Nat) → Cell → PoolM Cell
  | 0, _ => throw .endless
  | fuel + 1, cell => fun pool =>
    let owner := pool.canonical cell
    match pool.slot? owner with
    | none => .error (.unresolvedConstant owner) pool
    | some { binding := .owned _, .. } | some { binding := .alias _, .. } => .ok owner pool
    | some { binding := .indexed _ _, .. } =>
      if pool.isFinalized then .error (.unresolvedConstant owner) pool else .ok owner pool
    | some { binding := .promised kind name, .. } =>
      match resolveWithin fuel name pool with
      | .error e pool => .error e pool
      | .ok name pool =>
        match pool.find (.wrapper kind name) with
        | .error e => .error e pool
        | .ok (some target) => .ok target (pool.bind owner target)
        | .ok none =>
          if pool.isFinalized then .error (.unresolvedConstant owner) pool
          else
            let target : Cell := ⟨pool.slots.size⟩
            .ok target ((pool.addEntry (.wrapper kind name)).bind owner target)

/-- The cell that owns the entry of a cell. A promised wrapper is bound to an equal entry, or to a
new one. A cell of an explicit index stays as it is until the pool is finalized. Promises that are followed past the
number of cells lead back to themselves, so that following them has no end. -/
def resolve (cell : Cell) : PoolM Cell := fun pool => resolveWithin (pool.slots.size + 1) cell pool

/-- The position of a bootstrap method, which is added if it is new. -/
def bootstrap (handle : Cell) (arguments : List Cell) : PoolM UInt16 := fun pool =>
  let method : Bootstrap := ⟨handle, arguments⟩
  match pool.bootstrapIndex[method]? with
  | some index => .ok index pool
  | none =>
    if pool.isFinalized then .error .poolFinalized pool
    else
      let count := pool.bootstraps.size
      if count < Bytes.capacity 2 then
        let index := UInt16.ofNat count
        .ok index { pool with
          bootstraps := pool.bootstraps.push method
          bootstrapIndex := pool.bootstrapIndex.insert method index }
      else .error (.countOverflow "bootstrap methods" count) pool

/-! ## Constants by their text -/

/-- The cell of a text. -/
def utf8 (text : String) : PoolM Cell := intern (.utf8 text)

/-- The cell of the wrapper of a text. -/
def wrapper (kind : Wrapper) (text : String) : PoolM Cell := do
  let name ← utf8 text
  intern (.wrapper kind name)

/-- The cell of a name with a descriptor. -/
def nameAndType (name descriptor : String) : PoolM Cell := do
  let name ← utf8 name
  let descriptor ← utf8 descriptor
  intern (.nameAndType name descriptor)

/-- The cell of a member of a class. -/
def member (kind : MemberKind) (owner name descriptor : String) : PoolM Cell := do
  let owner ← wrapper .classInfo owner
  let signature ← nameAndType name descriptor
  intern (.member kind owner signature)

/-- The cell of a dynamically computed constant or call site. -/
def dynamic (kind : DynamicKind) (bootstrap : UInt16) (name descriptor : String) : PoolM Cell := do
  let signature ← nameAndType name descriptor
  intern (.dynamic kind bootstrap signature)

end Pool

end JvmAssembler
