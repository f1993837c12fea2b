import JvmAssembler.ModifiedUtf8
import JvmAssembler.Pool.Finalize

/-!
# Constant pools as bytes

A finalized pool is written as the number of its indices, the reserved one included, and then its
entries in order: a tag byte and what the kind of constant asks for, with an index for each
reference.
-/

namespace JvmAssembler

/-- The constant with each reference replaced, if each of them can be. -/
def Constant.mapM {m : Type → Type} [Monad m] {ref other : Type} (f : ref → m other) :
    Constant ref → m (Constant other)
  | zero => pure zero
  | utf8 text => pure (utf8 text)
  | integer value => pure (integer value)
  | float bits => pure (float bits)
  | long value => pure (long value)
  | double bits => pure (double bits)
  | wrapper kind name => return wrapper kind (← f name)
  | member kind owner signature => return member kind (← f owner) (← f signature)
  | nameAndType name descriptor => return nameAndType (← f name) (← f descriptor)
  | methodHandle kind target => return methodHandle kind (← f target)
  | dynamic kind bootstrap signature => return dynamic kind bootstrap (← f signature)

/-- What follows the tag of a constant whose references are indices. A text must fit a two-byte
length. -/
def Constant.payload : Constant Nat → Except AssemblyError Bytes
  | zero => .ok []
  | utf8 text =>
    let bytes := ModifiedUtf8.encode text
    if bytes.length < Bytes.capacity 2 then .ok (Bytes.be 2 bytes.length ++ bytes)
    else .error (.utf8TooLong bytes.length)
  | integer value => .ok (Bytes.beInt 4 value.toInt)
  | float bits => .ok (Bytes.be 4 bits.toNat)
  | long value => .ok (Bytes.beInt 8 value.toInt)
  | double bits => .ok (Bytes.be 8 bits.toNat)
  | wrapper _ name => .ok (Bytes.be 2 name)
  | member _ owner signature => .ok (Bytes.be 2 owner ++ Bytes.be 2 signature)
  | nameAndType name descriptor => .ok (Bytes.be 2 name ++ Bytes.be 2 descriptor)
  | methodHandle kind target => .ok (kind.byte :: Bytes.be 2 target)
  | dynamic _ bootstrap signature => .ok (Bytes.u16 bootstrap ++ Bytes.be 2 signature)

/-- An entry of a pool: the tag and what follows it. -/
def Constant.encode (value : Constant Nat) : Except AssemblyError Bytes := do
  return value.tag.byte :: (← value.payload)

namespace Pool

/-- The entry that a cell owns, with its references as indices. -/
def encodeEntry (pool : Pool) (cell : Cell) : Except AssemblyError Bytes :=
  match pool.get? cell with
  | none => .error (.unresolvedConstant cell)
  | some value => do (← value.mapM pool.indexOf).encode

/-- The bytes of a finalized pool. -/
def encode (pool : Pool) : Except AssemblyError Bytes :=
  match pool.layout with
  | none => .error (.unresolvedConstant .zero)
  | some layout => do
    let entries ← layout.entries.toList.mapM fun (_, cell) => pool.encodeEntry cell
    return Bytes.be 2 layout.next ++ entries.flatten

end Pool

end JvmAssembler
