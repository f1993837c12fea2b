/-!
# Byte sequences

A class file is a sequence of bytes in which every number is written big-endian in a fixed number of
bytes. `be k n` holds the `k` low-order bytes of `n`, most significant first, and `beInt k z` does
the same for the two's complement form of an integer. There are `capacity k` sequences of `k` bytes.
-/

namespace JvmAssembler

/-- The bytes of a class file, or of a part of one. -/
abbrev Bytes := List UInt8

namespace Bytes

/-- How many numbers `width` bytes tell apart. -/
def capacity : (width : Nat) → Nat
  | 0 => 1
  | width + 1 => 256 * capacity width

/-- The `width` low-order bytes of `n`, most significant first. -/
def be : (width : Nat) → (n : Nat) → Bytes
  | 0, _ => []
  | width + 1, n => UInt8.ofNat (n / capacity width) :: be width n

/-- The `width` low-order bytes of the two's complement form of `z`, most significant first. -/
def beInt (width : Nat) (z : Int) : Bytes :=
  be width (z % capacity width).toNat

/-- A two-byte word. -/
def u16 (w : UInt16) : Bytes := be 2 w.toNat

/-- The number that a byte sequence spells, most significant byte first. -/
def toNat (bytes : Bytes) : Nat :=
  bytes.foldl (fun n b => 256 * n + b.toNat) 0

@[simp] theorem length_be (width n : Nat) : (be width n).length = width := by
  induction width with
  | zero => rfl
  | succ width ih => simp [be, ih]

@[simp] theorem length_beInt (width : Nat) (z : Int) : (beInt width z).length = width := by
  simp [beInt]

@[simp] theorem length_u16 (w : UInt16) : (u16 w).length = 2 := by
  simp [u16]

end Bytes

end JvmAssembler
