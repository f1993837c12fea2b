import JvmAssembler.Bytes

/-!
# Access flags

Sets of flags of a class, a member and so on, each a two-byte word. What a bit means depends on what
the flags belong to, and only the bits that have a meaning there are kept.
-/

namespace JvmAssembler

/-- What a set of flags belongs to. -/
inductive FlagKind where
  | classFile | method | field | innerClass | parameter | moduleInfo
  deriving DecidableEq, Repr

namespace FlagKind

/-- The flags of each kind, by name. In a module, the flag of an open module and the flag of a
transitive requirement share their bit. -/
def table : FlagKind → List (String × UInt16)
  | classFile =>
    [("PUBLIC", 0x0001), ("FINAL", 0x0010), ("SUPER", 0x0020), ("INTERFACE", 0x0200),
      ("ABSTRACT", 0x0400), ("SYNTHETIC", 0x1000), ("ANNOTATION", 0x2000), ("ENUM", 0x4000),
      ("MODULE", 0x8000)]
  | method =>
    [("PUBLIC", 0x0001), ("PRIVATE", 0x0002), ("PROTECTED", 0x0004), ("STATIC", 0x0008),
      ("FINAL", 0x0010), ("SYNCHRONIZED", 0x0020), ("BRIDGE", 0x0040), ("VARARGS", 0x0080),
      ("NATIVE", 0x0100), ("ABSTRACT", 0x0400), ("STRICT", 0x0800), ("SYNTHETIC", 0x1000)]
  | field =>
    [("PUBLIC", 0x0001), ("PRIVATE", 0x0002), ("PROTECTED", 0x0004), ("STATIC", 0x0008),
      ("FINAL", 0x0010), ("VOLATILE", 0x0040), ("TRANSIENT", 0x0080), ("SYNTHETIC", 0x1000),
      ("ENUM", 0x4000)]
  | innerClass =>
    [("PUBLIC", 0x0001), ("PRIVATE", 0x0002), ("PROTECTED", 0x0004), ("STATIC", 0x0008),
      ("FINAL", 0x0010), ("INTERFACE", 0x0200), ("ABSTRACT", 0x0400), ("SYNTHETIC", 0x1000),
      ("ANNOTATION", 0x2000), ("ENUM", 0x4000)]
  | parameter => [("FINAL", 0x0010), ("SYNTHETIC", 0x1000), ("MANDATED", 0x8000)]
  | moduleInfo =>
    [("OPEN", 0x0020), ("TRANSITIVE", 0x0020), ("STATIC_PHASE", 0x0040), ("SYNTHETIC", 0x1000),
      ("MANDATED", 0x8000)]

/-- The bits that have a meaning. -/
def mask (kind : FlagKind) : UInt16 := kind.table.foldl (fun bits flag => bits ||| flag.2) 0

end FlagKind

/-- A set of flags of a kind. -/
structure Flags (kind : FlagKind) where
  bits : UInt16
  deriving DecidableEq, Repr

namespace Flags

variable {kind : FlagKind}

/-- No flags. -/
def none : Flags kind := ⟨0⟩

/-- All flags of the kind. -/
def all (kind : FlagKind) : Flags kind := ⟨kind.mask⟩

/-- The flags of a word, without the bits that have no meaning. -/
def truncate (kind : FlagKind) (bits : UInt16) : Flags kind := ⟨bits &&& kind.mask⟩

/-- The flags of a word all of whose bits have a meaning. -/
def ofBits? (kind : FlagKind) (bits : UInt16) : Option (Flags kind) :=
  if bits &&& kind.mask = bits then some ⟨bits⟩ else .none

/-- The flags with the given names, if every name is known. -/
def ofNames? (kind : FlagKind) (names : List String) : Option (Flags kind) := do
  let flags ← names.mapM fun name => kind.table.lookup name
  return ⟨flags.foldl (· ||| ·) 0⟩

/-- The flags as a two-byte word. -/
def encode (flags : Flags kind) : Bytes := Bytes.u16 flags.bits

end Flags

end JvmAssembler
