import JvmAssembler.Bytes

/-!
# Class file versions

A version has a major and a minor number. Versions are ordered by the major number first.
-/

namespace JvmAssembler

/-- The version of a class file. -/
structure Version where
  major : UInt16
  minor : UInt16 := 0
  deriving DecidableEq, Repr

namespace Version

/-- Java 8. -/
def java8 : Version := { major := 52 }

/-- Java 11. -/
def java11 : Version := { major := 55 }

/-- Java 17. -/
def java17 : Version := { major := 61 }

/-- Java 21. -/
def java21 : Version := { major := 65 }

/-- The order of versions: by the major number, then by the minor one. -/
def compare (a b : Version) : Ordering := (Ord.compare a.major b.major).then (Ord.compare a.minor b.minor)

/-- Whether class files of this version may hold dynamically computed constants. -/
def hasDynamicConstants (version : Version) : Bool := 55 ≤ version.major

/-- The version as it stands in a class file, the minor number first. -/
def encode (version : Version) : Bytes := Bytes.u16 version.minor ++ Bytes.u16 version.major

end Version

end JvmAssembler
