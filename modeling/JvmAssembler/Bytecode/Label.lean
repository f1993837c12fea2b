/-!
# Labels

A label names a place in the code of a method. Labels are numbered in the order of their creation.
-/

namespace JvmAssembler

/-- A place in the code of a method, known by its number. -/
structure Label where
  /-- The number of the label. There are taken to be fewer labels than 32 bits can count, so that numbers do not wrap
  around. -/
  id : Nat
  deriving DecidableEq, Hashable, Repr, Inhabited

/-- The text of a label in messages, which is also the name of a label made without one. -/
def Label.text (label : Label) : String := s!"l{label.id}"

end JvmAssembler
