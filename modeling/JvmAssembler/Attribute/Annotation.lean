import JvmAssembler.Emission

/-!
# Annotations

An annotation names its interface and gives values to elements of it. A value may itself be an
annotation or an array of values, to any depth.
-/

namespace JvmAssembler

/-- The types of the values that are constants. -/
inductive ElementType where
  | byte | char | double | float | int | long | short | boolean | string
  deriving DecidableEq, Repr

/-- The character that stands for a type, as a byte. -/
def ElementType.tag : ElementType → UInt8
  | byte => 'B'.toUInt8 | char => 'C'.toUInt8 | double => 'D'.toUInt8 | float => 'F'.toUInt8
  | int => 'I'.toUInt8 | long => 'J'.toUInt8 | short => 'S'.toUInt8 | boolean => 'Z'.toUInt8
  | string => 's'.toUInt8

/-- An element of an annotation, with its value. -/
structure ElementPair (value : Type) where
  name : Cell
  value : value

/-- An annotation whose values are of type `value`. -/
structure AnnotationOf (value : Type) where
  /-- The descriptor of the annotation interface. -/
  typeName : Cell
  elements : List (ElementPair value)

/-- The value of an element. -/
inductive ElementValue where
  | constant (type : ElementType) (cell : Cell)
  /-- A constant of an enumeration. -/
  | enumerator (typeName : Cell) (constName : Cell)
  | classInfo (descriptor : Cell)
  /-- A value that is itself an annotation. -/
  | nested (value : AnnotationOf ElementValue)
  | array (values : List ElementValue)

/-- An annotation. -/
abbrev Annotation := AnnotationOf ElementValue

/-- The character that stands for the form of a value, as a byte. -/
def ElementValue.tag : ElementValue → UInt8
  | constant type _ => type.tag
  | enumerator _ _ => 'e'.toUInt8
  | classInfo _ => 'c'.toUInt8
  | nested _ => '@'.toUInt8
  | array _ => '['.toUInt8

/-! ## Lengths -/

mutual

/-- The length of a value in bytes. -/
def ElementValue.length : ElementValue → Nat
  | .constant _ _ | .classInfo _ => 3
  | .enumerator _ _ => 5
  | .nested value => 1 + AnnotationOf.length value
  | .array values => 3 + ElementValue.lengthAll values
termination_by structural value => value

/-- The length of values in a row. -/
def ElementValue.lengthAll : List ElementValue → Nat
  | [] => 0
  | value :: rest => value.length + ElementValue.lengthAll rest
termination_by structural values => values

/-- The length of an annotation in bytes. -/
def AnnotationOf.length : AnnotationOf ElementValue → Nat
  | ⟨_, elements⟩ => 4 + ElementPair.lengthAll elements
termination_by structural value => value

/-- The length of elements in a row. -/
def ElementPair.lengthAll : List (ElementPair ElementValue) → Nat
  | [] => 0
  | pair :: rest => ElementPair.length pair + ElementPair.lengthAll rest
termination_by structural pairs => pairs

/-- The length of an element in bytes. -/
def ElementPair.length : ElementPair ElementValue → Nat
  | ⟨_, value⟩ => 2 + value.length
termination_by structural pair => pair

end

/-! ## Bytes -/

mutual

/-- The bytes of a value. -/
def ElementValue.emit : ElementValue → Emit Bytes
  | .constant type cell => return type.tag :: (← Emit.cell cell)
  | .enumerator typeName constName => do
    return 'e'.toUInt8 :: ((← Emit.cell typeName) ++ (← Emit.cell constName))
  | .classInfo descriptor => return 'c'.toUInt8 :: (← Emit.cell descriptor)
  | .nested value => return '@'.toUInt8 :: (← AnnotationOf.emit value)
  | .array values => do
    return '['.toUInt8 :: ((← Emit.count 2 "records" values.length) ++ (← ElementValue.emitAll values []))
termination_by structural value => value

/-- The bytes of values in a row, behind those that are `done`, the last of which comes first. -/
def ElementValue.emitAll : List ElementValue → (done : List Bytes) → Emit Bytes
  | [], done => return done.reverse.flatten
  | value :: rest, done => do
    let bytes ← value.emit
    ElementValue.emitAll rest (bytes :: done)
termination_by structural values => values

/-- The bytes of an annotation. -/
def AnnotationOf.emit : AnnotationOf ElementValue → Emit Bytes
  | ⟨typeName, elements⟩ => do
    return (← Emit.cell typeName) ++ (← Emit.count 2 "records" elements.length)
      ++ (← ElementPair.emitAll elements [])
termination_by structural value => value

/-- The bytes of elements in a row, behind those that are `done`, the last of which comes first. -/
def ElementPair.emitAll : List (ElementPair ElementValue) → (done : List Bytes) → Emit Bytes
  | [], done => return done.reverse.flatten
  | pair :: rest, done => do
    let bytes ← ElementPair.emit pair
    ElementPair.emitAll rest (bytes :: done)
termination_by structural pairs => pairs

/-- The bytes of an element. -/
def ElementPair.emit : ElementPair ElementValue → Emit Bytes
  | ⟨name, value⟩ => return (← Emit.cell name) ++ (← value.emit)
termination_by structural pair => pair

end

end JvmAssembler
