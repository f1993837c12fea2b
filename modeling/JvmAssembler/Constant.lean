/-!
# Constants

The entries of a constant pool. A constant may refer to other constants, so `Constant ref` is
parametrised by what stands for such a reference: a `Cell` while the pool is being built, a pool
index in the written class file, and `Unit` where only the shape matters. `Constant.map` changes the
references, and a constant is determined by its shape and the list of its references.
-/

namespace JvmAssembler

/-- A handle to a constant of a pool, given out before the constant has an index. -/
structure Cell where
  /-- The number of the cell, counted in the order of creation. There are taken to be fewer cells than 32 bits can
  count, so that numbers do not wrap around. -/
  id : Nat
  deriving DecidableEq, Hashable, Repr, Inhabited

/-- The cell of the reserved entry at index 0. -/
def Cell.zero : Cell := ⟨0⟩

/-- The text of a cell in messages. -/
def Cell.text (cell : Cell) : String := s!"ConstCell({cell.id})"

/-- The kinds of constants, each with its tag byte. -/
inductive Tag where
  | zero | utf8 | integer | float | long | double | classInfo | stringInfo | fieldRef | methodRef
  | interfaceMethodRef | nameAndType | methodHandle | methodType | dynamic | invokeDynamic
  | moduleInfo | packageInfo
  deriving DecidableEq, Hashable, Repr

namespace Tag

/-- Every tag, in the order of their bytes. -/
def all : List Tag :=
  [zero, utf8, integer, float, long, double, classInfo, stringInfo, fieldRef, methodRef,
    interfaceMethodRef, nameAndType, methodHandle, methodType, dynamic, invokeDynamic, moduleInfo,
    packageInfo]

/-- The byte in front of an entry of this kind. -/
def byte : Tag → UInt8
  | zero => 0 | utf8 => 1 | integer => 3 | float => 4 | long => 5 | double => 6 | classInfo => 7
  | stringInfo => 8 | fieldRef => 9 | methodRef => 10 | interfaceMethodRef => 11 | nameAndType => 12
  | methodHandle => 15 | methodType => 16 | dynamic => 17 | invokeDynamic => 18 | moduleInfo => 19
  | packageInfo => 20

/-- The name of the kind in messages. -/
def name : Tag → String
  | zero => "Zero" | utf8 => "Utf8" | integer => "Integer" | float => "Float" | long => "Long"
  | double => "Double" | classInfo => "Class" | stringInfo => "String" | fieldRef => "FieldRef"
  | methodRef => "MethodRef" | interfaceMethodRef => "InterfaceMethodRef"
  | nameAndType => "NameAndType" | methodHandle => "MethodHandle" | methodType => "MethodType"
  | dynamic => "Dynamic" | invokeDynamic => "InvokeDynamic" | moduleInfo => "Module"
  | packageInfo => "Package"

/-- The kind with the given name. -/
def ofName? (name : String) : Option Tag := all.find? (·.name == name)

end Tag

/-- What a method handle does with its member. -/
inductive HandleKind where
  | getField | getStatic | putField | putStatic | invokeVirtual | invokeStatic | invokeSpecial
  | newInvokeSpecial | invokeInterface
  deriving DecidableEq, Hashable, Repr

namespace HandleKind

/-- Every kind, in the order of their bytes. -/
def all : List HandleKind :=
  [getField, getStatic, putField, putStatic, invokeVirtual, invokeStatic, invokeSpecial,
    newInvokeSpecial, invokeInterface]

/-- The byte that stands for the kind. -/
def byte : HandleKind → UInt8
  | getField => 1 | getStatic => 2 | putField => 3 | putStatic => 4 | invokeVirtual => 5
  | invokeStatic => 6 | invokeSpecial => 7 | newInvokeSpecial => 8 | invokeInterface => 9

/-- The name of the kind. -/
def name : HandleKind → String
  | getField => "GetField" | getStatic => "GetStatic" | putField => "PutField"
  | putStatic => "PutStatic" | invokeVirtual => "InvokeVirtual" | invokeStatic => "InvokeStatic"
  | invokeSpecial => "InvokeSpecial" | newInvokeSpecial => "NewInvokeSpecial"
  | invokeInterface => "InvokeInterface"

/-- The kind that a byte stands for. -/
def ofByte? (byte : UInt8) : Option HandleKind := all.find? (·.byte == byte)

end HandleKind

/-- The kinds of constants that only wrap a name: a class is its binary name, a string its contents. -/
inductive Wrapper where
  | classInfo | stringInfo | methodType | moduleInfo | packageInfo
  deriving DecidableEq, Hashable, Repr

/-- The tag of a wrapper. -/
def Wrapper.tag : Wrapper → Tag
  | classInfo => .classInfo | stringInfo => .stringInfo | methodType => .methodType
  | moduleInfo => .moduleInfo | packageInfo => .packageInfo

/-- The wrapper with the given tag, for the tags that wrap a name. -/
def Tag.wrapper? : Tag → Option Wrapper
  | classInfo => some .classInfo | stringInfo => some .stringInfo | methodType => some .methodType
  | moduleInfo => some .moduleInfo | packageInfo => some .packageInfo | _ => none

/-- The kinds of members of a class that a constant may name. -/
inductive MemberKind where
  | field | method | interfaceMethod
  deriving DecidableEq, Hashable, Repr

/-- The tag of a member reference. -/
def MemberKind.tag : MemberKind → Tag
  | field => .fieldRef | method => .methodRef | interfaceMethod => .interfaceMethodRef

/-- What a bootstrap method computes: a constant, or the target of a call site. -/
inductive DynamicKind where
  | constant | callSite
  deriving DecidableEq, Hashable, Repr

/-- The tag of a dynamically computed constant or call site. -/
def DynamicKind.tag : DynamicKind → Tag
  | constant => .dynamic | callSite => .invokeDynamic

/-- A constant whose references to other constants are of type `ref`. Floating point numbers are
kept as their bits, so that every NaN is distinct and `-0` is not `0`. -/
inductive Constant (ref : Type) where
  /-- The reserved entry at index 0. -/
  | zero
  | utf8 (text : String)
  | integer (value : Int32)
  | float (bits : UInt32)
  | long (value : Int64)
  | double (bits : UInt64)
  /-- A class, string, method type, module or package. -/
  | wrapper (kind : Wrapper) (name : ref)
  /-- A member of a class, with its `NameAndType` as signature. -/
  | member (kind : MemberKind) (owner : ref) (signature : ref)
  | nameAndType (name : ref) (descriptor : ref)
  | methodHandle (kind : HandleKind) (target : ref)
  /-- A dynamically computed constant or call site, with the position of its bootstrap method. -/
  | dynamic (kind : DynamicKind) (bootstrap : UInt16) (signature : ref)
  deriving DecidableEq, Hashable, Repr

namespace Constant

variable {ref other : Type}

/-- The kind of a constant. -/
def tag : Constant ref → Tag
  | zero => .zero
  | utf8 _ => .utf8
  | integer _ => .integer
  | float _ => .float
  | long _ => .long
  | double _ => .double
  | wrapper kind _ => kind.tag
  | member kind _ _ => kind.tag
  | nameAndType _ _ => .nameAndType
  | methodHandle _ _ => .methodHandle
  | dynamic kind _ _ => kind.tag

/-- The constants that a constant refers to, in the order in which they are written. -/
def refs : Constant ref → List ref
  | wrapper _ name => [name]
  | member _ owner signature => [owner, signature]
  | nameAndType name descriptor => [name, descriptor]
  | methodHandle _ target => [target]
  | dynamic _ _ signature => [signature]
  | _ => []

/-- The constant with each reference replaced. -/
def map (f : ref → other) : Constant ref → Constant other
  | zero => zero
  | utf8 text => utf8 text
  | integer value => integer value
  | float bits => float bits
  | long value => long value
  | double bits => double bits
  | wrapper kind name => wrapper kind (f name)
  | member kind owner signature => member kind (f owner) (f signature)
  | nameAndType name descriptor => nameAndType (f name) (f descriptor)
  | methodHandle kind target => methodHandle kind (f target)
  | dynamic kind bootstrap signature => dynamic kind bootstrap (f signature)

/-- The constant without its references. -/
def shape (value : Constant ref) : Constant Unit := value.map fun _ => ()

/-- The number of pool indices that a constant takes: two for `long` and `double`, one for all
others. -/
def width : Constant ref → Nat
  | long _ | double _ => 2
  | _ => 1

/-- The position of the bootstrap method of a dynamically computed constant or call site. -/
def bootstrap? : Constant ref → Option UInt16
  | dynamic _ bootstrap _ => some bootstrap
  | _ => none

end Constant

end JvmAssembler
