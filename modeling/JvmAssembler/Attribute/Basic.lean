import JvmAssembler.Attribute.Annotation
import JvmAssembler.Attribute.ModuleInfo
import JvmAssembler.Bytecode.Body

/-!
# Attributes

Classes, fields, methods, code and record components carry attributes. Many attributes have the same
form and differ only in name, so `Payload` has a constructor for each form. Code and record
components carry attributes of their own, to any depth.

This module holds the attributes and their lengths. The length of an attribute depends on its form
alone, never on what its references turn out to be, because it is written in front of the contents.
-/

namespace JvmAssembler

/-- The attributes that are one constant. -/
inductive CellAttribute where
  | constantValue | signature | sourceFile | nestHost | moduleMainClass
  deriving DecidableEq, Repr

/-- The attributes that are a list of constants. -/
inductive CellsAttribute where
  | exceptions | nestMembers | permittedSubclasses | loadableDescriptors | modulePackages
  deriving DecidableEq, Repr

/-- The attributes that have no contents. -/
inductive MarkerAttribute where
  | deprecated | synthetic
  deriving DecidableEq, Repr

/-- What a table of local variables gives for each of them. -/
inductive VariableTable where
  /-- A descriptor. -/
  | descriptors
  /-- A signature. -/
  | signatures
  deriving DecidableEq, Repr

/-- Whether annotations can be seen by the running program. -/
inductive Visibility where
  | visible | invisible
  deriving DecidableEq, Repr

/-- A class that is declared inside of another one, or used as if it were. -/
structure InnerClass where
  inner : Cell
  outer : Option Cell
  name : Option Cell
  flags : Flags .innerClass
  deriving DecidableEq, Repr

/-- The source line of the code from a label on. -/
structure LineNumber where
  start : Label
  line : UInt16
  deriving DecidableEq, Repr

/-- A local variable, with the code in which it has a value. -/
structure LocalVariable where
  start : Label
  /-- The end of the range, which is not part of it. -/
  stop : Label
  name : Cell
  descriptor : Cell
  index : UInt16
  deriving DecidableEq, Repr

/-- A parameter of a method. -/
structure MethodParameter where
  name : Option Cell
  flags : Flags .parameter
  deriving DecidableEq, Repr

/-- An exception handler, with the code that it covers. -/
structure Handler where
  start : Label
  /-- The end of the range, which is not part of it. -/
  stop : Label
  handler : Label
  /-- The class of exceptions that are caught; all of them if absent. -/
  catchType : Option Cell
  deriving DecidableEq, Repr

/-- The code of a method as an attribute, with attributes of type `α`. -/
structure CodeOf (α : Type) where
  maxStack : UInt16
  maxLocals : UInt16
  body : Body
  handlers : List Handler
  attributes : List α

/-- A component of a record class, with attributes of type `α`. -/
structure ComponentOf (α : Type) where
  name : Cell
  descriptor : Cell
  attributes : List α

/-- The contents of an attribute, in which nested attributes are of type `α`. -/
inductive Payload (α : Type) where
  | cell (kind : CellAttribute) (cell : Cell)
  | cells (kind : CellsAttribute) (cells : List Cell)
  | marker (kind : MarkerAttribute)
  | debugExtension (bytes : Bytes)
  | code (code : CodeOf α)
  | innerClasses (items : List InnerClass)
  | enclosingMethod (owner : Cell) (method : Option Cell)
  | lineNumbers (items : List LineNumber)
  | localVariables (table : VariableTable) (items : List LocalVariable)
  | methodParameters (items : List MethodParameter)
  | annotations (visibility : Visibility) (items : List Annotation)
  | parameterAnnotations (visibility : Visibility) (items : List (List Annotation))
  | annotationDefault (value : ElementValue)
  | moduleInfo (info : ModuleInfo)
  | record (components : List (ComponentOf α))
  | bootstrapMethods (items : List Bootstrap)
  /-- The contents of an attribute with a name of its own, as they are. -/
  | raw (bytes : Bytes)

/-- An attribute. -/
structure Attribute where
  name : Cell
  payload : Payload Attribute

/-- The code of a method as an attribute. -/
abbrev Code := CodeOf Attribute

/-- A component of a record class. -/
abbrev Component := ComponentOf Attribute

/-! ## Names -/

/-- The name of an attribute that is one constant. -/
def CellAttribute.name : CellAttribute → String
  | constantValue => "ConstantValue" | signature => "Signature" | sourceFile => "SourceFile"
  | nestHost => "NestHost" | moduleMainClass => "ModuleMainClass"

/-- The name of an attribute that is a list of constants. -/
def CellsAttribute.name : CellsAttribute → String
  | exceptions => "Exceptions" | nestMembers => "NestMembers"
  | permittedSubclasses => "PermittedSubclasses" | loadableDescriptors => "LoadableDescriptors"
  | modulePackages => "ModulePackages"

/-- The name of an attribute without contents. -/
def MarkerAttribute.name : MarkerAttribute → String
  | deprecated => "Deprecated" | synthetic => "Synthetic"

/-- The name of the attribute with these contents, which is empty for raw contents. -/
def Payload.name {α : Type} : Payload α → String
  | cell kind _ => kind.name
  | cells kind _ => kind.name
  | marker kind => kind.name
  | debugExtension _ => "SourceDebugExtension"
  | code _ => "Code"
  | innerClasses _ => "InnerClasses"
  | enclosingMethod _ _ => "EnclosingMethod"
  | lineNumbers _ => "LineNumberTable"
  | localVariables .descriptors _ => "LocalVariableTable"
  | localVariables .signatures _ => "LocalVariableTypeTable"
  | methodParameters _ => "MethodParameters"
  | annotations .visible _ => "RuntimeVisibleAnnotations"
  | annotations .invisible _ => "RuntimeInvisibleAnnotations"
  | parameterAnnotations .visible _ => "RuntimeVisibleParameterAnnotations"
  | parameterAnnotations .invisible _ => "RuntimeInvisibleParameterAnnotations"
  | annotationDefault _ => "AnnotationDefault"
  | moduleInfo _ => "Module"
  | record _ => "Record"
  | bootstrapMethods _ => "BootstrapMethods"
  | raw _ => ""

/-- The width in bytes of the count in front of the items of an attribute that is a list. -/
def Payload.countWidth {α : Type} : Payload α → Nat
  | methodParameters _ | parameterAnnotations _ _ => 1
  | _ => 2

/-! ## Lengths -/

/-- The length of a bootstrap method in bytes. -/
def Bootstrap.length (method : Bootstrap) : Nat := 4 + 2 * method.arguments.length

mutual

/-- The length of an attribute in bytes, its name and its length included. -/
def Attribute.length : Attribute → Nat
  | ⟨_, payload⟩ => 6 + Payload.length payload
termination_by structural nested => nested

/-- The length of the contents of an attribute in bytes. -/
def Payload.length (payload : Payload Attribute) : Nat :=
  let width := payload.countWidth
  match payload with
  | .cell _ _ => 2
  | .cells _ cells => Emit.cellsLength cells
  | .marker _ => 0
  | .debugExtension bytes | .raw bytes => bytes.length
  | .code code => Code.length code
  | .innerClasses items => width + 8 * items.length
  | .enclosingMethod _ _ => 4
  | .lineNumbers items => width + 4 * items.length
  | .localVariables _ items => width + 10 * items.length
  | .methodParameters items => width + 4 * items.length
  | .annotations _ items => Emit.countedLength width items AnnotationOf.length
  | .parameterAnnotations _ items =>
    Emit.countedLength width items fun annotations => Emit.recordsLength annotations AnnotationOf.length
  | .annotationDefault value => value.length
  | .moduleInfo info => info.length
  | .record components => width + Component.lengthAll components
  | .bootstrapMethods items => Emit.countedLength width items Bootstrap.length
termination_by structural payload

/-- The length of code in bytes, with its handlers and attributes. -/
def Code.length : CodeOf Attribute → Nat
  | ⟨_, _, body, handlers, attributes⟩ =>
    2 + 2 + 4 + body.codeLength + (2 + 8 * handlers.length) + (2 + Attribute.lengthAll attributes)
termination_by structural code => code

/-- The length of attributes in a row. -/
def Attribute.lengthAll : List Attribute → Nat
  | [] => 0
  | nested :: rest => nested.length + Attribute.lengthAll rest
termination_by structural attributes => attributes

/-- The length of a component in bytes. -/
def Component.length : ComponentOf Attribute → Nat
  | ⟨_, _, attributes⟩ => 4 + (2 + Attribute.lengthAll attributes)
termination_by structural component => component

/-- The length of components in a row. -/
def Component.lengthAll : List (ComponentOf Attribute) → Nat
  | [] => 0
  | component :: rest => Component.length component + Component.lengthAll rest
termination_by structural components => components

end

end JvmAssembler
