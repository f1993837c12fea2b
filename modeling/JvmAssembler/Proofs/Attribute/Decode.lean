import JvmAssembler.Attribute.Emit
import JvmAssembler.Proofs.Outcome
import JvmAssembler.Proofs.Pool.Decode

/-!
# Reading attributes

The contents of attributes as a reader of bytes sees them: indices in place of cells, program counters in place
of labels, and code as the bytes that it takes. `readPayload` reads the contents of an attribute of a given name
and length, and `Payload.resolved` is what a reader is expected to find. Which fields an attribute has is given
here by its name alone; the names of the attributes inside are looked up by their indices.
-/

namespace JvmAssembler

/-! ### Records -/

/-- An inner class that was read. -/
structure ReadInnerClass where
  inner : Nat
  outer : Nat
  name : Nat
  flags : Nat
  deriving DecidableEq, Repr

/-- A line number that was read. -/
structure ReadLineNumber where
  start : Nat
  line : Nat
  deriving DecidableEq, Repr

/-- A local variable that was read. -/
structure ReadLocalVariable where
  start : Nat
  length : Nat
  name : Nat
  descriptor : Nat
  index : Nat
  deriving DecidableEq, Repr

/-- A method parameter that was read. -/
structure ReadParameter where
  name : Nat
  flags : Nat
  deriving DecidableEq, Repr

/-- An exception handler that was read. -/
structure ReadHandler where
  start : Nat
  stop : Nat
  handler : Nat
  catchType : Nat
  deriving DecidableEq, Repr

/-- A bootstrap method that was read. -/
structure ReadBootstrap where
  handle : Nat
  arguments : List Nat
  deriving DecidableEq, Repr

/-- A required module that was read. -/
structure ReadRequirement where
  target : Nat
  flags : Nat
  version : Nat
  deriving DecidableEq, Repr

/-- An exported or opened package that was read. -/
structure ReadExport where
  package : Nat
  flags : Nat
  modules : List Nat
  deriving DecidableEq, Repr

/-- A provided service that was read. -/
structure ReadProvision where
  service : Nat
  providers : List Nat
  deriving DecidableEq, Repr

/-- The description of a module that was read. -/
structure ReadModule where
  name : Nat
  flags : Nat
  version : Nat
  requires : List ReadRequirement
  exports : List ReadExport
  opens : List ReadExport
  uses : List Nat
  provides : List ReadProvision
  deriving DecidableEq, Repr

/-- An element of an annotation that was read. -/
structure ReadPair (value : Type) where
  name : Nat
  value : value

/-- An annotation that was read. -/
structure ReadAnnotationOf (value : Type) where
  typeName : Nat
  elements : List (ReadPair value)

/-- The value of an element that was read. -/
inductive ReadValue where
  | constant (type : ElementType) (index : Nat)
  | enumerator (typeName : Nat) (constName : Nat)
  | classInfo (descriptor : Nat)
  | nested (value : ReadAnnotationOf ReadValue)
  | array (values : List ReadValue)

/-- Code that was read, with attributes of type `α`. -/
structure ReadCodeOf (α : Type) where
  maxStack : Nat
  maxLocals : Nat
  code : Bytes
  handlers : List ReadHandler
  attributes : List α

/-- A component of a record class that was read. -/
structure ReadComponentOf (α : Type) where
  name : Nat
  descriptor : Nat
  attributes : List α

/-- The contents of an attribute that were read. -/
inductive ReadPayload (α : Type) where
  | cell (kind : CellAttribute) (index : Nat)
  | cells (kind : CellsAttribute) (indices : List Nat)
  | marker (kind : MarkerAttribute)
  | debugExtension (bytes : Bytes)
  | code (code : ReadCodeOf α)
  | innerClasses (items : List ReadInnerClass)
  | enclosingMethod (owner : Nat) (method : Nat)
  | lineNumbers (items : List ReadLineNumber)
  | localVariables (table : VariableTable) (items : List ReadLocalVariable)
  | methodParameters (items : List ReadParameter)
  | annotations (visibility : Visibility) (items : List (ReadAnnotationOf ReadValue))
  | parameterAnnotations (visibility : Visibility) (items : List (List (ReadAnnotationOf ReadValue)))
  | annotationDefault (value : ReadValue)
  | moduleInfo (info : ReadModule)
  | record (components : List (ReadComponentOf α))
  | bootstrapMethods (items : List ReadBootstrap)
  /-- The contents of an attribute that the reader does not know. -/
  | unknown (bytes : Bytes)

/-- An attribute that was read. -/
structure ReadAttribute where
  name : Nat
  payload : ReadPayload ReadAttribute

/-! ### Readers -/

open Reader (nat counted)

/-- Reads an inner class. -/
def readInnerClass : Reader ReadInnerClass := do return ⟨← nat 2, ← nat 2, ← nat 2, ← nat 2⟩

/-- Reads a line number. -/
def readLineNumber : Reader ReadLineNumber := do return ⟨← nat 2, ← nat 2⟩

/-- Reads a local variable. -/
def readLocalVariable : Reader ReadLocalVariable := do return ⟨← nat 2, ← nat 2, ← nat 2, ← nat 2, ← nat 2⟩

/-- Reads a method parameter. -/
def readParameter : Reader ReadParameter := do return ⟨← nat 2, ← nat 2⟩

/-- Reads an exception handler. -/
def readHandler : Reader ReadHandler := do return ⟨← nat 2, ← nat 2, ← nat 2, ← nat 2⟩

/-- Reads a bootstrap method. -/
def readBootstrap : Reader ReadBootstrap := do return ⟨← nat 2, ← counted 2 (nat 2)⟩

/-- Reads a required module. -/
def readRequirement : Reader ReadRequirement := do return ⟨← nat 2, ← nat 2, ← nat 2⟩

/-- Reads an exported or opened package. -/
def readExport : Reader ReadExport := do return ⟨← nat 2, ← nat 2, ← counted 2 (nat 2)⟩

/-- Reads a provided service. -/
def readProvision : Reader ReadProvision := do return ⟨← nat 2, ← counted 2 (nat 2)⟩

/-- Reads the description of a module. -/
def readModule : Reader ReadModule := do
  return {
    name := ← nat 2
    flags := ← nat 2
    version := ← nat 2
    requires := ← counted 2 readRequirement
    exports := ← counted 2 readExport
    opens := ← counted 2 readExport
    uses := ← counted 2 (nat 2)
    provides := ← counted 2 readProvision }

/-- The tags of the values that are constants. -/
def elementTags : List (Char × ElementType) :=
  [('B', .byte), ('C', .char), ('D', .double), ('F', .float), ('I', .int), ('J', .long), ('S', .short),
    ('Z', .boolean), ('s', .string)]

/-- The type of the values with a tag. -/
def elementTypeOf? (tag : UInt8) : Option ElementType :=
  (elementTags.find? fun entry => entry.1.toUInt8 = tag).map (·.2)

/-- Reads an element, given a reader of values. -/
def readPairWith (value : Reader ReadValue) : Reader (ReadPair ReadValue) := do return ⟨← nat 2, ← value⟩

/-- Reads an annotation, given a reader of values. -/
def readAnnotationWith (value : Reader ReadValue) : Reader (ReadAnnotationOf ReadValue) := do
  return ⟨← nat 2, ← counted 2 (readPairWith value)⟩

/-- Reads a value, given a reader of the values inside of it. -/
def readValueWith (value : Reader ReadValue) : Reader ReadValue := do
  let tag ← Reader.byte
  if tag = 'e'.toUInt8 then return .enumerator (← nat 2) (← nat 2)
  else if tag = 'c'.toUInt8 then return .classInfo (← nat 2)
  else if tag = '@'.toUInt8 then return .nested (← readAnnotationWith value)
  else if tag = '['.toUInt8 then return .array (← counted 2 value)
  else
    match elementTypeOf? tag with
    | some type => return .constant type (← nat 2)
    | none => failure

/-- Reads a value that is nested to a given depth at most. -/
def readValueTo : (depth : Nat) → Reader ReadValue
  | 0 => failure
  | depth + 1 => readValueWith (readValueTo depth)

/-- Reads a value. -/
def readValue : Reader ReadValue := Reader.nested readValueTo

/-- Reads an annotation. -/
def readAnnotation : Reader (ReadAnnotationOf ReadValue) :=
  Reader.nested fun depth => readAnnotationWith (readValueTo depth)

/-! ### Attributes by name -/

/-- The forms of the attributes that have a meaning. -/
inductive AttributeForm where
  | cell (kind : CellAttribute) | cells (kind : CellsAttribute) | marker (kind : MarkerAttribute)
  | debugExtension | code | innerClasses | enclosingMethod | lineNumbers | localVariables (table : VariableTable)
  | methodParameters | annotations (visibility : Visibility) | parameterAnnotations (visibility : Visibility)
  | annotationDefault | moduleInfo | record | bootstrapMethods
  deriving DecidableEq, Repr

namespace AttributeForm

/-- The attributes that have a meaning, by name. -/
def table : List (String × AttributeForm) :=
  [("ConstantValue", .cell .constantValue), ("Signature", .cell .signature), ("SourceFile", .cell .sourceFile),
    ("NestHost", .cell .nestHost), ("ModuleMainClass", .cell .moduleMainClass), ("Exceptions", .cells .exceptions),
    ("NestMembers", .cells .nestMembers), ("PermittedSubclasses", .cells .permittedSubclasses),
    ("LoadableDescriptors", .cells .loadableDescriptors), ("ModulePackages", .cells .modulePackages),
    ("Deprecated", .marker .deprecated), ("Synthetic", .marker .synthetic),
    ("SourceDebugExtension", .debugExtension), ("Code", .code), ("InnerClasses", .innerClasses),
    ("EnclosingMethod", .enclosingMethod), ("LineNumberTable", .lineNumbers),
    ("LocalVariableTable", .localVariables .descriptors), ("LocalVariableTypeTable", .localVariables .signatures),
    ("MethodParameters", .methodParameters), ("RuntimeVisibleAnnotations", .annotations .visible),
    ("RuntimeInvisibleAnnotations", .annotations .invisible),
    ("RuntimeVisibleParameterAnnotations", .parameterAnnotations .visible),
    ("RuntimeInvisibleParameterAnnotations", .parameterAnnotations .invisible),
    ("AnnotationDefault", .annotationDefault), ("Module", .moduleInfo), ("Record", .record),
    ("BootstrapMethods", .bootstrapMethods)]

/-- The form of the attributes with a name. -/
def named? (text : String) : Option AttributeForm := table.lookup text

end AttributeForm

/-- Reads code, given a reader of attributes. -/
def readCodeWith (inner : Reader ReadAttribute) : Reader (ReadCodeOf ReadAttribute) := do
  return {
    maxStack := ← nat 2
    maxLocals := ← nat 2
    code := ← Reader.take (← nat 4)
    handlers := ← counted 2 readHandler
    attributes := ← counted 2 inner }

/-- Reads a component, given a reader of attributes. -/
def readComponentWith (inner : Reader ReadAttribute) : Reader (ReadComponentOf ReadAttribute) := do
  return ⟨← nat 2, ← nat 2, ← counted 2 inner⟩

/-- Reads the contents of an attribute of a form and a length, given a reader of the attributes inside. -/
def readPayloadWith (inner : Reader ReadAttribute) (length : Nat) :
    Option AttributeForm → Reader (ReadPayload ReadAttribute)
  | some (.cell kind) => return .cell kind (← nat 2)
  | some (.cells kind) => return .cells kind (← counted 2 (nat 2))
  | some (.marker kind) => return .marker kind
  | some .debugExtension => return .debugExtension (← Reader.take length)
  | some .code => return .code (← readCodeWith inner)
  | some .innerClasses => return .innerClasses (← counted 2 readInnerClass)
  | some .enclosingMethod => return .enclosingMethod (← nat 2) (← nat 2)
  | some .lineNumbers => return .lineNumbers (← counted 2 readLineNumber)
  | some (.localVariables table) => return .localVariables table (← counted 2 readLocalVariable)
  | some .methodParameters => return .methodParameters (← counted 1 readParameter)
  | some (.annotations visibility) => return .annotations visibility (← counted 2 readAnnotation)
  | some (.parameterAnnotations visibility) =>
    return .parameterAnnotations visibility (← counted 1 (counted 2 readAnnotation))
  | some .annotationDefault => return .annotationDefault (← readValue)
  | some .moduleInfo => return .moduleInfo (← readModule)
  | some .record => return .record (← counted 2 (readComponentWith inner))
  | some .bootstrapMethods => return .bootstrapMethods (← counted 2 readBootstrap)
  | none => return .unknown (← Reader.take length)

/-- Reads an attribute that is nested to a given depth at most. `names` gives the texts at the indices. -/
def readAttributeTo (names : Nat → Option String) : (depth : Nat) → Reader ReadAttribute
  | 0 => failure
  | depth + 1 => do
    let name ← nat 2
    let length ← nat 4
    match names name with
    | some text =>
      return ⟨name, ← Reader.within length
        (readPayloadWith (readAttributeTo names depth) length (AttributeForm.named? text))⟩
    | none => failure

/-- Reads the contents of an attribute with a name. -/
def readPayload (names : Nat → Option String) (text : String) (length : Nat) : Reader (ReadPayload ReadAttribute) :=
  Reader.nested fun depth => readPayloadWith (readAttributeTo names depth) length (AttributeForm.named? text)

/-! ### What a reader should find -/

/-- The index of a cell, or the reserved index 0 if there is no cell. -/
def Pool.indexOrZero (pool : Pool) : Option Cell → Nat
  | some cell => pool.index cell
  | none => 0

/-- The program counter of a label. -/
def Scope.pc (scope : Scope) (label : Label) : Nat := (scope.pcOf label).toOption.getD 0

/-- What is written of the code. -/
def Body.written (pool : Pool) (scope : Scope) (body : Body) : Bytes :=
  (Emit.value? body.emit pool ⟨scope, #[]⟩).getD []

section

variable (pool : Pool) (scope : Scope)

def InnerClass.resolved (item : InnerClass) : ReadInnerClass :=
  ⟨pool.index item.inner, pool.indexOrZero item.outer, pool.indexOrZero item.name, item.flags.bits.toNat⟩

def LineNumber.resolved (item : LineNumber) : ReadLineNumber := ⟨scope.pc item.start, item.line.toNat⟩

/-- The range of a local variable is read as its start and its length. -/
def LocalVariable.resolved (item : LocalVariable) : ReadLocalVariable where
  start := scope.pc item.start
  length := scope.pc item.stop - scope.pc item.start
  name := pool.index item.name
  descriptor := pool.index item.descriptor
  index := item.index.toNat

def MethodParameter.resolved (item : MethodParameter) : ReadParameter :=
  ⟨pool.indexOrZero item.name, item.flags.bits.toNat⟩

def Handler.resolved (item : Handler) : ReadHandler :=
  ⟨scope.pc item.start, scope.pc item.stop, scope.pc item.handler, pool.indexOrZero item.catchType⟩

def Bootstrap.resolved (item : Bootstrap) : ReadBootstrap := ⟨pool.index item.handle, item.arguments.map pool.index⟩

def Requirement.resolved (item : Requirement) : ReadRequirement :=
  ⟨pool.index item.target, item.flags.bits.toNat, pool.indexOrZero item.version⟩

def Export.resolved (item : Export) : ReadExport :=
  ⟨pool.index item.package, item.flags.bits.toNat, item.modules.map pool.index⟩

def Provision.resolved (item : Provision) : ReadProvision :=
  ⟨pool.index item.service, item.providers.map pool.index⟩

def ModuleInfo.resolved (info : ModuleInfo) : ReadModule where
  name := pool.index info.name
  flags := info.flags.bits.toNat
  version := pool.indexOrZero info.version
  requires := info.requires.map (·.resolved pool)
  exports := info.exports.map (·.resolved pool)
  opens := info.opens.map (·.resolved pool)
  uses := info.uses.map pool.index
  provides := info.provides.map (·.resolved pool)

end

mutual

def ElementValue.resolved (pool : Pool) : ElementValue → ReadValue
  | .constant type cell => .constant type (pool.index cell)
  | .enumerator typeName constName => .enumerator (pool.index typeName) (pool.index constName)
  | .classInfo descriptor => .classInfo (pool.index descriptor)
  | .nested value => .nested (AnnotationOf.resolved pool value)
  | .array values => .array (ElementValue.resolvedAll pool values)
termination_by structural value => value

def ElementValue.resolvedAll (pool : Pool) : List ElementValue → List ReadValue
  | [] => []
  | value :: rest => value.resolved pool :: ElementValue.resolvedAll pool rest
termination_by structural values => values

def AnnotationOf.resolved (pool : Pool) : AnnotationOf ElementValue → ReadAnnotationOf ReadValue
  | ⟨typeName, elements⟩ => ⟨pool.index typeName, ElementPair.resolvedAll pool elements⟩
termination_by structural value => value

def ElementPair.resolvedAll (pool : Pool) : List (ElementPair ElementValue) → List (ReadPair ReadValue)
  | [] => []
  | pair :: rest => ElementPair.resolved pool pair :: ElementPair.resolvedAll pool rest
termination_by structural pairs => pairs

def ElementPair.resolved (pool : Pool) : ElementPair ElementValue → ReadPair ReadValue
  | ⟨name, value⟩ => ⟨pool.index name, value.resolved pool⟩
termination_by structural pair => pair

end

mutual

/-- An attribute with the indices of its cells and the program counters of its labels in a scope. -/
def Attribute.resolved (pool : Pool) : Attribute → (scope : Scope) → ReadAttribute
  | ⟨name, payload⟩, scope => ⟨pool.index name, Payload.resolved pool payload scope⟩
termination_by structural nested => nested

def Payload.resolved (pool : Pool) : Payload Attribute → (scope : Scope) → ReadPayload ReadAttribute
  | .cell kind cell, _ => .cell kind (pool.index cell)
  | .cells kind cells, _ => .cells kind (cells.map pool.index)
  | .marker kind, _ => .marker kind
  | .debugExtension bytes, _ => .debugExtension bytes
  | .code code, scope => .code (Code.resolved pool code scope)
  | .innerClasses items, _ => .innerClasses (items.map (·.resolved pool))
  | .enclosingMethod owner method, _ => .enclosingMethod (pool.index owner) (pool.indexOrZero method)
  | .lineNumbers items, scope => .lineNumbers (items.map (·.resolved scope))
  | .localVariables table items, scope => .localVariables table (items.map (·.resolved pool scope))
  | .methodParameters items, _ => .methodParameters (items.map (·.resolved pool))
  | .annotations visibility items, _ => .annotations visibility (items.map (AnnotationOf.resolved pool))
  | .parameterAnnotations visibility items, _ =>
    .parameterAnnotations visibility (items.map fun group => group.map (AnnotationOf.resolved pool))
  | .annotationDefault value, _ => .annotationDefault (value.resolved pool)
  | .moduleInfo info, _ => .moduleInfo (info.resolved pool)
  | .record components, scope => .record (Component.resolvedAll pool components scope)
  | .bootstrapMethods items, _ => .bootstrapMethods (items.map (·.resolved pool))
  | .raw bytes, _ => .unknown bytes
termination_by structural payload => payload

/-- Labels behind the code refer to that code. -/
def Code.resolved (pool : Pool) : CodeOf Attribute → (scope : Scope) → ReadCodeOf ReadAttribute
  | ⟨maxStack, maxLocals, body, handlers, attributes⟩, scope =>
    { maxStack := maxStack.toNat
      maxLocals := maxLocals.toNat
      code := body.written pool scope
      handlers := handlers.map (·.resolved pool { scope with code := body.layout })
      attributes := Attribute.resolvedAll pool attributes { scope with code := body.layout } }
termination_by structural code => code

def Attribute.resolvedAll (pool : Pool) : List Attribute → (scope : Scope) → List ReadAttribute
  | [], _ => []
  | inner :: rest, scope => inner.resolved pool scope :: Attribute.resolvedAll pool rest scope
termination_by structural attributes => attributes

def Component.resolved (pool : Pool) : ComponentOf Attribute → (scope : Scope) → ReadComponentOf ReadAttribute
  | ⟨name, descriptor, attributes⟩, scope =>
    ⟨pool.index name, pool.index descriptor, Attribute.resolvedAll pool attributes scope⟩
termination_by structural component => component

def Component.resolvedAll (pool : Pool) :
    List (ComponentOf Attribute) → (scope : Scope) → List (ReadComponentOf ReadAttribute)
  | [], _ => []
  | component :: rest, scope => Component.resolved pool component scope :: Component.resolvedAll pool rest scope
termination_by structural components => components

end

theorem ElementValue.resolvedAll_eq (pool : Pool) (values : List ElementValue) :
    ElementValue.resolvedAll pool values = values.map (·.resolved pool) := by
  induction values with
  | nil => rfl
  | cons value values ih => rw [ElementValue.resolvedAll, ih, List.map_cons]

theorem ElementPair.resolvedAll_eq (pool : Pool) (pairs : List (ElementPair ElementValue)) :
    ElementPair.resolvedAll pool pairs = pairs.map (ElementPair.resolved pool) := by
  induction pairs with
  | nil => rfl
  | cons pair pairs ih => rw [ElementPair.resolvedAll, ih, List.map_cons]

theorem Attribute.resolvedAll_eq (pool : Pool) (scope : Scope) (attributes : List Attribute) :
    Attribute.resolvedAll pool attributes scope = attributes.map (·.resolved pool scope) := by
  induction attributes with
  | nil => rfl
  | cons inner attributes ih => rw [Attribute.resolvedAll, ih, List.map_cons]

theorem Component.resolvedAll_eq (pool : Pool) (scope : Scope) (components : List Component) :
    Component.resolvedAll pool components scope = components.map (Component.resolved pool · scope) := by
  induction components with
  | nil => rfl
  | cons component components ih => rw [Component.resolvedAll, ih, List.map_cons]

end JvmAssembler
