import JvmAssembler.Attribute.Emit
import JvmAssembler.Version

/-!
# Class files

A class with its pool, members and attributes. Assembling a class takes two passes: `prepare` lays
out the code of its methods and finalizes its pool, and `emit` writes the class file, in which every
cell is replaced by its index.
-/

namespace JvmAssembler

/-- A field of a class. -/
structure Field where
  flags : Flags .field
  name : Cell
  descriptor : Cell
  attributes : List Attribute

/-- A method of a class. -/
structure Method where
  flags : Flags .method
  name : Cell
  descriptor : Cell
  attributes : List Attribute

/-- The list in which the first item that has a replacement is replaced by it. -/
def replaceFirst {α : Type} (replacement? : α → Option α) : List α → List α
  | [] => []
  | item :: rest =>
    match replacement? item with
    | some new => new :: rest
    | none => item :: replaceFirst replacement? rest

/-- The code that an attribute holds. -/
def Attribute.code? : Attribute → Option Code
  | ⟨_, .code code⟩ => some code
  | _ => none

/-- The attribute with other code, if it holds code. -/
def Attribute.withBody? (body : Body) : Attribute → Option Attribute
  | ⟨name, .code code⟩ => some ⟨name, .code { code with body }⟩
  | _ => none

/-- The attribute with other bootstrap methods, if it holds such. -/
def Attribute.withBootstraps? (methods : List Bootstrap) : Attribute → Option Attribute
  | ⟨name, .bootstrapMethods _⟩ => some ⟨name, .bootstrapMethods methods⟩
  | _ => none

/-- The length of a field in bytes. -/
def Field.length (field : Field) : Nat := 6 + Emit.recordsLength field.attributes Attribute.length

/-- The bytes of a field. -/
def Field.emit (field : Field) : Emit Bytes := do
  return field.flags.encode ++ (← Emit.cell field.name) ++ (← Emit.cell field.descriptor)
    ++ (← Emit.records field.attributes Attribute.emit)

namespace Method

/-- The length of a method in bytes. -/
def length (method : Method) : Nat := 6 + Emit.recordsLength method.attributes Attribute.length

/-- The bytes of a method. Messages about them name the method. -/
def emit (method : Method) : Emit Bytes := do
  let name := ((← read).utf8? method.name).getD ""
  Emit.inMethod name do
    return method.flags.encode ++ (← Emit.cell method.name) ++ (← Emit.cell method.descriptor)
      ++ (← Emit.records method.attributes Attribute.emit)

/-- The code of the method, which is its first `Code` attribute. -/
def code? (method : Method) : Option Code := method.attributes.findSome? Attribute.code?

/-- Raises the ranks of the constants in the code of the method, and then lays out the code. The
name is for messages. -/
def layOut (method : Method) (name : String) (pool : Pool) : Except AssemblyError Method × Pool :=
  match method.code? with
  | none => (.ok method, pool)
  | some code =>
    let pool := code.body.rankConstants pool
    match code.body.layOut name with
    | .error e => (.error e, pool)
    | .ok body =>
      (.ok { method with attributes := replaceFirst (Attribute.withBody? body) method.attributes }, pool)

end Method

/-- A class, with the pool that its cells belong to. -/
structure ClassFile where
  pool : Pool := .empty
  version : Version := .java8
  flags : Flags .classFile := .none
  thisClass : Cell := .zero
  /-- The super class, which only `java/lang/Object` and modules lack. -/
  superClass : Option Cell := none
  interfaces : List Cell := []
  fields : List Field := []
  methods : List Method := []
  attributes : List Attribute := []

namespace ClassFile

/-- The bytes at the start of every class file. -/
def magic : Bytes := [0xCA, 0xFE, 0xBA, 0xBE]

/-- The name of the class, if its cell stands for a class. -/
def binaryName? (model : ClassFile) : Option String :=
  match model.pool.get? model.thisClass with
  | some (.wrapper .classInfo name) => model.pool.utf8? name
  | _ => none

/-- Lays out the code of methods, behind those that are `done`, the last of which comes first. A
method that fails stays as it was, and so do those after it. -/
def layOutMethods (done : List Method) : List Method → Pool → Except AssemblyError Unit × List Method × Pool
  | [], pool => (.ok (), done.reverse, pool)
  | method :: rest, pool =>
    let name := (pool.utf8? method.name).getD "<unknown>"
    match method.layOut name pool with
    | (.ok method, pool) => layOutMethods (method :: done) rest pool
    | (.error e, pool) => (.error e, done.reverseAux (method :: rest), pool)

/-- Sees to it that the class has the bootstrap methods of its pool as an attribute, unless there
are none. -/
def updateBootstraps : EStateM AssemblyError ClassFile Unit := fun model =>
  if model.pool.bootstraps.isEmpty then .ok () model
  else
    let methods := model.pool.bootstraps.toList
    if model.attributes.any fun held => (held.withBootstraps? methods).isSome then
      .ok () { model with attributes := replaceFirst (Attribute.withBootstraps? methods) model.attributes }
    else
      match Attribute.make (.bootstrapMethods methods) model.pool with
      | .ok added pool => .ok () { model with pool, attributes := model.attributes ++ [added] }
      | .error e pool => .error e { model with pool }

/-- The index of the first dynamically computed constant. -/
def firstDynamic? (model : ClassFile) : Option Nat :=
  model.pool.entries.findSome? fun
    | (index, .dynamic .constant _ _) => some index
    | _ => none

/-- Lays out the code of all methods. -/
def layOut : EStateM AssemblyError ClassFile Unit := fun model =>
  let { methods, pool, .. } := model
  match layOutMethods [] methods pool with
  | (.ok _, methods, pool) => .ok () { model with methods, pool }
  | (.error e, methods, pool) => .error e { model with methods, pool }

/-- Finalizes the pool of the class. -/
def finalizePool : Reporting ClassFile Unit := fun ⟨model, warnings⟩ =>
  match Pool.finalize ⟨model.pool, warnings⟩ with
  | .ok _ ⟨pool, warnings⟩ => .ok () ⟨{ model with pool }, warnings⟩
  | .error e ⟨pool, warnings⟩ => .error e ⟨{ model with pool }, warnings⟩

/-- The first pass: lays out the code and finalizes the pool. After it every cell has its index and
every label its program counter. -/
def prepare : Reporting ClassFile Unit := do
  if (← get).state.thisClass = .zero then throw (.missingReference "this_class")
  Reporting.lift layOut
  Reporting.lift updateBootstraps
  finalizePool
  let model := (← get).state
  unless model.version.hasDynamicConstants do
    match model.firstDynamic? with
    | some index => Reporting.warn ⟨0, .dynamicConstant index model.version.major⟩
    | none => return ()

/-- The parts of the class file behind the pool. -/
def emitBody (model : ClassFile) : Emit Bytes := do
  let head := model.flags.encode ++ (← Emit.cell model.thisClass) ++ (← Emit.cell? model.superClass)
  let interfaces ← Emit.counted 2 "interfaces" model.interfaces Emit.cell
  let fields ← Emit.records model.fields Field.emit
  let methods ← Emit.records model.methods Method.emit
  let attributes ← Emit.records model.attributes Attribute.emit
  return head ++ interfaces ++ fields ++ methods ++ attributes

/-- The second pass: writes the class file. -/
def emit (model : ClassFile) : Reporting Scope Bytes := do
  let pool ← MonadExcept.ofExcept model.pool.encode
  let body ← model.emitBody model.pool
  return magic ++ model.version.encode ++ pool ++ body

/-- The bytes of the class file, or why there are none, with the warnings added to those reported
before. -/
def write (model : ClassFile) (warnings : Array Warning) : Except AssemblyError Bytes × Array Warning :=
  match model.emit ⟨{}, warnings⟩ with
  | .ok bytes ⟨_, warnings⟩ => (.ok bytes, warnings)
  | .error e ⟨_, warnings⟩ => (.error e, warnings)

/-- Prepares the class and writes the class file. -/
def assemble : Reporting ClassFile Bytes := fun s =>
  match prepare s with
  | .error e s => .error e s
  | .ok _ ⟨model, warnings⟩ =>
    match model.write warnings with
    | (.ok bytes, warnings) => .ok bytes ⟨model, warnings⟩
    | (.error e, warnings) => .error e ⟨model, warnings⟩

end ClassFile

end JvmAssembler
