import JvmAssembler.Attribute.Basic

/-!
# Attributes as bytes

An attribute is written as its name, the length of its contents, and the contents. In code, and in
everything nested in it, labels refer to that code.
-/

namespace JvmAssembler

/-- An attribute, whose name becomes a constant of the pool. -/
def Attribute.make (payload : Payload Attribute) : PoolM Attribute := do
  let name ← Pool.utf8 payload.name
  return { name, payload }

/-- An attribute with a name of its own and contents that are taken as they are. -/
def Attribute.makeRaw (name : String) (bytes : Bytes) : PoolM Attribute := do
  let name ← Pool.utf8 name
  return { name, payload := .raw bytes }

/-- The bytes of an inner class. -/
def InnerClass.emit (item : InnerClass) : Emit Bytes := do
  return (← Emit.cell item.inner) ++ (← Emit.cell? item.outer) ++ (← Emit.cell? item.name) ++ item.flags.encode

/-- The bytes of a line number. -/
def LineNumber.emit (item : LineNumber) : Emit Bytes := do
  return (← Emit.label item.start) ++ Bytes.u16 item.line

/-- The bytes of a local variable. A range that ends before it starts is empty. -/
def LocalVariable.emit (item : LocalVariable) : Emit Bytes := do
  let start ← Emit.labelPc item.start
  let stop ← Emit.labelPc item.stop
  return Bytes.be 2 start ++ Bytes.be 2 (stop - start)
    ++ (← Emit.cell item.name) ++ (← Emit.cell item.descriptor)
    ++ Bytes.u16 item.index

/-- The bytes of a method parameter. -/
def MethodParameter.emit (item : MethodParameter) : Emit Bytes := do
  return (← Emit.cell? item.name) ++ item.flags.encode

/-- The bytes of an exception handler. -/
def Handler.emit (item : Handler) : Emit Bytes := do
  return (← Emit.label item.start) ++ (← Emit.label item.stop) ++ (← Emit.label item.handler)
    ++ (← Emit.cell? item.catchType)

/-- The bytes of a bootstrap method. -/
def Bootstrap.emit (method : Bootstrap) : Emit Bytes := do
  return (← Emit.cell method.handle) ++ (← Emit.counted 2 "bootstrap arguments" method.arguments Emit.cell)

/-- The items of an attribute that is a list, behind their number. -/
def Emit.entries {α : Type} (width : Nat) (items : List α) (item : α → Emit Bytes) : Emit Bytes :=
  Emit.counted width "attribute entries" items item

mutual

/-- The bytes of an attribute. -/
def Attribute.emit : Attribute → Emit Bytes
  | ⟨name, payload⟩ => do
    return (← Emit.cell name) ++ Bytes.be 4 payload.length ++ (← Payload.emit payload)
termination_by structural nested => nested

/-- The bytes of the contents of an attribute. -/
def Payload.emit (payload : Payload Attribute) : Emit Bytes :=
  let width := payload.countWidth
  match payload with
  | .cell _ cell => Emit.cell cell
  | .cells _ cells => Emit.cells cells
  | .marker _ => return []
  | .debugExtension bytes | .raw bytes => return bytes
  | .code code => Code.emit code
  | .innerClasses items => Emit.entries width items InnerClass.emit
  | .enclosingMethod owner method => return (← Emit.cell owner) ++ (← Emit.cell? method)
  | .lineNumbers items => Emit.entries width items LineNumber.emit
  | .localVariables _ items => Emit.entries width items LocalVariable.emit
  | .methodParameters items => Emit.entries width items MethodParameter.emit
  | .annotations _ items => Emit.entries width items AnnotationOf.emit
  | .parameterAnnotations _ items =>
    Emit.entries width items fun annotations => Emit.records annotations AnnotationOf.emit
  | .annotationDefault value => value.emit
  | .moduleInfo info => info.emit
  | .record components => do
    return (← Emit.count width "attribute entries" components.length) ++ (← Component.emitAll components [])
  | .bootstrapMethods items => Emit.entries width items Bootstrap.emit
termination_by structural payload

/-- The bytes of code with its handlers and attributes. The code must be laid out. -/
def Code.emit : CodeOf Attribute → Emit Bytes
  | ⟨maxStack, maxLocals, body, handlers, attributes⟩ =>
    match body.layout with
    | none => throw .codeNotLaidOut
    | some layout => do
      let code ← body.emitWith layout
      let rest ← Emit.inCode layout do
        return (← Emit.records handlers Handler.emit) ++ (← Emit.count 2 "records" attributes.length)
          ++ (← Attribute.emitAll attributes [])
      return Bytes.u16 maxStack ++ Bytes.u16 maxLocals ++ Bytes.be 4 layout.length ++ code ++ rest
termination_by structural code => code

/-- The bytes of attributes in a row, behind those that are `done`, the last of which comes first. -/
def Attribute.emitAll : List Attribute → (done : List Bytes) → Emit Bytes
  | [], done => return done.reverse.flatten
  | nested :: rest, done => do
    let bytes ← nested.emit
    Attribute.emitAll rest (bytes :: done)
termination_by structural attributes => attributes

/-- The bytes of a component. -/
def Component.emit : ComponentOf Attribute → Emit Bytes
  | ⟨name, descriptor, attributes⟩ => do
    return (← Emit.cell name) ++ (← Emit.cell descriptor) ++ (← Emit.count 2 "records" attributes.length)
      ++ (← Attribute.emitAll attributes [])
termination_by structural component => component

/-- The bytes of components in a row, behind those that are `done`, the last of which comes first. -/
def Component.emitAll : List (ComponentOf Attribute) → (done : List Bytes) → Emit Bytes
  | [], done => return done.reverse.flatten
  | component :: rest, done => do
    let bytes ← Component.emit component
    Component.emitAll rest (bytes :: done)
termination_by structural components => components

end

end JvmAssembler
