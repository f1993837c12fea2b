import JvmAssembler.ClassFile
import JvmAssembler.Proofs.Attribute.Length
import JvmAssembler.Proofs.Bytecode.Failure
import JvmAssembler.Proofs.Pool.History

/-!
# Labels belong to the innermost code

While code is written, its layout is kept in the scope, and the layout outside is put back behind it. Here the same is
written without a scope for code: `Attribute.emitIn` hands the layout down, and what stands in code gets the layout of
this code and no other. The two write the same bytes, fail alike and report the same warnings, whatever nests in what
(`Attribute.alike_emitIn`), and every writing returns to its scope.
-/

namespace JvmAssembler

/-! ### Handing the layout down -/

/-- The program counter of a label of the code that is given. -/
def Emit.labelPcIn (code : Option Layout) (label : Label) : Emit Nat := Emit.ofExcept (Scope.pcOf { code } label)

/-- The program counter of a label of the code that is given, in two bytes. -/
def Emit.labelIn (code : Option Layout) (label : Label) : Emit Bytes := do return Bytes.be 2 (← labelPcIn code label)

def LineNumber.emitIn (code : Option Layout) (item : LineNumber) : Emit Bytes := do
  return (← Emit.labelIn code item.start) ++ Bytes.u16 item.line

def LocalVariable.emitIn (code : Option Layout) (item : LocalVariable) : Emit Bytes := do
  let start ← Emit.labelPcIn code item.start
  let stop ← Emit.labelPcIn code item.stop
  return Bytes.be 2 start ++ Bytes.be 2 (stop - start)
    ++ (← Emit.cell item.name) ++ (← Emit.cell item.descriptor)
    ++ Bytes.u16 item.index

def Handler.emitIn (code : Option Layout) (item : Handler) : Emit Bytes := do
  return (← Emit.labelIn code item.start) ++ (← Emit.labelIn code item.stop) ++ (← Emit.labelIn code item.handler)
    ++ (← Emit.cell? item.catchType)

mutual

/-- The bytes of an attribute whose labels are those of the code that is given. -/
def Attribute.emitIn (code : Option Layout) : Attribute → Emit Bytes
  | ⟨name, payload⟩ => do
    return (← Emit.cell name) ++ Bytes.be 4 payload.length ++ (← Payload.emitIn code payload)
termination_by structural nested => nested

/-- The bytes of the contents of an attribute. Only tables of lines and of variables have labels of their own. -/
def Payload.emitIn (code : Option Layout) : Payload Attribute → Emit Bytes
  | .code part => Code.emitIn part
  | .lineNumbers items => Emit.entries 2 items (LineNumber.emitIn code)
  | .localVariables _ items => Emit.entries 2 items (LocalVariable.emitIn code)
  | .record components => do
    return (← Emit.count 2 "attribute entries" components.length) ++ (← Component.emitAllIn code components [])
  | payload => payload.emit
termination_by structural payload => payload

/-- The bytes of code. The labels of its handlers and of its attributes are those of this code. -/
def Code.emitIn : CodeOf Attribute → Emit Bytes
  | ⟨maxStack, maxLocals, body, handlers, attributes⟩ =>
    match body.layout with
    | none => throw .codeNotLaidOut
    | some layout => do
      let code ← body.emitWith layout
      let rest ← (do
        return (← Emit.records handlers (Handler.emitIn layout)) ++ (← Emit.count 2 "records" attributes.length)
          ++ (← Attribute.emitAllIn layout attributes []) : Emit Bytes)
      return Bytes.u16 maxStack ++ Bytes.u16 maxLocals ++ Bytes.be 4 layout.length ++ code ++ rest
termination_by structural code => code

def Attribute.emitAllIn (code : Option Layout) : List Attribute → (done : List Bytes) → Emit Bytes
  | [], done => return done.reverse.flatten
  | nested :: rest, done => do
    let bytes ← nested.emitIn code
    Attribute.emitAllIn code rest (bytes :: done)
termination_by structural attributes => attributes

def Component.emitIn (code : Option Layout) : ComponentOf Attribute → Emit Bytes
  | ⟨name, descriptor, attributes⟩ => do
    return (← Emit.cell name) ++ (← Emit.cell descriptor) ++ (← Emit.count 2 "records" attributes.length)
      ++ (← Attribute.emitAllIn code attributes [])
termination_by structural component => component

def Component.emitAllIn (code : Option Layout) : List (ComponentOf Attribute) → (done : List Bytes) → Emit Bytes
  | [], done => return done.reverse.flatten
  | component :: rest, done => do
    let bytes ← Component.emitIn code component
    Component.emitAllIn code rest (bytes :: done)
termination_by structural components => components

end

/-! ### Writings that come to the same -/

namespace Emit

variable {α β : Type} {pool : Pool} {scope scope' : Scope}

/-- Two writings, each in a scope of its own, have the same result and report the same warnings, and each returns to
its scope. -/
def Alike (pool : Pool) (scope : Scope) (action : Emit α) (scope' : Scope) (action' : Emit α) : Prop :=
  ∀ warnings, ∃ result after, action pool ⟨scope, warnings⟩ = ended ⟨scope, after⟩ result ∧
    action' pool ⟨scope', warnings⟩ = ended ⟨scope', after⟩ result

namespace Alike

theorem pure {a : α} : Alike pool scope (Pure.pure a) scope' (Pure.pure a) :=
  fun warnings => ⟨.ok a, warnings, rfl, rfl⟩

theorem throw {e : AssemblyError} : Alike pool scope (throw e : Emit α) scope' (throw e) :=
  fun warnings => ⟨.error e, warnings, rfl, rfl⟩

theorem read : Alike pool scope (MonadReader.read : Emit Pool) scope' MonadReader.read :=
  fun warnings => ⟨.ok pool, warnings, rfl, rfl⟩

theorem bind {action action' : Emit α} {next next' : α → Emit β} (h : Alike pool scope action scope' action')
    (hnext : ∀ a, Alike pool scope (next a) scope' (next' a)) :
    Alike pool scope (action >>= next) scope' (action' >>= next') := by
  intro warnings
  obtain ⟨result, mid, hrun, hrun'⟩ := h warnings
  have hbind : ∀ s (action : Emit α) (next : α → Emit β),
      (action >>= next) pool s = EStateM.bind (action pool) (fun a => next a pool) s := fun _ _ _ => rfl
  rw [hbind, hbind, EStateM.bind, EStateM.bind, hrun, hrun']
  cases result with
  | error e => exact ⟨.error e, mid, rfl, rfl⟩
  | ok a => exact hnext a mid

theorem ofExcept {result : Except AssemblyError α} :
    Alike pool scope (Emit.ofExcept result) scope' (Emit.ofExcept result) := by
  cases result with
  | ok a => exact pure
  | error e => exact throw

/-- A writing comes to the same as itself, if it returns to its scope. -/
theorem of_outcome {action : Emit α} {ok : α → Prop} {err : AssemblyError → Prop}
    (h : Outcome pool scope action ok err) : Alike pool scope action scope action := by
  intro warnings
  obtain ⟨result, hyields, -⟩ := h
  obtain ⟨after, hafter⟩ := hyields warnings
  exact ⟨result, after, hafter, hafter⟩

theorem symm {action action' : Emit α} (h : Alike pool scope action scope' action') :
    Alike pool scope' action' scope action := by
  intro warnings
  obtain ⟨result, after, hrun, hrun'⟩ := h warnings
  exact ⟨result, after, hrun', hrun⟩

/-- What is written in the scope of code, seen from outside. -/
theorem inCode {layout : Layout} {action action' : Emit α}
    (h : Alike pool { scope with code := some layout } action scope' action') :
    Alike pool scope (Emit.inCode layout action) scope' action' := by
  intro warnings
  obtain ⟨result, after, hrun, hrun'⟩ := h warnings
  refine ⟨result, after, ?_, hrun'⟩
  rw [Emit.inCode]
  simp only [hrun]
  cases result <;> rfl

theorem inMethod {name : String} {action action' : Emit α}
    (h : Alike pool { scope with method := some name } action { scope' with method := some name } action') :
    Alike pool scope (Emit.inMethod name action) scope' (Emit.inMethod name action') := by
  intro warnings
  obtain ⟨result, after, hrun, hrun'⟩ := h warnings
  refine ⟨result, after, ?_, ?_⟩
  · rw [Emit.inMethod]
    simp only [hrun]
    cases result <;> rfl
  · rw [Emit.inMethod]
    simp only [hrun']
    cases result <;> rfl

theorem mapM {items : List α} {item item' : α → Emit β}
    (h : ∀ a ∈ items, Alike pool scope (item a) scope' (item' a)) :
    Alike pool scope (items.mapM item) scope' (items.mapM item') := by
  induction items with
  | nil => exact pure
  | cons a items ih =>
    rw [List.mapM_cons, List.mapM_cons]
    exact (h a (by simp)).bind fun _ => (ih fun b hb => h b (by simp [hb])).bind fun _ => pure

theorem count {width items : Nat} {what : String} :
    Alike pool scope (Emit.count width what items) scope' (Emit.count width what items) := by
  unfold Emit.count
  split
  · exact pure
  · exact throw

theorem counted {width : Nat} {what : String} {items : List α} {item item' : α → Emit Bytes}
    (h : ∀ a ∈ items, Alike pool scope (item a) scope' (item' a)) :
    Alike pool scope (Emit.counted width what items item) scope' (Emit.counted width what items item') :=
  count.bind fun _ => ((mapM h).bind fun _ => pure).bind fun _ => pure

/-- Items in a row, for writings that go along the list and collect the parts in reverse. -/
theorem row (all all' : List α → List Bytes → Emit Bytes) {item item' : α → Emit Bytes}
    (hnil : ∀ done, all [] done = all' [] done ∧ all [] done = Pure.pure done.reverse.flatten)
    (hcons : ∀ a rest done, all (a :: rest) done = item a >>= fun bytes => all rest (bytes :: done))
    (hcons' : ∀ a rest done, all' (a :: rest) done = item' a >>= fun bytes => all' rest (bytes :: done))
    {items : List α} (h : ∀ a ∈ items, Alike pool scope (item a) scope' (item' a)) (done : List Bytes) :
    Alike pool scope (all items done) scope' (all' items done) := by
  induction items generalizing done with
  | nil =>
    rw [← (hnil done).1, (hnil done).2]
    exact pure
  | cons a items ih =>
    rw [hcons, hcons']
    exact (h a (by simp)).bind fun bytes => ih (fun b hb => h b (by simp [hb])) (bytes :: done)

theorem cell {cell : Cell} : Alike pool scope (Emit.cell cell) scope' (Emit.cell cell) := by
  unfold Emit.cell
  split
  · exact throw
  · exact read.bind fun _ => ofExcept.bind fun _ => pure

theorem cell? {cell : Option Cell} : Alike pool scope (Emit.cell? cell) scope' (Emit.cell? cell) := by
  cases cell with
  | none => exact pure
  | some c => exact Alike.cell

theorem cells {items : List Cell} : Alike pool scope (Emit.cells items) scope' (Emit.cells items) :=
  counted fun _ _ => cell

/-- A label is looked up in the code of the scope. -/
theorem labelPc {label : Label} :
    Alike pool scope (Emit.labelPc label) scope' (Emit.labelPcIn scope.code label) := by
  obtain ⟨method, code⟩ := scope
  intro warnings
  refine ⟨Scope.pcOf { code } label, warnings, ?_, ?_⟩
  · cases code with
    | none => rfl
    | some layout =>
      show Emit.ofExcept (layout.pcOf label) pool _ = ended ⟨⟨method, some layout⟩, warnings⟩ (layout.pcOf label)
      cases layout.pcOf label <;> rfl
  · rw [labelPcIn]
    cases Scope.pcOf { code } label <;> rfl

theorem label {label : Label} : Alike pool scope (Emit.label label) scope' (Emit.labelIn scope.code label) :=
  labelPc.bind fun _ => pure

end Alike

end Emit

open Emit (Alike)
open Emit.Alike (cell cell? cells count counted pure label labelPc)

variable {pool : Pool} {scope scope' : Scope}

/-! ### Records without labels -/

/-- Where there is no label, the scope has no part in what is written. -/
theorem InnerClass.alike (item : InnerClass) : Alike pool scope item.emit scope' item.emit :=
  cell.bind fun _ => cell?.bind fun _ => cell?.bind fun _ => pure

theorem MethodParameter.alike (item : MethodParameter) : Alike pool scope item.emit scope' item.emit :=
  cell?.bind fun _ => pure

theorem Bootstrap.alike (item : Bootstrap) : Alike pool scope item.emit scope' item.emit :=
  cell.bind fun _ => (counted fun _ _ => cell).bind fun _ => pure

theorem Requirement.alike (item : Requirement) : Alike pool scope item.emit scope' item.emit :=
  cell.bind fun _ => cell?.bind fun _ => pure

theorem Export.alike (item : Export) : Alike pool scope item.emit scope' item.emit :=
  cell.bind fun _ => cells.bind fun _ => pure

theorem Provision.alike (item : Provision) : Alike pool scope item.emit scope' item.emit :=
  cell.bind fun _ => cells.bind fun _ => pure

theorem ModuleInfo.alike (info : ModuleInfo) : Alike pool scope info.emit scope' info.emit := by
  refine cell.bind fun _ => cell?.bind fun _ => ?_
  refine (counted fun item _ => item.alike).bind fun _ => (counted fun item _ => item.alike).bind fun _ => ?_
  refine (counted fun item _ => item.alike).bind fun _ => cells.bind fun _ => ?_
  exact (counted fun item _ => item.alike).bind fun _ => pure

private theorem AnnotationOf.alike_of {item : Annotation}
    (h : ∀ pair ∈ item.elements, Alike pool scope pair.value.emit scope' pair.value.emit) :
    Alike pool scope (AnnotationOf.emit item) scope' (AnnotationOf.emit item) := by
  obtain ⟨typeName, elements⟩ := item
  have hpair : ∀ pair ∈ elements, Alike pool scope (ElementPair.emit pair) scope' (ElementPair.emit pair) := by
    intro pair hpair
    obtain ⟨name, value⟩ := pair
    exact cell.bind fun _ => (h ⟨name, value⟩ hpair).bind fun _ => pure
  refine cell.bind fun _ => count.bind fun _ => ?_
  exact (Alike.row _ _ (fun _ => ⟨rfl, rfl⟩) (fun _ _ _ => rfl) (fun _ _ _ => rfl) hpair []).bind fun _ => pure

theorem ElementValue.alike (value : ElementValue) : Alike pool scope value.emit scope' value.emit := by
  induction value using ElementValue.nestedInduction with
  | step value ih =>
    cases value with
    | constant type c => exact cell.bind fun _ => pure
    | enumerator typeName constName => exact cell.bind fun _ => cell.bind fun _ => pure
    | classInfo descriptor => exact cell.bind fun _ => pure
    | nested value =>
      exact (AnnotationOf.alike_of fun pair hpair => ih pair.value (List.mem_map_of_mem hpair)).bind fun _ => pure
    | array values =>
      refine count.bind fun _ => ?_
      have hvalues : ∀ value ∈ values, Alike pool scope value.emit scope' value.emit := ih
      exact (Alike.row _ _ (fun _ => ⟨rfl, rfl⟩) (fun _ _ _ => rfl) (fun _ _ _ => rfl) hvalues []).bind fun _ => pure

theorem AnnotationOf.alike (item : Annotation) :
    Alike pool scope (AnnotationOf.emit item) scope' (AnnotationOf.emit item) :=
  AnnotationOf.alike_of fun pair _ => pair.value.alike

/-! ### Records with labels -/

theorem LineNumber.alike_emitIn (item : LineNumber) : Alike pool scope item.emit scope' (item.emitIn scope.code) :=
  label.bind fun _ => pure

theorem LocalVariable.alike_emitIn (item : LocalVariable) :
    Alike pool scope item.emit scope' (item.emitIn scope.code) :=
  labelPc.bind fun _ => labelPc.bind fun _ => cell.bind fun _ => cell.bind fun _ => pure

theorem Handler.alike_emitIn (item : Handler) : Alike pool scope item.emit scope' (item.emitIn scope.code) :=
  label.bind fun _ => label.bind fun _ => label.bind fun _ => cell?.bind fun _ => pure

/-- Code is written in its own scope, of which the rest of the scope is the method. -/
theorem Body.alike_emitWith {body : Body} {layout : Layout} (hmethod : scope.method = scope'.method) :
    Alike pool scope (body.emitWith layout) scope' (body.emitWith layout) := by
  obtain ⟨method, code⟩ := scope
  obtain ⟨method', code'⟩ := scope'
  obtain rfl : method = method' := hmethod
  have hinner : Alike pool ⟨method, some layout⟩ _ ⟨method, some layout⟩ _ := .of_outcome
    (Emit.Outcome.each fun (item : Instruction × Nat) (_ : item ∈ body.instructions.toList.zip layout.starts.toList) =>
      (Instruction.outcome_emit : Emit.Outcome pool ⟨method, some layout⟩ (item.1.emit item.2) _ _).mono
        (fun _ _ => trivial) fun _ _ => trivial)
  -- Both sides enter the scope of the code; `inCode` leaves it on one of them.
  exact Alike.inCode (Alike.inCode hinner.symm).symm

/-! ### Attributes -/

/-- What writing an attribute should come to, in every scope. -/
private def Attribute.Scoped (pool : Pool) (inner : Attribute) : Prop :=
  ∀ scope scope' : Scope, scope.method = scope'.method → Alike pool scope inner.emit scope' (inner.emitIn scope.code)

private theorem Attribute.alike_row {attributes : List Attribute} (h : ∀ inner ∈ attributes, inner.Scoped pool)
    (hmethod : scope.method = scope'.method) :
    Alike pool scope (Attribute.emitAll attributes []) scope' (Attribute.emitAllIn scope.code attributes []) :=
  Alike.row Attribute.emitAll (Attribute.emitAllIn scope.code) (fun _ => ⟨rfl, rfl⟩) (fun _ _ _ => rfl)
    (fun _ _ _ => rfl) (fun inner hinner => h inner hinner scope scope' hmethod) []

private theorem Component.alike_of {component : Component} (h : ∀ inner ∈ component.attributes, inner.Scoped pool)
    (hmethod : scope.method = scope'.method) :
    Alike pool scope (Component.emit component) scope' (Component.emitIn scope.code component) := by
  obtain ⟨name, descriptor, attributes⟩ := component
  refine cell.bind fun _ => cell.bind fun _ => count.bind fun _ => ?_
  exact (Attribute.alike_row h hmethod).bind fun _ => pure

/-- Code is written alike in every scope of its method: no layout from outside has a part in it. -/
private theorem Code.alike_of {code : Code} (h : ∀ inner ∈ code.attributes, inner.Scoped pool)
    (hmethod : scope.method = scope'.method) : Alike pool scope (Code.emit code) scope' (Code.emitIn code) := by
  obtain ⟨maxStack, maxLocals, body, handlers, attributes⟩ := code
  rw [Code.emit, Code.emitIn]
  cases body.layout with
  | none => exact Alike.throw
  | some layout =>
    -- Inside, the scope has the layout that is handed down, whatever the scope outside has.
    have hrow : Alike pool { scope with code := some layout } (Attribute.emitAll attributes []) scope' _ :=
      Attribute.alike_row h hmethod
    refine (Body.alike_emitWith hmethod).bind fun _ => Alike.bind (Alike.inCode ?_) fun _ => pure
    exact (counted fun item _ => item.alike_emitIn).bind fun _ => count.bind fun _ => hrow.bind fun _ => pure

private theorem Payload.alike_of {payload : Payload Attribute} (h : ∀ inner ∈ payload.nested, inner.Scoped pool)
    (hmethod : scope.method = scope'.method) :
    Alike pool scope payload.emit scope' (payload.emitIn scope.code) := by
  cases payload with
  | code code => exact Code.alike_of h hmethod
  | record components =>
    have hcomponents : ∀ component ∈ components,
        Alike pool scope (Component.emit component) scope' (Component.emitIn scope.code component) :=
      fun component hcomponent => Component.alike_of
        (fun inner hinner => h inner (List.mem_flatMap.2 ⟨component, hcomponent, hinner⟩)) hmethod
    have hrow := Alike.row Component.emitAll (Component.emitAllIn scope.code) (fun _ => ⟨rfl, rfl⟩)
      (fun _ _ _ => rfl) (fun _ _ _ => rfl) hcomponents []
    exact count.bind fun _ => hrow.bind fun _ => pure
  | lineNumbers items => exact counted fun item _ => item.alike_emitIn
  | localVariables table items => exact counted fun item _ => item.alike_emitIn
  | cell kind c => exact Alike.cell
  | cells kind items => exact Alike.cells
  | marker kind => exact pure
  | debugExtension bytes => exact pure
  | raw bytes => exact pure
  | innerClasses items => exact counted fun item _ => item.alike
  | enclosingMethod owner method => exact Alike.cell.bind fun _ => cell?.bind fun _ => pure
  | methodParameters items => exact counted fun item _ => item.alike
  | annotations visibility items => exact counted fun item _ => AnnotationOf.alike item
  | parameterAnnotations visibility items => exact counted fun _ _ => counted fun item _ => AnnotationOf.alike item
  | annotationDefault value => exact value.alike
  | moduleInfo info => exact info.alike
  | bootstrapMethods items => exact counted fun item _ => item.alike

private theorem Attribute.scoped (outer : Attribute) : outer.Scoped pool := by
  induction outer using Attribute.nestedInduction with
  | step name payload ih =>
    intro scope scope' hmethod
    exact cell.bind fun _ => (Payload.alike_of ih hmethod).bind fun _ => pure

/-- An attribute is written as if its layout was handed down. -/
theorem Attribute.alike_emitIn (outer : Attribute) (hmethod : scope.method = scope'.method) :
    Alike pool scope outer.emit scope' (outer.emitIn scope.code) :=
  outer.scoped scope scope' hmethod

theorem Code.alike_emitIn (code : Code) (hmethod : scope.method = scope'.method) :
    Alike pool scope (Code.emit code) scope' (Code.emitIn code) :=
  Code.alike_of (fun inner _ => inner.scoped) hmethod

/-! ### Methods -/

/-- The bytes of a method whose attributes, if they are not inside of code, have the labels of the code that is
given. -/
def Method.emitIn (code : Option Layout) (method : Method) : Emit Bytes := do
  let name := ((← read).utf8? method.name).getD ""
  Emit.inMethod name do
    return method.flags.encode ++ (← Emit.cell method.name) ++ (← Emit.cell method.descriptor)
      ++ (← Emit.records method.attributes (Attribute.emitIn code))

theorem Method.alike_emitIn (method : Method) : Alike pool scope method.emit scope' (method.emitIn scope.code) := by
  refine Alike.read.bind fun found => Alike.inMethod ?_
  have hattributes : ∀ outer ∈ method.attributes, Alike pool
      { scope with method := some ((found.utf8? method.name).getD "") } outer.emit
      { scope' with method := some ((found.utf8? method.name).getD "") } (outer.emitIn scope.code) :=
    fun outer _ => outer.alike_emitIn rfl
  exact cell.bind fun _ => cell.bind fun _ => (counted hattributes).bind fun _ => pure

theorem Emit.Alike.state_left {α : Type} {action action' : Emit α} (h : Alike pool scope action scope' action')
    (warnings : Array Warning) : (PoolOp.left (action pool ⟨scope, warnings⟩)).state = scope := by
  obtain ⟨result, after, hrun, -⟩ := h warnings
  rw [hrun]
  cases result <;> rfl

/-- Whatever is written, whether it fails or not, the scope behind it is the scope before it. And what is written comes
to the same as handing down layouts: in code, and in everything nested in it, each label is looked up in the layout of
the innermost code around it, also behind code that is nested there, and whatever code the writing is in. -/
theorem scope_restored (pool : Pool) (s : Reported Scope) :
    (∀ method : Method, (PoolOp.left (method.emit pool s)).state = s.state) ∧
    (∀ outer : Attribute, (PoolOp.left (outer.emit pool s)).state = s.state) ∧
    (∀ code : Code, (PoolOp.left (Code.emit code pool s)).state = s.state) ∧
    (∀ body : Body, (PoolOp.left (body.emit pool s)).state = s.state) ∧
    ∀ other : Option Layout,
      (∀ method : Method,
        Alike pool s.state method.emit { s.state with code := other } (method.emitIn s.state.code)) ∧
      (∀ outer : Attribute,
        Alike pool s.state outer.emit { s.state with code := other } (outer.emitIn s.state.code)) ∧
      ∀ code : Code, Alike pool s.state (Code.emit code) { s.state with code := other } (Code.emitIn code) := by
  obtain ⟨scope, warnings⟩ := s
  have hmethod : ∀ other, scope.method = ({ scope with code := other } : Scope).method := fun _ => rfl
  refine ⟨fun method => ?_, fun outer => ?_, fun code => ?_, fun body => ?_, fun other => ⟨fun method => ?_,
    fun outer => outer.alike_emitIn (hmethod other), fun code => Code.alike_emitIn code (hmethod other)⟩⟩
  · exact (method.alike_emitIn : Alike pool scope _ scope _).state_left warnings
  · exact (outer.alike_emitIn rfl : Alike pool scope _ scope _).state_left warnings
  · exact (Code.alike_emitIn code rfl : Alike pool scope _ scope _).state_left warnings
  · exact (Alike.of_outcome Body.outcome_emit : Alike pool scope body.emit scope _).state_left warnings
  · exact method.alike_emitIn

end JvmAssembler
