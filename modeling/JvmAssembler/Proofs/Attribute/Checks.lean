import JvmAssembler.Attribute.Emit
import JvmAssembler.Proofs.Attribute.Length
import JvmAssembler.Proofs.Check

/-!
# The checks of attributes

The checks of each record that attributes are made of, in the order in which writing the record makes them.
Which cells are looked up does not depend on the scope (`Attribute.lookups_checks`), so that it makes sense to speak
of the cells of an attribute.
-/

namespace JvmAssembler

/-- The constants that instructions refer to. -/
def Body.cells (body : Body) : List Cell :=
  body.instructions.toList.filterMap fun instruction =>
    match instruction.operand with
    | .constant cell => some cell
    | _ => none

theorem Body.mem_cells {body : Body} {instruction : Instruction} (h : instruction ∈ body.instructions.toList)
    {cell : Cell} (hop : instruction.operand = .constant cell) : cell ∈ body.cells :=
  List.mem_filterMap.2 ⟨instruction, h, by rw [hop]⟩

/-- The cells that a check looks up. -/
def Check.lookups : Check → List Cell
  | .cell c => [c]
  | .label _ _ | .count _ _ _ => []
  | .code _ body => body.cells

open Check (cell? counted)

/-! ### Records without attributes -/

def InnerClass.checks (item : InnerClass) : List Check :=
  .cell item.inner :: (cell? item.outer ++ cell? item.name)

def LineNumber.checks (item : LineNumber) (scope : Scope) : List Check := [.label scope item.start]

def LocalVariable.checks (item : LocalVariable) (scope : Scope) : List Check :=
  [.label scope item.start, .label scope item.stop, .cell item.name, .cell item.descriptor]

def MethodParameter.checks (item : MethodParameter) : List Check := cell? item.name

def Handler.checks (item : Handler) (scope : Scope) : List Check :=
  [.label scope item.start, .label scope item.stop, .label scope item.handler] ++ cell? item.catchType

def Bootstrap.checks (item : Bootstrap) : List Check :=
  .cell item.handle :: counted 2 "bootstrap arguments" item.arguments fun cell => [.cell cell]

def Requirement.checks (item : Requirement) : List Check := .cell item.target :: cell? item.version

def Export.checks (item : Export) : List Check := .cell item.package :: Check.cells item.modules

def Provision.checks (item : Provision) : List Check := .cell item.service :: Check.cells item.providers

def ModuleInfo.checks (info : ModuleInfo) : List Check :=
  .cell info.name :: cell? info.version ++ counted 2 "records" info.requires Requirement.checks
    ++ counted 2 "records" info.exports Export.checks ++ counted 2 "records" info.opens Export.checks
    ++ Check.cells info.uses ++ counted 2 "records" info.provides Provision.checks

mutual

def ElementValue.checks : ElementValue → List Check
  | .constant _ cell | .classInfo cell => [.cell cell]
  | .enumerator typeName constName => [.cell typeName, .cell constName]
  | .nested value => AnnotationOf.checks value
  | .array values => .count 2 "records" values.length :: ElementValue.checksAll values
termination_by structural value => value

def ElementValue.checksAll : List ElementValue → List Check
  | [] => []
  | value :: rest => value.checks ++ ElementValue.checksAll rest
termination_by structural values => values

def AnnotationOf.checks : AnnotationOf ElementValue → List Check
  | ⟨typeName, elements⟩ =>
    .cell typeName :: .count 2 "records" elements.length :: ElementPair.checksAll elements
termination_by structural value => value

def ElementPair.checksAll : List (ElementPair ElementValue) → List Check
  | [] => []
  | pair :: rest => ElementPair.checks pair ++ ElementPair.checksAll rest
termination_by structural pairs => pairs

def ElementPair.checks : ElementPair ElementValue → List Check
  | ⟨name, value⟩ => .cell name :: value.checks
termination_by structural pair => pair

end

theorem ElementValue.checksAll_eq (values : List ElementValue) :
    ElementValue.checksAll values = values.flatMap ElementValue.checks := by
  induction values with
  | nil => rfl
  | cons value values ih => rw [ElementValue.checksAll, ih, List.flatMap_cons]

theorem ElementPair.checksAll_eq (pairs : List (ElementPair ElementValue)) :
    ElementPair.checksAll pairs = pairs.flatMap ElementPair.checks := by
  induction pairs with
  | nil => rfl
  | cons pair pairs ih => rw [ElementPair.checksAll, ih, List.flatMap_cons]

/-! ### Attributes -/

mutual

def Attribute.checks : Attribute → (scope : Scope) → List Check
  | ⟨name, payload⟩, scope => .cell name :: Payload.checks payload scope
termination_by structural nested => nested

def Payload.checks : Payload Attribute → (scope : Scope) → List Check
  | .cell _ cell, _ => [.cell cell]
  | .cells _ cells, _ => Check.cells cells
  | .marker _, _ | .debugExtension _, _ | .raw _, _ => []
  | .code code, scope => Code.checks code scope
  | .innerClasses items, _ => counted 2 "attribute entries" items InnerClass.checks
  | .enclosingMethod owner method, _ => .cell owner :: cell? method
  | .lineNumbers items, scope => counted 2 "attribute entries" items (·.checks scope)
  | .localVariables _ items, scope => counted 2 "attribute entries" items (·.checks scope)
  | .methodParameters items, _ => counted 1 "attribute entries" items MethodParameter.checks
  | .annotations _ items, _ => counted 2 "attribute entries" items AnnotationOf.checks
  | .parameterAnnotations _ items, _ =>
    counted 1 "attribute entries" items fun group => counted 2 "records" group AnnotationOf.checks
  | .annotationDefault value, _ => value.checks
  | .moduleInfo info, _ => info.checks
  | .record components, scope =>
    .count 2 "attribute entries" components.length :: Component.checksAll components scope
  | .bootstrapMethods items, _ => counted 2 "attribute entries" items Bootstrap.checks
termination_by structural payload => payload

/-- The labels behind the code are looked up in that code. -/
def Code.checks : CodeOf Attribute → (scope : Scope) → List Check
  | ⟨_, _, body, handlers, attributes⟩, scope =>
    .code scope body :: (counted 2 "records" handlers (·.checks { scope with code := body.layout })
      ++ .count 2 "records" attributes.length :: Attribute.checksAll attributes { scope with code := body.layout })
termination_by structural code => code

def Attribute.checksAll : List Attribute → (scope : Scope) → List Check
  | [], _ => []
  | inner :: rest, scope => inner.checks scope ++ Attribute.checksAll rest scope
termination_by structural attributes => attributes

def Component.checks : ComponentOf Attribute → (scope : Scope) → List Check
  | ⟨name, descriptor, attributes⟩, scope =>
    .cell name :: .cell descriptor :: .count 2 "records" attributes.length :: Attribute.checksAll attributes scope
termination_by structural component => component

def Component.checksAll : List (ComponentOf Attribute) → (scope : Scope) → List Check
  | [], _ => []
  | component :: rest, scope => Component.checks component scope ++ Component.checksAll rest scope
termination_by structural components => components

end

variable {scope scope' : Scope}

theorem Attribute.checksAll_eq (attributes : List Attribute) :
    Attribute.checksAll attributes scope = attributes.flatMap (·.checks scope) := by
  induction attributes with
  | nil => rfl
  | cons inner attributes ih => rw [Attribute.checksAll, ih, List.flatMap_cons]

theorem Component.checksAll_eq (components : List Component) :
    Component.checksAll components scope = components.flatMap (Component.checks · scope) := by
  induction components with
  | nil => rfl
  | cons component components ih => rw [Component.checksAll, ih, List.flatMap_cons]

/-! ### The cells of attributes -/

/-- The cells that a list of checks looks up. -/
def Check.allLookups (checks : List Check) : List Cell := checks.flatMap lookups

namespace Check

@[simp] theorem allLookups_cons (check : Check) (checks : List Check) :
    allLookups (check :: checks) = check.lookups ++ allLookups checks := rfl

@[simp] theorem allLookups_append (before after : List Check) :
    allLookups (before ++ after) = allLookups before ++ allLookups after :=
  List.flatMap_append

theorem allLookups_flatMap {α : Type} (items : List α) (checks : α → List Check) :
    allLookups (items.flatMap checks) = items.flatMap fun a => allLookups (checks a) :=
  List.flatMap_assoc

theorem allLookups_counted {α : Type} (width : Nat) (what : String) (items : List α) (checks : α → List Check) :
    allLookups (counted width what items checks) = items.flatMap fun a => allLookups (checks a) :=
  allLookups_flatMap items checks

end Check

open Check (allLookups allLookups_cons allLookups_append allLookups_flatMap allLookups_counted)

/-- The scopes play no part, and of the code only the constants of its instructions. -/
theorem Code.lookups_checks_of {maxStack maxLocals : UInt16} {body body' : Body} {handlers : List Handler}
    {attributes : List Attribute} (hbody : body.cells = body'.cells)
    (h : ∀ inner ∈ attributes, ∀ scope scope', allLookups (inner.checks scope) = allLookups (inner.checks scope')) :
    allLookups (Code.checks ⟨maxStack, maxLocals, body, handlers, attributes⟩ scope) =
      allLookups (Code.checks ⟨maxStack, maxLocals, body', handlers, attributes⟩ scope') := by
  have hhandlers : allLookups (counted 2 "records" handlers (·.checks { scope with code := body.layout })) =
      allLookups (counted 2 "records" handlers (·.checks { scope' with code := body'.layout })) := by
    rw [allLookups_counted, allLookups_counted]
    rfl
  have hattributes : allLookups (attributes.flatMap (·.checks { scope with code := body.layout })) =
      allLookups (attributes.flatMap (·.checks { scope' with code := body'.layout })) := by
    rw [allLookups_flatMap, allLookups_flatMap]
    exact List.flatMap_congr fun inner hinner => h inner hinner _ _
  simp only [Code.checks, allLookups_cons, allLookups_append, Attribute.checksAll_eq, hhandlers, hattributes,
    Check.lookups, hbody]

theorem Attribute.lookups_checks (outer : Attribute) :
    ∀ scope scope', allLookups (outer.checks scope) = allLookups (outer.checks scope') := by
  induction outer using Attribute.nestedInduction with
  | step name payload ih =>
    intro scope scope'
    simp only [Attribute.checks, allLookups_cons]
    congr 1
    cases payload with
    | code code =>
      obtain ⟨maxStack, maxLocals, body, handlers, attributes⟩ := code
      rw [Payload.checks, Payload.checks]
      exact Code.lookups_checks_of rfl ih
    | record components =>
      simp only [Payload.checks, allLookups_cons, Component.checksAll_eq]
      congr 1
      rw [allLookups_flatMap, allLookups_flatMap]
      refine List.flatMap_congr fun component hcomponent => ?_
      obtain ⟨name, descriptor, attributes⟩ := component
      simp only [Component.checks, allLookups_cons, Attribute.checksAll_eq, allLookups_flatMap]
      rw [List.flatMap_congr fun inner hinner =>
        ih inner (List.mem_flatMap.2 ⟨_, hcomponent, hinner⟩) scope scope']
    | lineNumbers items =>
      rw [Payload.checks, Payload.checks, allLookups_counted, allLookups_counted]
      rfl
    | localVariables table items =>
      rw [Payload.checks, Payload.checks, allLookups_counted, allLookups_counted]
      rfl
    | _ => rfl

/-- The cells of an attribute. -/
def Attribute.cells (outer : Attribute) : List Cell := allLookups (outer.checks {})

theorem Attribute.mem_cells {outer : Attribute} {check : Check} (h : check ∈ outer.checks scope) {cell : Cell}
    (hcell : cell ∈ check.lookups) : cell ∈ outer.cells := by
  rw [Attribute.cells, outer.lookups_checks {} scope]
  exact List.mem_flatMap.2 ⟨check, h, hcell⟩

end JvmAssembler
