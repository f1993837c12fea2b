import JvmAssembler.Attribute.Emit
import JvmAssembler.Proofs.Attribute.Annotation
import JvmAssembler.Proofs.Bytecode.RoundTrip

/-!
# The lengths of attributes

The length of an attribute is written in front of its contents, before they are written. Here it is shown to
be the number of bytes that follow, for an attribute and for every attribute nested in it:
`Attribute.Framed` describes the bytes of an attribute with all the headers in them, and
`Attribute.ensures_framed` says that writing gives such bytes.
-/

namespace JvmAssembler

variable {pool : Pool} {scope : Scope}

open Emit.Ensures (cell_length cell?_length labelPc label_length cells_length counted_length)

/-! ### Records without attributes -/

@[simp] theorem Flags.length_encode {kind : FlagKind} (flags : Flags kind) : flags.encode.length = 2 :=
  Bytes.length_u16 flags.bits

theorem InnerClass.ensures_length (item : InnerClass) :
    Emit.Ensures pool scope item.emit (fun bytes => bytes.length = 8) := by
  refine cell_length.bind fun inner hinner => cell?_length.bind fun outer houter =>
    cell?_length.bind fun name hname => .pure ?_
  simp [hinner, houter, hname]

theorem LineNumber.ensures_length (item : LineNumber) :
    Emit.Ensures pool scope item.emit (fun bytes => bytes.length = 4) := by
  refine label_length.bind fun start hstart => .pure ?_
  simp [hstart]

theorem LocalVariable.ensures_length (item : LocalVariable) :
    Emit.Ensures pool scope item.emit (fun bytes => bytes.length = 10) := by
  refine labelPc.bind fun start _ => labelPc.bind fun stop _ => cell_length.bind fun name hname =>
    cell_length.bind fun descriptor hdescriptor => .pure ?_
  simp [hname, hdescriptor]

theorem MethodParameter.ensures_length (item : MethodParameter) :
    Emit.Ensures pool scope item.emit (fun bytes => bytes.length = 4) := by
  refine cell?_length.bind fun name hname => .pure ?_
  simp [hname]

theorem Handler.ensures_length (item : Handler) :
    Emit.Ensures pool scope item.emit (fun bytes => bytes.length = 8) := by
  refine label_length.bind fun start hstart => label_length.bind fun stop hstop =>
    label_length.bind fun handler hhandler => cell?_length.bind fun type htype => .pure ?_
  simp [hstart, hstop, hhandler, htype]

theorem Bootstrap.ensures_length (item : Bootstrap) :
    Emit.Ensures pool scope item.emit (fun bytes => bytes.length = item.length) := by
  refine cell_length.bind fun handle hhandle => ?_
  refine (counted_length fun _ _ => cell_length).bind fun arguments harguments => .pure ?_
  rw [List.length_append, hhandle, harguments, Emit.countedLength_const, Bootstrap.length]
  omega

theorem Requirement.ensures_length (item : Requirement) :
    Emit.Ensures pool scope item.emit (fun bytes => bytes.length = item.length) := by
  refine cell_length.bind fun target htarget => cell?_length.bind fun version hversion => .pure ?_
  simp [htarget, hversion, Requirement.length]

theorem Export.ensures_length (item : Export) :
    Emit.Ensures pool scope item.emit (fun bytes => bytes.length = item.length) := by
  refine cell_length.bind fun package hpackage => cells_length.bind fun modules hmodules => .pure ?_
  simp [hpackage, hmodules, Export.length]
  omega

theorem Provision.ensures_length (item : Provision) :
    Emit.Ensures pool scope item.emit (fun bytes => bytes.length = item.length) := by
  refine cell_length.bind fun service hservice => cells_length.bind fun providers hproviders => .pure ?_
  simp [hservice, hproviders, Provision.length]

theorem ModuleInfo.ensures_length (info : ModuleInfo) :
    Emit.Ensures pool scope info.emit (fun bytes => bytes.length = info.length) := by
  refine cell_length.bind fun name hname => cell?_length.bind fun version hversion => ?_
  refine (counted_length fun item _ => item.ensures_length).bind fun requires hrequires => ?_
  refine (counted_length fun item _ => item.ensures_length).bind fun exports hexports => ?_
  refine (counted_length fun item _ => item.ensures_length).bind fun opens hopens => ?_
  refine cells_length.bind fun uses huses => ?_
  refine (counted_length fun item _ => item.ensures_length).bind fun provides hprovides => .pure ?_
  simp only [List.length_append, hname, hversion, hrequires, hexports, hopens, huses, hprovides,
    Flags.length_encode, ModuleInfo.length, Emit.recordsLength]

/-! ### Attributes inside of attributes -/

/-- The attributes directly inside of the contents of an attribute. -/
def Payload.nested {α : Type} : Payload α → List α
  | .code part => part.attributes
  | .record components => components.flatMap (·.attributes)
  | _ => []

/-- Whether the contents of an attribute are of a form that has no attributes inside. -/
def Payload.isPlain {α : Type} : Payload α → Bool
  | .code _ | .record _ => false
  | _ => true

private theorem Attribute.sizeOf_lt_of_mem_nested {name : Cell} {payload : Payload Attribute} {inner : Attribute}
    (h : inner ∈ payload.nested) : sizeOf inner < sizeOf (Attribute.mk name payload) := by
  simp only [Attribute.mk.sizeOf_spec]
  cases payload with
  | code code =>
    obtain ⟨maxStack, maxLocals, body, handlers, attributes⟩ := code
    have hlt : sizeOf inner < sizeOf attributes := List.sizeOf_lt_of_mem h
    simp only [Payload.code.sizeOf_spec, CodeOf.mk.sizeOf_spec]
    omega
  | record components =>
    obtain ⟨⟨name, descriptor, attributes⟩, hcomponent, hinner⟩ := List.mem_flatMap.1 h
    have hlt : sizeOf inner < sizeOf attributes := List.sizeOf_lt_of_mem hinner
    have hlt' := List.sizeOf_lt_of_mem hcomponent
    simp only [Payload.record.sizeOf_spec, ComponentOf.mk.sizeOf_spec] at hlt' ⊢
    omega
  | _ => cases h

@[elab_as_elim]
theorem Attribute.nestedInduction {motive : Attribute → Prop}
    (step : ∀ name payload, (∀ inner ∈ payload.nested, motive inner) → motive ⟨name, payload⟩) (outer : Attribute) :
    motive outer :=
  (measure sizeOf).wf.induction outer fun ⟨name, payload⟩ ih =>
    step name payload fun inner hinner => ih inner (sizeOf_lt_of_mem_nested hinner)

theorem Attribute.lengthAll_eq (attributes : List Attribute) :
    Attribute.lengthAll attributes = total Attribute.length attributes := by
  induction attributes with
  | nil => rfl
  | cons inner attributes ih => rw [Attribute.lengthAll, ih, total_cons]

theorem Component.lengthAll_eq (components : List Component) :
    Component.lengthAll components = total Component.length components := by
  induction components with
  | nil => rfl
  | cons component components ih => rw [Component.lengthAll, ih, total_cons]

/-- All code in an attribute was built by calls. -/
inductive Attribute.Built : Attribute → Prop where
  | intro {name : Cell} {payload : Payload Attribute} :
      (∀ code, payload = .code code → code.body.Built) → (∀ inner ∈ payload.nested, Attribute.Built inner) →
      Attribute.Built ⟨name, payload⟩

mutual

/-- The bytes of an attribute: its name, the number of bytes that follow, and these bytes, in which the nested
attributes are of this form as well. -/
inductive Attribute.Framed (pool : Pool) : Attribute → Bytes → Prop where
  | intro {name : Cell} {index : Nat} {payload : Payload Attribute} {contents : Bytes} :
      pool.indexOf name = .ok index → contents.length < Bytes.capacity 4 → Payload.Framed pool payload contents →
      Attribute.Framed pool ⟨name, payload⟩ (Bytes.be 2 index ++ Bytes.be 4 contents.length ++ contents)

/-- The bytes of the contents of an attribute. -/
inductive Payload.Framed (pool : Pool) : Payload Attribute → Bytes → Prop where
  | code {code : Code} {contents : Bytes} : Code.Framed pool code contents → Payload.Framed pool (.code code) contents
  | record {components : List Component} {parts : List Bytes} :
      List.Forall₂ (Component.Framed pool) components parts →
      Payload.Framed pool (.record components) (Bytes.be 2 components.length ++ parts.flatten)
  | plain {payload : Payload Attribute} {contents : Bytes} :
      payload.isPlain → Payload.Framed pool payload contents

/-- The bytes of code, with the number of its bytes in front of it, and its handlers and attributes behind it. -/
inductive Code.Framed (pool : Pool) : Code → Bytes → Prop where
  | intro {code : Code} {instructions handlers : Bytes} {parts : List Bytes} :
      instructions.length < Bytes.capacity 4 → handlers.length = 8 * code.handlers.length →
      List.Forall₂ (Attribute.Framed pool) code.attributes parts →
      Code.Framed pool code (Bytes.u16 code.maxStack ++ Bytes.u16 code.maxLocals ++
        Bytes.be 4 instructions.length ++ instructions ++ (Bytes.be 2 code.handlers.length ++ handlers ++
        Bytes.be 2 code.attributes.length ++ parts.flatten))

/-- The bytes of a component. -/
inductive Component.Framed (pool : Pool) : Component → Bytes → Prop where
  | intro {component : Component} {name descriptor : Bytes} {parts : List Bytes} :
      name.length = 2 → descriptor.length = 2 →
      List.Forall₂ (Attribute.Framed pool) component.attributes parts →
      Component.Framed pool component
        (name ++ descriptor ++ Bytes.be 2 component.attributes.length ++ parts.flatten)

end

/-! ### Writing attributes -/

/-- What writing an attribute should give. -/
private def Attribute.Agrees (pool : Pool) (inner : Attribute) : Prop :=
  ∀ scope, inner.Built → inner.length < Bytes.capacity 4 →
    Emit.Ensures pool scope inner.emit (fun bytes => bytes.length = inner.length ∧ inner.Framed pool bytes)

private theorem Attribute.length_le_lengthAll {attributes : List Attribute} {inner : Attribute}
    (h : inner ∈ attributes) : inner.length ≤ Attribute.lengthAll attributes := by
  rw [Attribute.lengthAll_eq]
  exact le_total h

private theorem Attribute.ensures_row {attributes : List Attribute}
    (h : ∀ inner ∈ attributes, inner.Agrees pool) (hbuilt : ∀ inner ∈ attributes, inner.Built)
    (hlength : Attribute.lengthAll attributes < Bytes.capacity 4) :
    Emit.Ensures pool scope (Attribute.emitAll attributes []) (fun bytes => ∃ parts, bytes = parts.flatten ∧
      bytes.length = Attribute.lengthAll attributes ∧ List.Forall₂ (Attribute.Framed pool) attributes parts) := by
  have hrow := Emit.Ensures.row Attribute.emitAll (fun _ => rfl) (fun _ _ _ => rfl)
    fun inner hinner => h inner hinner scope (hbuilt inner hinner)
      (Nat.lt_of_le_of_lt (length_le_lengthAll hinner) hlength)
  refine hrow.mono ?_
  rintro _ ⟨parts, rfl, hparts⟩
  have hlengths := Emit.length_flatten (hparts.imp fun _ _ hpart => hpart.1)
  exact ⟨parts, rfl, by rw [hlengths, Attribute.lengthAll_eq], hparts.imp fun _ _ hpart => hpart.2⟩

private theorem Component.length_le_lengthAll {components : List Component} {component : Component}
    (h : component ∈ components) : Component.length component ≤ Component.lengthAll components := by
  rw [Component.lengthAll_eq]
  exact le_total h

/-- An attribute is no longer than what it is in. -/
theorem Payload.length_le_of_mem_nested {payload : Payload Attribute} {inner : Attribute} (h : inner ∈ payload.nested) :
    inner.length ≤ payload.length := by
  cases payload with
  | code code =>
    obtain ⟨maxStack, maxLocals, body, handlers, attributes⟩ := code
    have hle : inner.length ≤ Attribute.lengthAll attributes := Attribute.length_le_lengthAll h
    rw [Payload.length, Code.length]
    omega
  | record components =>
    obtain ⟨component, hcomponent, hinner⟩ := List.mem_flatMap.1 h
    have hle := Attribute.length_le_lengthAll hinner
    have hle' := Component.length_le_lengthAll hcomponent
    rw [Component.length] at hle'
    rw [Payload.length]
    omega
  | _ => cases h

private theorem Component.ensures_framed_of {component : Component}
    (h : ∀ inner ∈ component.attributes, inner.Agrees pool) (hbuilt : ∀ inner ∈ component.attributes, inner.Built)
    (hlength : Component.length component < Bytes.capacity 4) :
    Emit.Ensures pool scope (Component.emit component)
      (fun bytes => bytes.length = Component.length component ∧ Component.Framed pool component bytes) := by
  obtain ⟨name, descriptor, attributes⟩ := component
  have hall : Attribute.lengthAll attributes < Bytes.capacity 4 := by
    rw [Component.length] at hlength
    omega
  refine cell_length.bind fun name hname => cell_length.bind fun descriptor hdescriptor => ?_
  refine Emit.Ensures.count.bind fun count hcount => ?_
  refine (Attribute.ensures_row h hbuilt hall).bind fun _ hrow => .pure ?_
  obtain ⟨parts, rfl, hparts, hframed⟩ := hrow
  rw [hcount.2]
  refine ⟨?_, .intro hname hdescriptor hframed⟩
  simp only [List.length_append, hname, hdescriptor, Bytes.length_be, hparts, Component.length]
  omega

private theorem Code.ensures_tables {handlers : List Handler} {attributes : List Attribute}
    (h : ∀ inner ∈ attributes, inner.Agrees pool) (hbuilt : ∀ inner ∈ attributes, inner.Built)
    (hlength : Attribute.lengthAll attributes < Bytes.capacity 4) :
    Emit.Ensures pool scope (do
        return (← Emit.records handlers Handler.emit) ++ (← Emit.count 2 "records" attributes.length)
          ++ (← Attribute.emitAll attributes []))
      (fun rest => ∃ table parts, rest = Bytes.be 2 handlers.length ++ table ++
        Bytes.be 2 attributes.length ++ parts.flatten ∧ table.length = 8 * handlers.length ∧
        parts.flatten.length = Attribute.lengthAll attributes ∧
        List.Forall₂ (Attribute.Framed pool) attributes parts) := by
  refine (Emit.Ensures.counted fun item _ => item.ensures_length).bind fun table htable => ?_
  refine Emit.Ensures.count.bind fun count hcount => ?_
  refine (Attribute.ensures_row h hbuilt hlength).bind fun row hrow => .pure ?_
  obtain ⟨tables, rfl, -, htables⟩ := htable
  obtain ⟨parts, rfl, hparts, hframed⟩ := hrow
  refine ⟨tables.flatten, parts, by rw [hcount.2], ?_, hparts, hframed⟩
  rw [Emit.length_flatten htables, total_const]

private theorem Code.ensures_framed_of {code : Code}
    (h : ∀ inner ∈ code.attributes, inner.Agrees pool) (hbody : code.body.Built)
    (hbuilt : ∀ inner ∈ code.attributes, inner.Built) (hlength : Code.length code < Bytes.capacity 4) :
    Emit.Ensures pool scope (Code.emit code)
      (fun bytes => bytes.length = Code.length code ∧ Code.Framed pool code bytes) := by
  obtain ⟨maxStack, maxLocals, body, handlers, attributes⟩ := code
  rw [Code.emit]
  cases hlayout : body.layout with
  | none => exact Emit.Ensures.throw
  | some layout =>
    have hcode : body.codeLength = layout.length := by
      rw [Body.codeLength, hlayout]
      rfl
    have hall : Attribute.lengthAll attributes < Bytes.capacity 4 := by
      rw [Code.length] at hlength
      omega
    refine (hbody.ensures_length hlayout).bind fun instructions hinstructions => ?_
    refine (Emit.Ensures.inCode (Code.ensures_tables h hbuilt hall)).bind fun rest hrest => .pure ?_
    obtain ⟨table, parts, rfl, htable, hparts, hframed⟩ := hrest
    rw [← hinstructions] at hcode ⊢
    have hbytes : instructions.length < Bytes.capacity 4 := by
      rw [Code.length] at hlength
      omega
    refine ⟨?_, .intro hbytes htable hframed⟩
    simp only [List.length_append, Bytes.length_u16, Bytes.length_be, htable, hparts, Code.length]
    omega

private theorem Payload.ensures_length_of_plain {payload : Payload Attribute} (h : payload.isPlain) :
    Emit.Ensures pool scope payload.emit (fun bytes => bytes.length = payload.length) := by
  cases payload with
  | code | record => cases h
  | cell kind cell => exact cell_length
  | cells kind cells => exact cells_length
  | marker kind => exact .pure rfl
  | debugExtension bytes => exact .pure rfl
  | raw bytes => exact .pure rfl
  | enclosingMethod owner method =>
    refine cell_length.bind fun owner howner => cell?_length.bind fun method hmethod => .pure ?_
    rw [List.length_append, howner, hmethod, Payload.length]
  | innerClasses items =>
    refine (counted_length fun item _ => item.ensures_length).mono fun bytes hbytes => ?_
    rw [hbytes, Emit.countedLength_const, Payload.length]
  | lineNumbers items =>
    refine (counted_length fun item _ => item.ensures_length).mono fun bytes hbytes => ?_
    rw [hbytes, Emit.countedLength_const, Payload.length]
  | localVariables table items =>
    refine (counted_length fun item _ => item.ensures_length).mono fun bytes hbytes => ?_
    rw [hbytes, Emit.countedLength_const, Payload.length]
  | methodParameters items =>
    refine (counted_length fun item _ => item.ensures_length).mono fun bytes hbytes => ?_
    rw [hbytes, Emit.countedLength_const, Payload.length]
  | annotations visibility items => exact counted_length fun item _ => AnnotationOf.ensures_length item
  | parameterAnnotations visibility items =>
    exact counted_length fun group _ => counted_length fun item _ => AnnotationOf.ensures_length item
  | annotationDefault value => exact value.ensures_length
  | moduleInfo info => exact info.ensures_length
  | bootstrapMethods items => exact counted_length fun item _ => item.ensures_length

private theorem Payload.ensures_framed_of {name : Cell} {payload : Payload Attribute}
    (h : ∀ inner ∈ payload.nested, inner.Agrees pool) (hbuilt : Attribute.Built ⟨name, payload⟩)
    (hlength : payload.length < Bytes.capacity 4) :
    Emit.Ensures pool scope payload.emit
      (fun bytes => bytes.length = payload.length ∧ Payload.Framed pool payload bytes) := by
  cases hbuilt with
  | intro hbody hnested =>
    cases payload with
    | code code =>
      refine (Code.ensures_framed_of h (hbody code rfl) hnested hlength).mono fun bytes hbytes => ?_
      exact ⟨hbytes.1, .code hbytes.2⟩
    | record components =>
      rw [Payload.length] at hlength ⊢
      refine Emit.Ensures.count.bind fun count hcount => ?_
      have hcomponents : ∀ component ∈ components, Emit.Ensures pool scope (Component.emit component)
          (fun bytes => bytes.length = Component.length component ∧ Component.Framed pool component bytes) := by
        intro component hcomponent
        have hle := Component.length_le_lengthAll hcomponent
        have hinner : ∀ inner ∈ component.attributes, inner ∈ (Payload.record components).nested :=
          fun inner hinner => List.mem_flatMap.2 ⟨component, hcomponent, hinner⟩
        exact Component.ensures_framed_of (fun inner h' => h inner (hinner inner h'))
          (fun inner h' => hnested inner (hinner inner h')) (by omega)
      refine (Emit.Ensures.row Component.emitAll (fun _ => rfl) (fun _ _ _ => rfl) hcomponents).bind
        fun row hrow => .pure ?_
      obtain ⟨parts, rfl, hparts⟩ := hrow
      rw [hcount.2]
      refine ⟨?_, .record (hparts.imp fun _ _ hpart => hpart.2)⟩
      rw [List.length_append, Bytes.length_be, Emit.length_flatten (hparts.imp fun _ _ hpart => hpart.1),
        Component.lengthAll_eq]
    | _ => exact (ensures_length_of_plain rfl).mono fun bytes hbytes => ⟨hbytes, .plain rfl⟩

private theorem Attribute.agrees (outer : Attribute) : outer.Agrees pool := by
  induction outer using Attribute.nestedInduction with
  | step name payload ih =>
    intro scope hbuilt hlength
    rw [Attribute.length] at hlength
    refine Emit.Ensures.cell.bind fun index hindex => ?_
    refine (Payload.ensures_framed_of ih hbuilt (by omega)).bind fun contents hcontents => .pure ?_
    obtain ⟨-, index, hname, rfl⟩ := hindex
    obtain ⟨hcontents, hframed⟩ := hcontents
    rw [← hcontents]
    refine ⟨?_, .intro hname (by omega) hframed⟩
    simp only [List.length_append, Bytes.length_be, hcontents, Attribute.length]

/-- An attribute is as long as it says, and so is every attribute in it. -/
theorem Attribute.ensures_framed {outer : Attribute} (hbuilt : outer.Built)
    (hlength : outer.length < Bytes.capacity 4) :
    Emit.Ensures pool scope outer.emit (fun bytes => bytes.length = outer.length ∧ outer.Framed pool bytes) :=
  outer.agrees scope hbuilt hlength

theorem Payload.ensures_framed {name : Cell} {payload : Payload Attribute} (hbuilt : Attribute.Built ⟨name, payload⟩)
    (hlength : payload.length < Bytes.capacity 4) :
    Emit.Ensures pool scope payload.emit
      (fun bytes => bytes.length = payload.length ∧ Payload.Framed pool payload bytes) :=
  Payload.ensures_framed_of (fun inner _ => inner.agrees) hbuilt hlength

theorem Code.ensures_framed {code : Code} (hbody : code.body.Built) (hbuilt : ∀ inner ∈ code.attributes, inner.Built)
    (hlength : Code.length code < Bytes.capacity 4) :
    Emit.Ensures pool scope (Code.emit code)
      (fun bytes => bytes.length = Code.length code ∧ Code.Framed pool code bytes) :=
  Code.ensures_framed_of (fun inner _ => inner.agrees) hbody hbuilt hlength

theorem Component.ensures_framed {component : Component} (hbuilt : ∀ inner ∈ component.attributes, inner.Built)
    (hlength : Component.length component < Bytes.capacity 4) :
    Emit.Ensures pool scope (Component.emit component)
      (fun bytes => bytes.length = Component.length component ∧ Component.Framed pool component bytes) :=
  Component.ensures_framed_of (fun inner _ => inner.agrees) hbuilt hlength

end JvmAssembler
