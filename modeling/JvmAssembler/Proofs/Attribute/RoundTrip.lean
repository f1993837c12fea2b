import JvmAssembler.Proofs.Attribute.Checks
import JvmAssembler.Proofs.Attribute.Decode
import JvmAssembler.Proofs.Pool.Bounds

/-!
# Attributes that were written can be read

For each record there is one lemma: writing it follows its checks, and a reader finds in the bytes what the record
stands for. Nested values and attributes are read to any depth that is at least the number of their bytes, which
is the form in which the induction goes through.
-/

namespace JvmAssembler

variable {pool : Pool} {scope : Scope} {names : Nat → Option String}

/-! ### Numbers that fit -/

/-- Every index and every program counter fits two bytes. -/
structure Emit.Fits (pool : Pool) (scope : Scope) : Prop where
  index : ∀ cell, pool.index cell < Bytes.capacity 2
  pc : ∀ label, scope.pc label < Bytes.capacity 2

theorem Pool.InBounds.index_lt (h : pool.InBounds) (cell : Cell) : pool.index cell < Bytes.capacity 2 := by
  have hcapacity : indexLimit < Bytes.capacity 2 := by decide
  rw [Pool.index]
  cases hindex : pool.indexOf cell with
  | error e => exact Bytes.capacity_pos 2
  | ok index => exact Nat.lt_of_le_of_lt (h.indexOf_le hindex) hcapacity

theorem Scope.pc_lt (h : ∀ layout, scope.code = some layout → layout.Computed) (label : Label) :
    scope.pc label < Bytes.capacity 2 := by
  have hcapacity : Body.maxLength < Bytes.capacity 2 := by decide
  obtain ⟨method, code⟩ := scope
  cases code with
  | none => exact Bytes.capacity_pos 2
  | some layout =>
    obtain ⟨body, method, hcomputed⟩ := h layout rfl
    show (layout.pcOf label).toOption.getD 0 < Bytes.capacity 2
    cases hpc : layout.pcOf label with
    | error e => exact Bytes.capacity_pos 2
    | ok pc => exact Nat.lt_of_le_of_lt (Body.pcOf_le_of_computeLayout hcomputed hpc) hcapacity

/-- The labels of code that was built by calls fit as well. -/
theorem Emit.Fits.inCode (h : Emit.Fits pool scope) {body : Body} (hbody : body.Built) :
    Emit.Fits pool { scope with code := body.layout } :=
  ⟨h.index, Scope.pc_lt hbody.computed⟩

/-! ### Reading numbers and lists -/

theorem Reads.u16 (word : UInt16) : Reads (Reader.nat 2) (Bytes.u16 word) word.toNat :=
  Reads.nat_of_lt word.toNat_lt

/-- Nested items, each of which is read to any depth that is at least its length. -/
theorem Reads.many_deep {α β : Type} {reader : (depth : Nat) → Reader β} {value : α → β} {p : α → Prop}
    {items : List α} {parts : List Bytes}
    (h : List.Forall₂ (fun a bytes => p a → ∀ depth, bytes.length ≤ depth → Reads (reader depth) bytes (value a))
      items parts) (hp : ∀ a ∈ items, p a) {depth : Nat} (hdepth : parts.flatten.length ≤ depth) :
    Reads (Reader.many (reader depth) items.length) parts.flatten (items.map value) := by
  refine Reads.many_map ?_
  induction h with
  | nil => exact .nil
  | cons hpart _ ih =>
    rw [List.flatten_cons, List.length_append] at hdepth
    exact .cons (hpart (hp _ (by simp)) depth (by omega)) (ih (fun a ha => hp a (by simp [ha])) (by omega))

namespace Emit.Follows

theorem reads_cell {cell : Cell} : Follows pool scope (Emit.cell cell) [.cell cell]
    (fun bytes => Fits pool scope → Reads (Reader.nat 2) bytes (pool.index cell)) := by
  refine Follows.cell.mono fun bytes hbytes hfits => ?_
  rw [hbytes.2]
  exact Reads.nat_of_lt (hfits.index cell)

theorem reads_cell? {cell : Option Cell} : Follows pool scope (Emit.cell? cell) (Check.cell? cell)
    (fun bytes => Fits pool scope → Reads (Reader.nat 2) bytes (pool.indexOrZero cell)) := by
  cases cell with
  | none => exact pure fun _ => Reads.nat 2 0
  | some cell => exact reads_cell

theorem labelPc_eq {label : Label} :
    Follows pool scope (Emit.labelPc label) [.label scope label] (· = scope.pc label) := by
  refine Follows.labelPc.mono fun pc hpc => ?_
  rw [Scope.pc, hpc]
  rfl

theorem reads_label {label : Label} : Follows pool scope (Emit.label label) [.label scope label]
    (fun bytes => Fits pool scope → Reads (Reader.nat 2) bytes (scope.pc label)) := by
  refine (labelPc_eq.bind fun pc hpc => pure fun hfits => ?_).congr (List.append_nil _).symm
  rw [hpc]
  exact Reads.nat_of_lt (hfits.pc label)

theorem reads_counted {α β : Type} {width : Nat} {what : String} {items : List α} {item : α → Emit Bytes}
    {needs : α → List Check} {p : Prop} {reader : Reader β} {value : α → β}
    (h : ∀ a ∈ items, Follows pool scope (item a) (needs a) (fun bytes => p → Reads reader bytes (value a))) :
    Follows pool scope (Emit.counted width what items item) (Check.counted width what items needs)
      (fun bytes => p → Reads (Reader.counted width reader) bytes (items.map value)) := by
  refine (Follows.counted h).mono ?_
  rintro _ ⟨parts, rfl, hcount, hparts⟩ hp
  exact Reads.counted hcount (Reads.many_map (hparts.imp fun _ _ hpart => hpart hp))

theorem reads_cells {items : List Cell} : Follows pool scope (Emit.cells items) (Check.cells items)
    (fun bytes => Fits pool scope → Reads (Reader.counted 2 (Reader.nat 2)) bytes (items.map pool.index)) :=
  reads_counted fun _ _ => reads_cell

end Emit.Follows

open Emit (Follows Fits)
open Emit.Follows (reads_cell reads_cell? reads_label labelPc_eq reads_counted reads_cells)

/-! ### Records without attributes -/

theorem InnerClass.follows (item : InnerClass) : Follows pool scope item.emit item.checks
    (fun bytes => Fits pool scope → Reads readInnerClass bytes (item.resolved pool)) := by
  refine (reads_cell.bind fun inner hinner => reads_cell?.bind fun outer houter => reads_cell?.bind fun name hname =>
    .pure fun hfits => ?_).congr (by simp [InnerClass.checks])
  simp only [List.append_assoc]
  exact (hinner hfits).bind ((houter hfits).bind ((hname hfits).bind ((Reads.u16 _).map _)))

theorem LineNumber.follows (item : LineNumber) : Follows pool scope item.emit (item.checks scope)
    (fun bytes => Fits pool scope → Reads readLineNumber bytes (item.resolved scope)) := by
  refine (reads_label.bind fun start hstart => .pure fun hfits => ?_).congr (by simp [LineNumber.checks])
  exact (hstart hfits).bind ((Reads.u16 _).map _)

theorem LocalVariable.follows (item : LocalVariable) : Follows pool scope item.emit (item.checks scope)
    (fun bytes => Fits pool scope → Reads readLocalVariable bytes (item.resolved pool scope)) := by
  refine (labelPc_eq.bind fun start hstart => labelPc_eq.bind fun stop hstop => reads_cell.bind fun name hname =>
    reads_cell.bind fun descriptor hdescriptor => .pure fun hfits => ?_).congr (by simp [LocalVariable.checks])
  subst hstart hstop
  have hstart := hfits.pc item.start
  have hstop := hfits.pc item.stop
  simp only [List.append_assoc]
  exact (Reads.nat_of_lt hstart).bind ((Reads.nat_of_lt (by omega)).bind
    ((hname hfits).bind ((hdescriptor hfits).bind ((Reads.u16 _).map _))))

theorem MethodParameter.follows (item : MethodParameter) : Follows pool scope item.emit item.checks
    (fun bytes => Fits pool scope → Reads readParameter bytes (item.resolved pool)) := by
  refine (reads_cell?.bind fun name hname => .pure fun hfits => ?_).congr (by simp [MethodParameter.checks])
  exact (hname hfits).bind ((Reads.u16 _).map _)

theorem Handler.follows (item : Handler) : Follows pool scope item.emit (item.checks scope)
    (fun bytes => Fits pool scope → Reads readHandler bytes (item.resolved pool scope)) := by
  refine (reads_label.bind fun start hstart => reads_label.bind fun stop hstop =>
    reads_label.bind fun handler hhandler =>
    reads_cell?.bind fun type htype => .pure fun hfits => ?_).congr (by simp [Handler.checks])
  simp only [List.append_assoc]
  exact (hstart hfits).bind ((hstop hfits).bind ((hhandler hfits).bind ((htype hfits).map _)))

theorem Bootstrap.follows (item : Bootstrap) : Follows pool scope item.emit item.checks
    (fun bytes => Fits pool scope → Reads readBootstrap bytes (item.resolved pool)) := by
  refine (reads_cell.bind fun handle hhandle => (reads_counted fun _ _ => reads_cell).bind fun arguments harguments =>
    .pure fun hfits => ?_).congr (by simp [Bootstrap.checks])
  exact (hhandle hfits).bind ((harguments hfits).map _)

theorem Requirement.follows (item : Requirement) : Follows pool scope item.emit item.checks
    (fun bytes => Fits pool scope → Reads readRequirement bytes (item.resolved pool)) := by
  refine (reads_cell.bind fun target htarget => reads_cell?.bind fun version hversion =>
    .pure fun hfits => ?_).congr (by simp [Requirement.checks])
  simp only [List.append_assoc]
  exact (htarget hfits).bind ((Reads.u16 _).bind ((hversion hfits).map _))

theorem Export.follows (item : Export) : Follows pool scope item.emit item.checks
    (fun bytes => Fits pool scope → Reads readExport bytes (item.resolved pool)) := by
  refine (reads_cell.bind fun package hpackage => reads_cells.bind fun modules hmodules =>
    .pure fun hfits => ?_).congr (by simp [Export.checks])
  simp only [List.append_assoc]
  exact (hpackage hfits).bind ((Reads.u16 _).bind ((hmodules hfits).map _))

theorem Provision.follows (item : Provision) : Follows pool scope item.emit item.checks
    (fun bytes => Fits pool scope → Reads readProvision bytes (item.resolved pool)) := by
  refine (reads_cell.bind fun service hservice => reads_cells.bind fun providers hproviders =>
    .pure fun hfits => ?_).congr (by simp [Provision.checks])
  exact (hservice hfits).bind ((hproviders hfits).map _)

theorem ModuleInfo.follows (info : ModuleInfo) : Follows pool scope info.emit info.checks
    (fun bytes => Fits pool scope → Reads readModule bytes (info.resolved pool)) := by
  refine (reads_cell.bind fun name hname => reads_cell?.bind fun version hversion =>
    (reads_counted fun item _ => item.follows).bind fun requires hrequires =>
    (reads_counted fun item _ => item.follows).bind fun exports hexports =>
    (reads_counted fun item _ => item.follows).bind fun opens hopens => reads_cells.bind fun uses huses =>
    (reads_counted fun item _ => item.follows).bind fun provides hprovides =>
    .pure fun hfits => ?_).congr (by simp [ModuleInfo.checks])
  simp only [List.append_assoc]
  exact (hname hfits).bind ((Reads.u16 _).bind ((hversion hfits).bind ((hrequires hfits).bind
    ((hexports hfits).bind ((hopens hfits).bind ((huses hfits).bind ((hprovides hfits).map _)))))))

/-! ### Annotations -/

theorem elementTypeOf?_tag (type : ElementType) : elementTypeOf? type.tag = some type := by
  cases type <;> decide

theorem readValueWith_tag (value : Reader ReadValue) (type : ElementType) {bytes : Bytes} {index : Nat}
    (h : Reads (Reader.nat 2) bytes index) :
    Reads (readValueWith value) (type.tag :: bytes) (.constant type index) := by
  have htags : type.tag ≠ 'e'.toUInt8 ∧ type.tag ≠ 'c'.toUInt8 ∧ type.tag ≠ '@'.toUInt8 ∧ type.tag ≠ '['.toUInt8 := by
    cases type <;> decide
  obtain ⟨he, hc, hat, harray⟩ := htags
  refine Reads.cons ?_
  simp only [he, hc, hat, harray, ↓reduceIte, elementTypeOf?_tag]
  exact h.map _

/-- What writing a value should come to, for all depths of the reader. -/
private def ElementValue.RoundTrips (pool : Pool) (scope : Scope) (value : ElementValue) : Prop :=
  Follows pool scope value.emit value.checks (fun bytes => Fits pool scope → ∀ depth, bytes.length ≤ depth →
    Reads (readValueTo depth) bytes (value.resolved pool))

private theorem ElementPair.follows_of {pair : ElementPair ElementValue} (h : pair.value.RoundTrips pool scope) :
    Follows pool scope (ElementPair.emit pair) (ElementPair.checks pair)
      (fun bytes => Fits pool scope → ∀ depth, bytes.length ≤ depth →
        Reads (readPairWith (readValueTo depth)) bytes (ElementPair.resolved pool pair)) := by
  obtain ⟨name, value⟩ := pair
  refine (reads_cell.bind fun index hindex => h.bind fun bytes hbytes => .pure fun hfits depth hdepth => ?_).congr
    (by simp [ElementPair.checks])
  rw [List.length_append] at hdepth
  exact (hindex hfits).bind ((hbytes hfits depth (by omega)).map _)

private theorem AnnotationOf.follows_of {item : Annotation}
    (h : ∀ pair ∈ item.elements, pair.value.RoundTrips pool scope) :
    Follows pool scope (AnnotationOf.emit item) (AnnotationOf.checks item)
      (fun bytes => Fits pool scope → ∀ depth, bytes.length ≤ depth →
        Reads (readAnnotationWith (readValueTo depth)) bytes (AnnotationOf.resolved pool item)) := by
  obtain ⟨typeName, elements⟩ := item
  have hrow := Follows.row ElementPair.emitAll (fun _ => rfl) (fun _ _ _ => rfl)
    fun pair (hpair : pair ∈ elements) => ElementPair.follows_of (h pair hpair)
  refine (reads_cell.bind fun index hindex => Follows.count.bind fun count hcount => hrow.bind fun row hbytes =>
    .pure fun hfits depth hdepth => ?_).congr (by simp [ AnnotationOf.checks, ElementPair.checksAll_eq])
  obtain ⟨parts, rfl, hparts⟩ := hbytes
  rw [List.length_append] at hdepth
  rw [hcount.2, AnnotationOf.resolved, ElementPair.resolvedAll_eq, List.append_assoc]
  have hmany : Reads (Reader.many (readPairWith (readValueTo depth)) elements.length) parts.flatten _ :=
    Reads.many_deep hparts (fun _ _ => hfits) (by omega)
  exact (hindex hfits).bind ((Reads.counted hcount.1 hmany).map _)

private theorem ElementValue.roundTrips (value : ElementValue) : value.RoundTrips pool scope := by
  induction value using ElementValue.nestedInduction with
  | step value ih =>
    cases value with
    | constant type cell =>
      refine (reads_cell.bind fun index hindex => .pure fun hfits depth hdepth => ?_).congr
        (by simp [ElementValue.checks])
      cases depth with
      | zero => simp at hdepth
      | succ depth => exact readValueWith_tag _ type (hindex hfits)
    | enumerator typeName constName =>
      refine (reads_cell.bind fun type htype => reads_cell.bind fun name hname =>
        .pure fun hfits depth hdepth => ?_).congr (by simp [ElementValue.checks])
      cases depth with
      | zero => simp at hdepth
      | succ depth => exact Reads.cons ((htype hfits).bind ((hname hfits).map _))
    | classInfo descriptor =>
      refine (reads_cell.bind fun index hindex => .pure fun hfits depth hdepth => ?_).congr
        (by simp [ElementValue.checks])
      cases depth with
      | zero => simp at hdepth
      | succ depth => exact Reads.cons ((hindex hfits).map _)
    | nested value =>
      have hvalues : ∀ pair ∈ value.elements, pair.value.RoundTrips pool scope :=
        fun pair hpair => ih pair.value (List.mem_map_of_mem hpair)
      refine ((AnnotationOf.follows_of hvalues).bind fun bytes hbytes => .pure fun hfits depth hdepth => ?_).congr
        (by simp [ElementValue.checks])
      cases depth with
      | zero => simp at hdepth
      | succ depth =>
        rw [List.length_cons] at hdepth
        exact Reads.cons ((hbytes hfits depth (by omega)).map _)
    | array values =>
      have hvalues : ∀ value ∈ values, value.RoundTrips pool scope := ih
      have hrow := Follows.row ElementValue.emitAll (fun _ => rfl) (fun _ _ _ => rfl) hvalues
      refine (Follows.count.bind fun count hcount => hrow.bind fun row hbytes =>
        .pure fun hfits depth hdepth => ?_).congr (by simp [ElementValue.checks, ElementValue.checksAll_eq])
      obtain ⟨parts, rfl, hparts⟩ := hbytes
      cases depth with
      | zero => simp at hdepth
      | succ depth =>
        rw [List.length_cons, List.length_append] at hdepth
        rw [hcount.2, ElementValue.resolved, ElementValue.resolvedAll_eq]
        have hmany : Reads (Reader.many (readValueTo depth) values.length) parts.flatten _ :=
          Reads.many_deep hparts (fun _ _ => hfits) (by omega)
        exact Reads.cons ((Reads.counted hcount.1 hmany).map _)

theorem ElementValue.follows (value : ElementValue) : Follows pool scope value.emit value.checks
    (fun bytes => Fits pool scope → Reads readValue bytes (value.resolved pool)) :=
  Follows.mono value.roundTrips fun _ hbytes hfits => Reads.nested (hbytes hfits)

theorem AnnotationOf.follows (item : Annotation) :
    Follows pool scope (AnnotationOf.emit item) (AnnotationOf.checks item)
    (fun bytes => Fits pool scope → Reads readAnnotation bytes (AnnotationOf.resolved pool item)) :=
  (AnnotationOf.follows_of fun pair _ => pair.value.roundTrips).mono fun _ hbytes hfits => Reads.nested (hbytes hfits)

/-! ### Attributes -/

/-- The form of the contents of an attribute. -/
def Payload.form? {α : Type} : Payload α → Option AttributeForm
  | .cell kind _ => some (.cell kind)
  | .cells kind _ => some (.cells kind)
  | .marker kind => some (.marker kind)
  | .debugExtension _ => some .debugExtension
  | .code _ => some .code
  | .innerClasses _ => some .innerClasses
  | .enclosingMethod _ _ => some .enclosingMethod
  | .lineNumbers _ => some .lineNumbers
  | .localVariables table _ => some (.localVariables table)
  | .methodParameters _ => some .methodParameters
  | .annotations visibility _ => some (.annotations visibility)
  | .parameterAnnotations visibility _ => some (.parameterAnnotations visibility)
  | .annotationDefault _ => some .annotationDefault
  | .moduleInfo _ => some .moduleInfo
  | .record _ => some .record
  | .bootstrapMethods _ => some .bootstrapMethods
  | .raw _ => none

/-- The contents may be those of an attribute with this name: it is the name of their form, or no name that has a
meaning if they are taken as they are. -/
def Payload.IsNamed {α : Type} (payload : Payload α) (text : String) : Prop :=
  match payload with
  | .raw _ => AttributeForm.named? text = none
  | _ => text = payload.name

/-- A reader that knows an attribute by its name takes its contents for what they are. -/
theorem Payload.IsNamed.form {α : Type} {payload : Payload α} {text : String} (h : payload.IsNamed text) :
    AttributeForm.named? text = payload.form? := by
  cases payload with
  | raw bytes => exact h
  | cell kind cell => cases kind <;> (obtain rfl := h; rfl)
  | cells kind cells => cases kind <;> (obtain rfl := h; rfl)
  | marker kind => cases kind <;> (obtain rfl := h; rfl)
  | localVariables table items => cases table <;> (obtain rfl := h; rfl)
  | annotations visibility items => cases visibility <;> (obtain rfl := h; rfl)
  | parameterAnnotations visibility items => cases visibility <;> (obtain rfl := h; rfl)
  | _ =>
    obtain rfl := h
    rfl

/-- An attribute that can be read back by its name: `names` has the name, the code of the attribute was built by calls,
and all this holds of the attributes inside of it. -/
inductive Attribute.Readable (pool : Pool) (names : Nat → Option String) : Attribute → Prop where
  | intro {name : Cell} {payload : Payload Attribute} {text : String} :
      names (pool.index name) = some text → payload.IsNamed text →
      (∀ code, payload = .code code → code.body.Built) →
      (∀ inner ∈ payload.nested, Attribute.Readable pool names inner) → Attribute.Readable pool names ⟨name, payload⟩

theorem Attribute.Readable.built {outer : Attribute} (h : outer.Readable pool names) : outer.Built := by
  induction h with
  | intro _ _ hbody _ ih => exact .intro hbody ih

/-- A readable attribute whose length fits its header. -/
private structure Attribute.Sound (pool : Pool) (names : Nat → Option String) (outer : Attribute) : Prop where
  readable : outer.Readable pool names
  length_lt : outer.payload.length < Bytes.capacity 4

private theorem Attribute.Sound.nested {outer : Attribute} (h : outer.Sound pool names) :
    ∀ inner ∈ outer.payload.nested, inner.Sound pool names := by
  intro inner hinner
  obtain ⟨hreadable, hlength⟩ := h
  have hle := Payload.length_le_of_mem_nested hinner
  have hsplit : inner.length = 6 + inner.payload.length := by
    obtain ⟨name, payload⟩ := inner
    rw [Attribute.length]
  cases hreadable with
  | intro _ _ _ hnested => exact ⟨hnested inner hinner, by omega⟩

/-- What writing an attribute should come to, for all scopes and depths of the reader. -/
private def Attribute.RoundTrips (pool : Pool) (names : Nat → Option String) (outer : Attribute) : Prop :=
  ∀ scope, Follows pool scope outer.emit (outer.checks scope)
    (fun bytes => Fits pool scope ∧ outer.Sound pool names → ∀ depth, bytes.length ≤ depth →
      Reads (readAttributeTo names depth) bytes (outer.resolved pool scope))

private theorem Attribute.follows_row {attributes : List Attribute}
    (h : ∀ inner ∈ attributes, inner.RoundTrips pool names) :
    Follows pool scope (Attribute.emitAll attributes []) (Attribute.checksAll attributes scope)
      (fun bytes => Fits pool scope → (∀ inner ∈ attributes, inner.Sound pool names) → ∀ depth,
        bytes.length ≤ depth → Reads (Reader.many (readAttributeTo names depth) attributes.length) bytes
          (Attribute.resolvedAll pool attributes scope)) := by
  rw [Attribute.checksAll_eq, Attribute.resolvedAll_eq]
  refine (Follows.row Attribute.emitAll (fun _ => rfl) (fun _ _ _ => rfl)
    fun inner hinner => h inner hinner scope).mono ?_
  rintro _ ⟨parts, rfl, hparts⟩ hfits hsound depth hdepth
  exact Reads.many_deep hparts (fun inner hinner => ⟨hfits, hsound inner hinner⟩) hdepth

private theorem Component.follows_of (scope : Scope) {component : Component}
    (h : ∀ inner ∈ component.attributes, inner.RoundTrips pool names) :
    Follows pool scope (Component.emit component) (Component.checks component scope)
      (fun bytes => Fits pool scope ∧ (∀ inner ∈ component.attributes, inner.Sound pool names) → ∀ depth,
        bytes.length ≤ depth → Reads (readComponentWith (readAttributeTo names depth)) bytes
          (Component.resolved pool component scope)) := by
  obtain ⟨name, descriptor, attributes⟩ := component
  refine (reads_cell.bind fun name hname => reads_cell.bind fun descriptor hdescriptor =>
    Follows.count.bind fun count hcount => (Attribute.follows_row h).bind fun row hrow =>
    .pure fun hsound depth hdepth => ?_).congr (by simp [Component.checks])
  obtain ⟨hfits, hsound⟩ := hsound
  rw [List.length_append] at hdepth
  simp only [hcount.2, List.append_assoc]
  have hattributes := Reads.counted hcount.1 (hrow hfits hsound depth (by omega))
  exact (hname hfits).bind ((hdescriptor hfits).bind (hattributes.map _))

/-- The handlers and attributes of code, whose labels are those of the code. -/
private theorem Code.follows_tables {handlers : List Handler} {attributes : List Attribute}
    (h : ∀ inner ∈ attributes, inner.RoundTrips pool names) :
    Follows pool scope (do
        return (← Emit.records handlers Handler.emit) ++ (← Emit.count 2 "records" attributes.length)
          ++ (← Attribute.emitAll attributes []))
      (Check.counted 2 "records" handlers (·.checks scope)
        ++ .count 2 "records" attributes.length :: Attribute.checksAll attributes scope)
      (fun rest => Fits pool scope → (∀ inner ∈ attributes, inner.Sound pool names) → ∀ depth,
        rest.length ≤ depth → ∃ table row, rest = table ++ row ∧
          Reads (Reader.counted 2 readHandler) table (handlers.map (·.resolved pool scope)) ∧
          Reads (Reader.counted 2 (readAttributeTo names depth)) row
            (Attribute.resolvedAll pool attributes scope)) := by
  refine ((reads_counted fun item _ => item.follows).bind fun table htable => Follows.count.bind fun count hcount =>
    (Attribute.follows_row h).bind fun row hrow => .pure fun hfits hsound depth hdepth => ?_).congr (by simp)
  rw [List.length_append] at hdepth
  refine ⟨table, count ++ row, List.append_assoc .., htable hfits, ?_⟩
  rw [hcount.2]
  exact Reads.counted hcount.1 (hrow hfits hsound depth (by omega))

private theorem Code.follows_of {code : Code} (h : ∀ inner ∈ code.attributes, inner.RoundTrips pool names) :
    Follows pool scope (Code.emit code) (Code.checks code scope)
      (fun bytes => Fits pool scope → code.body.Built → (∀ inner ∈ code.attributes, inner.Sound pool names) →
        ∀ depth, bytes.length ≤ depth →
          Reads (readCodeWith (readAttributeTo names depth)) bytes (Code.resolved pool code scope)) := by
  obtain ⟨maxStack, maxLocals, body, handlers, attributes⟩ := code
  rw [Code.emit]
  cases hlayout : body.layout with
  | none =>
    refine Emit.Outcome.throw ?_
    have herror : Check.error? pool (.code scope body) = some .codeNotLaidOut := by
      rw [Check.error?, Body.emit, hlayout]
      rfl
    rw [Code.checks, Check.first?, List.findSome?_cons, herror]
  | some layout =>
    have hemit : body.emit = body.emitWith layout := by rw [Body.emit, hlayout]
    have hbody : Follows pool scope body.emit [.code scope body] _ := Follows.code.value?.with_ensures
      fun hbuilt : body.Built => hemit ▸ hbuilt.ensures_length hlayout
    rw [hemit] at hbody
    refine (hbody.bind fun code hcode => (Follows.inCode (Code.follows_tables h)).bind fun rest hrest =>
      .pure fun hfits hbuilt hsound depth hdepth => ?_).congr (by simp [Code.checks, hlayout])
    obtain ⟨⟨-, hvalue⟩, hlength⟩ := hcode
    have hwritten : body.written pool scope = code := by
      rw [Body.written, hemit, hvalue]
      rfl
    have hcapacity : Body.maxLength < Bytes.capacity 4 := by decide
    have hmax := ((hbuilt.current layout hlayout).le_maxLength (Nat.zero_le _)).1
    have hfits' := hfits.inCode hbuilt
    rw [hlayout] at hfits'
    rw [List.length_append] at hdepth
    obtain ⟨table, row, rfl, htable, hrow⟩ := hrest hfits' hsound depth (by omega)
    rw [Code.resolved, hwritten, hlayout]
    simp only [List.append_assoc]
    exact (Reads.u16 _).bind ((Reads.u16 _).bind ((Reads.nat_of_lt (by omega)).bind
      ((Reads.take (hlength hbuilt)).bind (htable.bind (hrow.map _)))))

private theorem Payload.follows_of (scope : Scope) {payload : Payload Attribute}
    (h : ∀ inner ∈ payload.nested, inner.RoundTrips pool names) :
    Follows pool scope payload.emit (payload.checks scope)
      (fun bytes => Fits pool scope → (∀ code, payload = .code code → code.body.Built) →
        (∀ inner ∈ payload.nested, inner.Sound pool names) → ∀ depth, bytes.length ≤ depth →
          Reads (readPayloadWith (readAttributeTo names depth) bytes.length payload.form?) bytes
            (payload.resolved pool scope)) := by
  -- Most forms are one list or one record; what is left of the reader is then to wrap it up.
  have wrap : ∀ {α : Type} {action : Emit Bytes} {checks : List Check} {reader : Reader α} {value : α}
      (f : α → ReadPayload ReadAttribute), Follows pool scope action checks (fun bytes => Fits pool scope →
        Reads reader bytes value) → Follows pool scope action checks (fun bytes => Fits pool scope →
        (∀ code, payload = .code code → code.body.Built) → (∀ inner ∈ payload.nested, inner.Sound pool names) →
        ∀ depth : Nat, bytes.length ≤ depth → Reads (do return f (← reader)) bytes (f value)) :=
    fun f hfollows => hfollows.mono fun _ hbytes hfits _ _ _ _ => (hbytes hfits).map f
  cases payload with
  | cell kind cell => exact wrap _ reads_cell
  | cells kind cells => exact wrap _ reads_cells
  | marker kind => exact .pure fun _ _ _ _ _ => Reads.pure _
  | debugExtension bytes => exact .pure fun _ _ _ _ _ => (Reads.take rfl).map _
  | raw bytes => exact .pure fun _ _ _ _ _ => (Reads.take rfl).map _
  | code code =>
    refine (Code.follows_of h).mono fun bytes hbytes hfits hbuilt hsound depth hdepth => ?_
    exact (hbytes hfits (hbuilt code rfl) hsound depth hdepth).map _
  | innerClasses items => exact wrap _ (reads_counted fun item _ => item.follows)
  | enclosingMethod owner method =>
    refine (reads_cell.bind fun owner howner => reads_cell?.bind fun method hmethod =>
      .pure fun hfits _ _ _ _ => ?_).congr (by simp [Payload.checks])
    exact (howner hfits).bind ((hmethod hfits).map _)
  | lineNumbers items => exact wrap _ (reads_counted fun item _ => item.follows)
  | localVariables table items => exact wrap _ (reads_counted fun item _ => item.follows)
  | methodParameters items => exact wrap _ (reads_counted fun item _ => item.follows)
  | annotations visibility items => exact wrap _ (reads_counted fun item _ => AnnotationOf.follows item)
  | parameterAnnotations visibility items =>
    exact wrap _ (reads_counted fun group _ => reads_counted fun item _ => AnnotationOf.follows item)
  | annotationDefault value => exact wrap _ value.follows
  | moduleInfo info => exact wrap _ info.follows
  | bootstrapMethods items => exact wrap _ (reads_counted fun item _ => item.follows)
  | record components =>
    have hinner : ∀ component ∈ components, ∀ inner ∈ component.attributes,
        inner ∈ (Payload.record components).nested :=
      fun component hcomponent inner hinner => List.mem_flatMap.2 ⟨component, hcomponent, hinner⟩
    have hrow := Follows.row Component.emitAll (fun _ => rfl) (fun _ _ _ => rfl)
      fun component (hcomponent : component ∈ components) => Component.follows_of scope
        fun inner hinner' => h inner (hinner component hcomponent inner hinner')
    refine (Follows.count.bind fun count hcount => hrow.bind fun row hbytes =>
      .pure fun hfits hbuilt hsound depth hdepth => ?_).congr
        (by simp [Payload.checks, Payload.countWidth, Component.checksAll_eq])
    obtain ⟨parts, rfl, hparts⟩ := hbytes
    rw [List.length_append] at hdepth
    rw [hcount.2, Payload.resolved, Component.resolvedAll_eq]
    have hmany : Reads (Reader.many (readComponentWith (readAttributeTo names depth)) components.length)
        parts.flatten _ := Reads.many_deep hparts (fun component hcomponent =>
      ⟨hfits, fun inner hinner' => hsound inner (hinner component hcomponent inner hinner')⟩) (by omega)
    exact (Reads.counted hcount.1 hmany).map _

private theorem Attribute.roundTrips (names : Nat → Option String) (outer : Attribute) :
    outer.RoundTrips pool names := by
  induction outer using Attribute.nestedInduction with
  | step name payload ih =>
    intro scope
    -- The header has the length of the contents, because the attribute is as long as it says.
    have hpayload := (Payload.follows_of scope ih).with_ensures
      fun hsound : Attribute.Sound pool names ⟨name, payload⟩ =>
        Payload.ensures_framed hsound.readable.built hsound.length_lt
    refine (reads_cell.bind fun index hindex => hpayload.bind fun contents hcontents =>
      .pure fun hsound depth hdepth => ?_).congr (by simp [Attribute.checks])
    obtain ⟨hfits, hsound⟩ := hsound
    obtain ⟨hread, hlength⟩ := hcontents
    replace hlength := (hlength hsound).1
    simp only [List.length_append, Bytes.length_be] at hdepth
    cases depth with
    | zero => omega
    | succ depth =>
      cases hsound.readable with
      | intro hname hnamed hbody _ =>
        have hcontents := hread hfits hbody hsound.nested depth (by omega)
        rw [hlength, ← hnamed.form] at hcontents
        rw [List.append_assoc]
        refine (hindex hfits).bind ((Reads.nat_of_lt hsound.length_lt).bind ?_)
        simp only [hname]
        exact (hcontents.within hlength).map _

/-- Writing the contents of an attribute follows its checks, and a reader finds in the bytes what they stand for. -/
theorem Payload.follows (payload : Payload Attribute) (names : Nat → Option String) (text : String) :
    Follows pool scope payload.emit (payload.checks scope)
      (fun bytes => Fits pool scope → (∀ code, payload = .code code → code.body.Built) → payload.IsNamed text →
        (∀ inner ∈ payload.nested, inner.Readable pool names) →
        (∀ inner ∈ payload.nested, inner.payload.length < Bytes.capacity 4) →
        Reads (readPayload names text bytes.length) bytes (payload.resolved pool scope)) := by
  refine (Payload.follows_of scope fun inner _ => inner.roundTrips names).mono
    fun bytes hbytes hfits hbody hnamed hnested hlength => Reads.nested fun depth hdepth => ?_
  rw [hnamed.form]
  exact hbytes hfits hbody (fun inner hinner => ⟨hnested inner hinner, hlength inner hinner⟩) depth hdepth

end JvmAssembler
