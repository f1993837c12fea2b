import JvmAssembler.ClassFile
import JvmAssembler.Proofs.Attribute.Length

/-!
# The lengths of records

A record of a class file is one of the kinds below, or a list of records of one kind, behind their number. Each
has a length that is known without its references, and bytes. `RecordKind.length_emit` says that they agree, and
that so do the lengths in the headers of all attributes on the way.
-/

namespace JvmAssembler

variable {pool : Pool} {scope : Scope}

/-- The kinds of records. -/
inductive RecordKind where
  | elementValue | elementPair | annotationInfo | requirement | packageExport | provision | moduleInfo
  | innerClass | lineNumber | localVariable | methodParameter | handler | bootstrap | cells
  | payload | attributeInfo | code | component | field | method
  /-- Lists of records of a kind. -/
  | list (item : RecordKind)

namespace RecordKind

/-- The records of a kind. -/
@[reducible] def Value : RecordKind → Type
  | elementValue => ElementValue
  | elementPair => ElementPair ElementValue
  | annotationInfo => Annotation
  | requirement => Requirement
  | packageExport => Export
  | provision => Provision
  | moduleInfo => ModuleInfo
  | innerClass => InnerClass
  | lineNumber => LineNumber
  | localVariable => LocalVariable
  | methodParameter => MethodParameter
  | handler => Handler
  | bootstrap => Bootstrap
  | cells => List Cell
  | payload => Payload Attribute
  | attributeInfo => Attribute
  | code => Code
  | component => Component
  | field => Field
  | method => Method
  | list item => List item.Value

/-- The length of a record in bytes. -/
def length : (kind : RecordKind) → kind.Value → Nat
  | elementValue, value => value.length
  | elementPair, pair => ElementPair.length pair
  | annotationInfo, item => AnnotationOf.length item
  | requirement, item => item.length
  | packageExport, item => item.length
  | provision, item => item.length
  | moduleInfo, info => info.length
  | innerClass, _ => 8
  | lineNumber, _ => 4
  | localVariable, _ => 10
  | methodParameter, _ => 4
  | handler, _ => 8
  | bootstrap, item => item.length
  | cells, items => Emit.cellsLength items
  | payload, contents => contents.length
  | attributeInfo, outer => outer.length
  | code, item => Code.length item
  | component, item => Component.length item
  | field, item => item.length
  | method, item => item.length
  | list item, items => Emit.recordsLength items item.length

/-- The bytes of a record. -/
def emit : (kind : RecordKind) → kind.Value → Emit Bytes
  | elementValue, value => value.emit
  | elementPair, pair => ElementPair.emit pair
  | annotationInfo, item => AnnotationOf.emit item
  | requirement, item => item.emit
  | packageExport, item => item.emit
  | provision, item => item.emit
  | moduleInfo, info => info.emit
  | innerClass, item => item.emit
  | lineNumber, item => item.emit
  | localVariable, item => item.emit
  | methodParameter, item => item.emit
  | handler, item => item.emit
  | bootstrap, item => item.emit
  | cells, items => Emit.cells items
  | payload, contents => contents.emit
  | attributeInfo, outer => outer.emit
  | code, item => Code.emit item
  | component, item => Component.emit item
  | field, item => item.emit
  | method, item => item.emit
  | list item, items => Emit.records items item.emit

/-- All code in a record was built by calls. -/
def Built : (kind : RecordKind) → kind.Value → Prop
  | payload, contents => ∃ name, Attribute.Built ⟨name, contents⟩
  | attributeInfo, outer => outer.Built
  | code, item => item.body.Built ∧ ∀ inner ∈ item.attributes, inner.Built
  | component, item => ∀ inner ∈ item.attributes, inner.Built
  | field, item => ∀ inner ∈ item.attributes, inner.Built
  | method, item => ∀ inner ∈ item.attributes, inner.Built
  | list item, items => ∀ record ∈ items, item.Built record
  | _, _ => True

/-- The bytes of a field or a method: the flags, the name, the descriptor, and then the attributes. -/
def MemberFramed (pool : Pool) (attributes : List Attribute) (bytes : Bytes) : Prop :=
  ∃ head parts, bytes = head ++ (Bytes.be 2 attributes.length ++ parts.flatten) ∧ head.length = 6 ∧
    List.Forall₂ (Attribute.Framed pool) attributes parts

/-- The bytes of a record, with the headers of all attributes in it. -/
def Framed (pool : Pool) : (kind : RecordKind) → kind.Value → Bytes → Prop
  | payload, contents, bytes => Payload.Framed pool contents bytes
  | attributeInfo, outer, bytes => outer.Framed pool bytes
  | code, item, bytes => Code.Framed pool item bytes
  | component, item, bytes => Component.Framed pool item bytes
  | field, item, bytes => MemberFramed pool item.attributes bytes
  | method, item, bytes => MemberFramed pool item.attributes bytes
  | list item, items, bytes =>
    ∃ parts, bytes = Bytes.be 2 items.length ++ parts.flatten ∧ List.Forall₂ (item.Framed pool) items parts
  | _, _, _ => True

private theorem ensures_records {α : Type} {items : List α} {emitItem : α → Emit Bytes} {itemLength : α → Nat}
    {framed : α → Bytes → Prop}
    (h : ∀ item ∈ items, Emit.Ensures pool scope (emitItem item)
      (fun bytes => bytes.length = itemLength item ∧ framed item bytes)) :
    Emit.Ensures pool scope (Emit.records items emitItem)
      (fun bytes => bytes.length = Emit.recordsLength items itemLength ∧
        ∃ parts, bytes = Bytes.be 2 items.length ++ parts.flatten ∧ List.Forall₂ framed items parts) := by
  refine (Emit.Ensures.counted h).mono ?_
  rintro _ ⟨parts, rfl, -, hparts⟩
  refine ⟨?_, parts, rfl, hparts.imp fun _ _ hpart => hpart.2⟩
  rw [List.length_append, Bytes.length_be, Emit.length_flatten (hparts.imp fun _ _ hpart => hpart.1)]
  rfl

private theorem length_lt_of_mem {α : Type} {items : List α} {itemLength : α → Nat} {item : α} {limit : Nat}
    (h : Emit.recordsLength items itemLength < limit) (hitem : item ∈ items) : itemLength item < limit := by
  have hle : itemLength item ≤ total itemLength items := le_total hitem
  rw [Emit.recordsLength, Emit.countedLength] at h
  omega

private theorem ensures_member {attributes : List Attribute} {flags : Bytes} {name descriptor : Cell}
    (hflags : flags.length = 2) (hbuilt : ∀ inner ∈ attributes, inner.Built)
    (hlength : 6 + Emit.recordsLength attributes Attribute.length < Bytes.capacity 4) :
    Emit.Ensures pool scope (do
        return flags ++ (← Emit.cell name) ++ (← Emit.cell descriptor) ++ (← Emit.records attributes Attribute.emit))
      (fun bytes => bytes.length = 6 + Emit.recordsLength attributes Attribute.length ∧
        MemberFramed pool attributes bytes) := by
  have hattributes : Emit.recordsLength attributes Attribute.length < Bytes.capacity 4 := by omega
  refine Emit.Ensures.cell_length.bind fun name hname => Emit.Ensures.cell_length.bind fun descriptor hdescriptor => ?_
  refine (ensures_records fun inner hinner =>
    Attribute.ensures_framed (hbuilt inner hinner) (length_lt_of_mem hattributes hinner)).bind fun table htable =>
      .pure ?_
  obtain ⟨htable, parts, rfl, hparts⟩ := htable
  have hhead : (flags ++ name ++ descriptor).length = 6 := by
    simp only [List.length_append, hflags, hname, hdescriptor]
  refine ⟨?_, flags ++ name ++ descriptor, parts, rfl, hhead, hparts⟩
  rw [List.length_append, hhead, htable]

/-- What is written of a record is as long as the record says, and all headers in it are right. -/
theorem ensures_framed {kind : RecordKind} {record : kind.Value} (hbuilt : kind.Built record)
    (hlength : kind.length record < Bytes.capacity 4) :
    Emit.Ensures pool scope (kind.emit record)
      (fun bytes => bytes.length = kind.length record ∧ kind.Framed pool record bytes) := by
  induction kind with
  | elementValue => exact (ElementValue.ensures_length record).mono fun _ h => ⟨h, trivial⟩
  | elementPair => exact (ElementPair.ensures_length record).mono fun _ h => ⟨h, trivial⟩
  | annotationInfo => exact (AnnotationOf.ensures_length record).mono fun _ h => ⟨h, trivial⟩
  | requirement => exact (Requirement.ensures_length record).mono fun _ h => ⟨h, trivial⟩
  | packageExport => exact (Export.ensures_length record).mono fun _ h => ⟨h, trivial⟩
  | provision => exact (Provision.ensures_length record).mono fun _ h => ⟨h, trivial⟩
  | moduleInfo => exact (ModuleInfo.ensures_length record).mono fun _ h => ⟨h, trivial⟩
  | innerClass => exact (InnerClass.ensures_length record).mono fun _ h => ⟨h, trivial⟩
  | lineNumber => exact (LineNumber.ensures_length record).mono fun _ h => ⟨h, trivial⟩
  | localVariable => exact (LocalVariable.ensures_length record).mono fun _ h => ⟨h, trivial⟩
  | methodParameter => exact (MethodParameter.ensures_length record).mono fun _ h => ⟨h, trivial⟩
  | handler => exact (Handler.ensures_length record).mono fun _ h => ⟨h, trivial⟩
  | bootstrap => exact (Bootstrap.ensures_length record).mono fun _ h => ⟨h, trivial⟩
  | cells => exact Emit.Ensures.cells_length.mono fun _ h => ⟨h, trivial⟩
  | payload =>
    obtain ⟨name, hbuilt⟩ := hbuilt
    exact Payload.ensures_framed hbuilt hlength
  | attributeInfo => exact Attribute.ensures_framed hbuilt hlength
  | code => exact Code.ensures_framed hbuilt.1 hbuilt.2 hlength
  | component => exact Component.ensures_framed hbuilt hlength
  | field => exact ensures_member (Flags.length_encode _) hbuilt hlength
  | method =>
    refine Emit.Ensures.read.bind fun _ _ => ?_
    exact Emit.Ensures.inMethod (ensures_member (Flags.length_encode _) hbuilt hlength)
  | list item ih =>
    exact ensures_records fun record hrecord => ih (hbuilt record hrecord) (length_lt_of_mem hlength hrecord)

/-- Whenever a record is written, in whatever pool and scope, the number of bytes is the length of the record, and
every attribute in it, at any depth, is headed by the number of the bytes that follow. -/
theorem length_emit {kind : RecordKind} {record : kind.Value} {s s' : Reported Scope} {bytes : Bytes}
    (hbuilt : kind.Built record) (hlength : kind.length record < Bytes.capacity 4)
    (hemit : kind.emit record pool s = .ok bytes s') :
    bytes.length = kind.length record ∧ kind.Framed pool record bytes :=
  ((ensures_framed hbuilt hlength).of_ok rfl hemit).2

private def linedMethod (body : Body) : Method where
  flags := ⟨9⟩
  name := ⟨1⟩
  descriptor := ⟨2⟩
  attributes := [{
    name := ⟨3⟩
    payload := .code {
      maxStack := 0
      maxLocals := 1
      body
      handlers := []
      attributes := [{ name := ⟨4⟩, payload := .lineNumbers [⟨⟨0⟩, 7⟩] }] } }]

private theorem built_linedMethod {body : Body} (h : body.Built) : (list method).Built [linedMethod body] := by
  intro record hrecord inner hinner
  obtain rfl := List.mem_singleton.1 hrecord
  obtain rfl := List.mem_singleton.1 hinner
  refine .intro (fun code hcode => ?_) fun nested hnested => ?_
  · obtain rfl := Payload.code.inj hcode
    exact h
  · obtain rfl := List.mem_singleton.1 hnested
    exact .intro nofun nofun

private def linedBody : Body :=
  [.freshLabel, .place ⟨0⟩, .push { opcode := .standard 0x00 }, .push { opcode := .standard 0xB1 },
    .layOut "run"].foldl BodyOp.apply {}

private def linedPool : Pool :=
  { Pool.empty with slots := #[{ binding := .owned .zero, index := some 0 },
      { binding := .owned (.utf8 "run"), index := some 1 }, { binding := .owned (.utf8 "()V"), index := some 2 },
      { binding := .owned (.utf8 "Code"), index := some 3 },
      { binding := .owned (.utf8 "LineNumberTable"), index := some 4 }] }

private def linedBytes : Bytes :=
  [0, 1,
    0, 9, 0, 1, 0, 2, 0, 1,
    0, 3, 0, 0, 0, 26, 0, 0, 0, 1, 0, 0, 0, 2, 0x00, 0xB1, 0, 0, 0, 1,
    0, 4, 0, 0, 0, 6, 0, 1, 0, 0, 0, 7]

theorem length_emit_linedMethod :
    (list method).Built [linedMethod linedBody] ∧
      (list method).length [linedMethod linedBody] < Bytes.capacity 4 ∧
      ∃ s', (list method).emit [linedMethod linedBody] linedPool ⟨{}, #[]⟩ = .ok linedBytes s' ∧
        linedBytes.length = (list method).length [linedMethod linedBody] ∧
        (list method).Framed linedPool [linedMethod linedBody] linedBytes := by
  have hbody : linedBody.Built := ⟨_, rfl⟩
  have hbuilt := built_linedMethod hbody
  have hlength : (list method).length [linedMethod linedBody] < Bytes.capacity 4 := by decide +kernel
  have hvalue : Emit.value? ((list method).emit [linedMethod linedBody]) linedPool ⟨{}, #[]⟩ = some linedBytes := by
    decide +kernel
  obtain ⟨s', hemit⟩ := Emit.exists_of_value? hvalue
  exact ⟨hbuilt, hlength, s', hemit, length_emit hbuilt hlength hemit⟩

end RecordKind

end JvmAssembler
