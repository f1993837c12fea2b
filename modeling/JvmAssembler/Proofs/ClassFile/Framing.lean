import JvmAssembler.ClassFile
import JvmAssembler.Proofs.Attribute.RoundTrip

/-!
# The frame of a class file

A reader that knows no attribute can still find its way through a class file: it skips the contents of each
attribute by the length in front of them. `readClass` is this reader, `ClassFile.IsFramed` says what it should
find, and `ClassFile.follows_emitBody` is the step from the parts to the whole.
-/

namespace JvmAssembler

/-! ### The reader -/

/-- An attribute whose contents are skipped. -/
structure RawAttribute where
  name : Nat
  contents : Bytes
  deriving DecidableEq, Repr

/-- A field or a method. -/
structure RawMember where
  flags : Nat
  name : Nat
  descriptor : Nat
  attributes : List RawAttribute
  deriving DecidableEq, Repr

/-- The parts of a class behind its pool. -/
structure RawBody where
  flags : Nat
  thisClass : Nat
  superClass : Nat
  interfaces : List Nat
  fields : List RawMember
  methods : List RawMember
  attributes : List RawAttribute
  deriving DecidableEq, Repr

/-- A class, with the entries of its pool by index. -/
structure RawClass extends RawBody where
  minor : Nat
  major : Nat
  entries : List (Nat × Constant Nat)
  deriving DecidableEq, Repr

open Reader (nat counted)

def readRawAttribute : Reader RawAttribute := do return ⟨← nat 2, ← Reader.take (← nat 4)⟩

def readRawMember : Reader RawMember := do return ⟨← nat 2, ← nat 2, ← nat 2, ← counted 2 readRawAttribute⟩

/-- The number that every class file starts with. -/
def readMagic : Reader Unit := do if (← nat 4) = 0xCAFEBABE then return () else failure

def readBody : Reader RawBody := do
  return {
    flags := ← nat 2
    thisClass := ← nat 2
    superClass := ← nat 2
    interfaces := ← counted 2 (nat 2)
    fields := ← counted 2 readRawMember
    methods := ← counted 2 readRawMember
    attributes := ← counted 2 readRawAttribute }

def readClass : Reader RawClass := do
  readMagic
  let minor ← nat 2
  let major ← nat 2
  let pool ← Pool.readPool
  return { (← readBody) with minor, major, entries := pool.2 }

/-! ### What a reader should find -/

variable {pool : Pool} {scope : Scope}

/-- The attribute is there with its name, and with what its contents are written as. -/
def Attribute.IsFramed (pool : Pool) (scope : Scope) (outer : Attribute) (raw : RawAttribute) : Prop :=
  pool.indexOf outer.name = .ok raw.name ∧
    ∀ warnings, Emit.value? outer.payload.emit pool ⟨scope, warnings⟩ = some raw.contents

/-- A field or a method is there with all its parts. -/
structure RawMember.Frames (pool : Pool) (scope : Scope) (flags : UInt16) (name descriptor : Cell)
    (attributes : List Attribute) (raw : RawMember) : Prop where
  flags : raw.flags = flags.toNat
  name : pool.indexOf name = .ok raw.name
  descriptor : pool.indexOf descriptor = .ok raw.descriptor
  attributes : List.Forall₂ (Attribute.IsFramed pool scope) attributes raw.attributes

/-- The scope in which the parts of a method are written. -/
def Method.innerScope (pool : Pool) (method : Method) : Scope := { method := some ((pool.utf8? method.name).getD "") }

def Field.IsFramed (pool : Pool) (field : Field) (raw : RawMember) : Prop :=
  raw.Frames pool {} field.flags.bits field.name field.descriptor field.attributes

def Method.IsFramed (pool : Pool) (method : Method) (raw : RawMember) : Prop :=
  raw.Frames pool (method.innerScope pool) method.flags.bits method.name method.descriptor method.attributes

/-- Everything behind the pool is there, part by part and in order. -/
structure ClassFile.HasBody (model : ClassFile) (raw : RawBody) : Prop where
  flags : raw.flags = model.flags.bits.toNat
  thisClass : model.pool.indexOf model.thisClass = .ok raw.thisClass
  superClass : (model.superClass = none ∧ raw.superClass = 0) ∨
    ∃ cell, model.superClass = some cell ∧ model.pool.indexOf cell = .ok raw.superClass
  interfaces : List.Forall₂ (fun cell index => model.pool.indexOf cell = .ok index) model.interfaces raw.interfaces
  fields : List.Forall₂ (Field.IsFramed model.pool) model.fields raw.fields
  methods : List.Forall₂ (Method.IsFramed model.pool) model.methods raw.methods
  attributes : List.Forall₂ (Attribute.IsFramed model.pool {}) model.attributes raw.attributes

/-- The whole class is there, with its version and its pool. -/
structure ClassFile.IsFramed (model : ClassFile) (raw : RawClass) : Prop extends model.HasBody raw.toRawBody where
  minor : raw.minor = model.version.minor.toNat
  major : raw.major = model.version.major.toNat
  entries : model.pool.entries.mapM (fun entry => return (entry.1, ← entry.2.mapM model.pool.indexOf)) =
    .ok raw.entries

/-! ### The checks of members and classes -/

/-- The checks of a field or a method. -/
def memberChecks (name descriptor : Cell) (attributes : List Attribute) (scope : Scope) : List Check :=
  .cell name :: .cell descriptor :: Check.counted 2 "records" attributes (·.checks scope)

def Field.checks (field : Field) : List Check := memberChecks field.name field.descriptor field.attributes {}

def Method.checks (pool : Pool) (method : Method) : List Check :=
  memberChecks method.name method.descriptor method.attributes (method.innerScope pool)

def ClassFile.checks (model : ClassFile) : List Check :=
  .cell model.thisClass :: Check.cell? model.superClass
    ++ Check.counted 2 "interfaces" model.interfaces (fun cell => [.cell cell])
    ++ Check.counted 2 "records" model.fields Field.checks
    ++ Check.counted 2 "records" model.methods (Method.checks model.pool)
    ++ Check.counted 2 "records" model.attributes (·.checks {})

/-! ### Writing -/

open Emit (Follows)

theorem Emit.Follows.frames_counted {α β : Type} {width : Nat} {what : String} {items : List α} {item : α → Emit Bytes}
    {needs : α → List Check} {p : Prop} {reader : Reader β} {related : α → β → Prop}
    (h : ∀ a ∈ items, Follows pool scope (item a) (needs a)
      (fun bytes => p → ∃ b, related a b ∧ Reads reader bytes b)) :
    Follows pool scope (Emit.counted width what items item) (Check.counted width what items needs)
      (fun bytes => p → ∃ values, List.Forall₂ related items values ∧
        Reads (Reader.counted width reader) bytes values) := by
  refine (Follows.counted h).mono ?_
  rintro _ ⟨parts, rfl, hcount, hparts⟩ hp
  obtain ⟨values, hvalues, hreads⟩ := Reads.many (hparts.imp fun _ _ hpart => hpart hp)
  exact ⟨values, hvalues, Reads.counted hcount hreads⟩

/-- An attribute whose code was built by calls, and whose length fits the header. -/
structure Attribute.Sized (outer : Attribute) : Prop where
  built : outer.Built
  length_lt : outer.payload.length < Bytes.capacity 4

theorem Attribute.follows_raw (outer : Attribute) :
    Follows pool scope outer.emit (outer.checks scope) (fun bytes => pool.InBounds → outer.Sized →
      ∃ raw, outer.IsFramed pool scope raw ∧ Reads readRawAttribute bytes raw) := by
  obtain ⟨name, payload⟩ := outer
  have hpayload : Follows pool scope payload.emit _ _ := (payload.follows (fun _ => none) "").value?.with_ensures
    fun hsized : Attribute.Sized ⟨name, payload⟩ => Payload.ensures_framed hsized.built hsized.length_lt
  refine (Follows.cell.bind fun index hindex => hpayload.bind fun contents hcontents =>
    .pure fun hbounds hsized => ?_).congr (by simp [Attribute.checks])
  obtain ⟨⟨-, hvalue⟩, hlength⟩ := hcontents
  replace hlength := (hlength hsized).1
  refine ⟨⟨pool.index name, contents⟩, ⟨hindex.1, hvalue⟩, ?_⟩
  rw [hindex.2, List.append_assoc]
  exact (Reads.nat_of_lt (hbounds.index_lt name)).bind
    ((Reads.nat_of_lt hsized.length_lt).bind ((Reads.take hlength).map _))

/-- What is written of a field or a method, in the scope of its parts. -/
theorem follows_member {attributes : List Attribute} {flags : UInt16} {name descriptor : Cell} :
    Follows pool scope (do
        return Bytes.u16 flags ++ (← Emit.cell name) ++ (← Emit.cell descriptor)
          ++ (← Emit.records attributes Attribute.emit))
      (memberChecks name descriptor attributes scope)
      (fun bytes => pool.InBounds ∧ (∀ outer ∈ attributes, outer.Sized) →
        ∃ raw : RawMember, raw.Frames pool scope flags name descriptor attributes ∧ Reads readRawMember bytes raw) := by
  have hattributes : Follows pool scope (Emit.records attributes Attribute.emit) _ _ :=
    Follows.frames_counted fun outer houter => outer.follows_raw.mono
      fun bytes hbytes (h : pool.InBounds ∧ ∀ outer ∈ attributes, outer.Sized) => hbytes h.1 (h.2 outer houter)
  refine (Follows.cell.bind fun nameBytes hname => Follows.cell.bind fun descriptorBytes hdescriptor =>
    hattributes.bind fun table htable => .pure fun h => ?_).congr (by simp [memberChecks])
  obtain ⟨raws, hraws, hreads⟩ := htable h
  refine ⟨⟨flags.toNat, pool.index name, pool.index descriptor, raws⟩, ⟨rfl, hname.1, hdescriptor.1, hraws⟩, ?_⟩
  rw [hname.2, hdescriptor.2]
  simp only [List.append_assoc]
  exact (Reads.u16 _).bind ((Reads.nat_of_lt (h.1.index_lt name)).bind
    ((Reads.nat_of_lt (h.1.index_lt descriptor)).bind (hreads.map _)))

theorem Field.follows (field : Field) : Follows pool {} field.emit field.checks
    (fun bytes => pool.InBounds ∧ (∀ outer ∈ field.attributes, outer.Sized) →
      ∃ raw, field.IsFramed pool raw ∧ Reads readRawMember bytes raw) :=
  follows_member

theorem Method.follows (method : Method) : Follows pool {} method.emit (method.checks pool)
    (fun bytes => pool.InBounds ∧ (∀ outer ∈ method.attributes, outer.Sized) →
      ∃ raw, method.IsFramed pool raw ∧ Reads readRawMember bytes raw) := by
  refine Follows.read.bind fun found hfound => ?_
  rw [hfound]
  exact Follows.inMethod follows_member

namespace ClassFile

/-- The attributes of a class and of its members. -/
def allAttributes (model : ClassFile) : List Attribute :=
  model.fields.flatMap (·.attributes) ++ (model.methods.flatMap (·.attributes) ++ model.attributes)

/-- Indices and lengths fit their fields in a class file. -/
structure Framable (model : ClassFile) : Prop where
  inBounds : model.pool.InBounds
  sized : ∀ outer ∈ model.allAttributes, outer.Sized

variable {model : ClassFile}

theorem mem_allAttributes {outer : Attribute} : outer ∈ model.allAttributes ↔
    (∃ field ∈ model.fields, outer ∈ field.attributes) ∨ (∃ method ∈ model.methods, outer ∈ method.attributes) ∨
      outer ∈ model.attributes := by
  simp [allAttributes]

theorem follows_cell {cell : Cell} : Follows model.pool {} (Emit.cell cell) [.cell cell]
    (fun bytes => model.Framable → ∃ index, model.pool.indexOf cell = .ok index ∧ Reads (nat 2) bytes index) := by
  refine Follows.cell.mono fun bytes hbytes h => ⟨_, hbytes.1, ?_⟩
  rw [hbytes.2]
  exact Reads.nat_of_lt (h.inBounds.index_lt cell)

theorem follows_superClass : Follows model.pool {} (Emit.cell? model.superClass) (Check.cell? model.superClass)
    (fun bytes => model.Framable → ∃ index, ((model.superClass = none ∧ index = 0) ∨
      ∃ cell, model.superClass = some cell ∧ model.pool.indexOf cell = .ok index) ∧ Reads (nat 2) bytes index) := by
  cases hsuper : model.superClass with
  | none => exact .pure fun _ => ⟨0, .inl ⟨rfl, rfl⟩, Reads.nat 2 0⟩
  | some cell =>
    refine follows_cell.mono fun bytes hbytes h => ?_
    obtain ⟨index, hindex, hread⟩ := hbytes h
    exact ⟨index, .inr ⟨cell, rfl, hindex⟩, hread⟩

theorem follows_fields : Follows model.pool {} (Emit.records model.fields Field.emit)
    (Check.counted 2 "records" model.fields Field.checks) (fun bytes => model.Framable → ∃ raws,
      List.Forall₂ (Field.IsFramed model.pool) model.fields raws ∧ Reads (counted 2 readRawMember) bytes raws) := by
  refine Follows.frames_counted fun field hfield => field.follows.mono fun bytes hbytes h => hbytes ⟨h.inBounds, ?_⟩
  exact fun outer houter => h.sized outer (mem_allAttributes.2 (.inl ⟨field, hfield, houter⟩))

theorem follows_methods : Follows model.pool {} (Emit.records model.methods Method.emit)
    (Check.counted 2 "records" model.methods (Method.checks model.pool)) (fun bytes => model.Framable → ∃ raws,
      List.Forall₂ (Method.IsFramed model.pool) model.methods raws ∧ Reads (counted 2 readRawMember) bytes raws) := by
  refine Follows.frames_counted fun method hmethod => method.follows.mono fun bytes hbytes h => hbytes ⟨h.inBounds, ?_⟩
  exact fun outer houter => h.sized outer (mem_allAttributes.2 (.inr (.inl ⟨method, hmethod, houter⟩)))

theorem follows_attributes : Follows model.pool {} (Emit.records model.attributes Attribute.emit)
    (Check.counted 2 "records" model.attributes (·.checks {})) (fun bytes => model.Framable → ∃ raws,
      List.Forall₂ (Attribute.IsFramed model.pool {}) model.attributes raws ∧
        Reads (counted 2 readRawAttribute) bytes raws) := by
  refine Follows.frames_counted fun outer houter => outer.follows_raw.mono fun bytes hbytes h => ?_
  exact hbytes h.inBounds (h.sized outer (mem_allAttributes.2 (.inr (.inr houter))))

/-- What is written behind the pool. -/
theorem follows_emitBody (model : ClassFile) : Follows model.pool {} model.emitBody model.checks
    (fun bytes => model.Framable → ∃ raw, model.HasBody raw ∧ Reads readBody bytes raw) := by
  refine (follows_cell.bind fun this hthis => follows_superClass.bind fun super hsuper =>
    (Follows.frames_counted fun cell _ => follows_cell).bind fun interfaces hinterfaces =>
    follows_fields.bind fun fields hfields => follows_methods.bind fun methods hmethods =>
    follows_attributes.bind fun attributes hattributes => .pure fun h => ?_).congr (by simp [checks])
  obtain ⟨thisIndex, hthis, hreadThis⟩ := hthis h
  obtain ⟨superIndex, hsuper, hreadSuper⟩ := hsuper h
  obtain ⟨indices, hindices, hreadIndices⟩ := hinterfaces h
  obtain ⟨rawFields, hrawFields, hreadFields⟩ := hfields h
  obtain ⟨rawMethods, hrawMethods, hreadMethods⟩ := hmethods h
  obtain ⟨rawAttributes, hrawAttributes, hreadAttributes⟩ := hattributes h
  refine ⟨⟨model.flags.bits.toNat, thisIndex, superIndex, indices, rawFields, rawMethods, rawAttributes⟩,
    ⟨rfl, hthis, hsuper, hindices, hrawFields, hrawMethods, hrawAttributes⟩, ?_⟩
  simp only [List.append_assoc]
  exact (Reads.u16 _).bind (hreadThis.bind (hreadSuper.bind (hreadIndices.bind (hreadFields.bind
    (hreadMethods.bind (hreadAttributes.map _))))))

/-! ### Class files -/

/-- A class file is the magic number, the version, the pool and the rest, and fails where one of these does. -/
theorem write_cases (model : ClassFile) (warnings : Array Warning) :
    (∃ e, model.pool.encode = .error e ∧ (model.write warnings).1 = .error e) ∨ ∃ pool, model.pool.encode = .ok pool ∧
      ((∃ e s, model.emitBody model.pool ⟨{}, warnings⟩ = .error e s ∧ (model.write warnings).1 = .error e) ∨
        ∃ body s, model.emitBody model.pool ⟨{}, warnings⟩ = .ok body s ∧
          (model.write warnings).1 = .ok (magic ++ model.version.encode ++ pool ++ body)) := by
  have hemit : model.emit ⟨{}, warnings⟩ = EStateM.bind (MonadExcept.ofExcept model.pool.encode) (fun pool =>
      EStateM.bind (model.emitBody model.pool) fun body => pure (magic ++ model.version.encode ++ pool ++ body))
      ⟨{}, warnings⟩ := rfl
  cases hpool : model.pool.encode with
  | error e =>
    refine .inl ⟨e, rfl, ?_⟩
    rw [write, hemit, hpool]
    rfl
  | ok pool =>
    refine .inr ⟨pool, rfl, ?_⟩
    cases hbody : model.emitBody model.pool ⟨{}, warnings⟩ with
    | error e s =>
      refine .inl ⟨e, s, rfl, ?_⟩
      have hrun : model.emit ⟨{}, warnings⟩ = .error e s := by
        rw [hemit, hpool]
        show EStateM.bind (model.emitBody model.pool) _ ⟨{}, warnings⟩ = _
        rw [EStateM.bind, hbody]
      rw [write, hrun]
    | ok body s =>
      refine .inr ⟨body, s, rfl, ?_⟩
      have hrun : model.emit ⟨{}, warnings⟩ = .ok (magic ++ model.version.encode ++ pool ++ body) s := by
        rw [hemit, hpool]
        show EStateM.bind (model.emitBody model.pool) _ ⟨{}, warnings⟩ = _
        rw [EStateM.bind, hbody]
        rfl
      rw [write, hrun]

theorem reads_magic : Reads readMagic magic () := by
  have hmagic : magic = Bytes.be 4 0xCAFEBABE := by decide
  rw [hmagic]
  exact (Reads.nat_of_lt (by decide)).bind (Reads.pure ())

/-- A class file that is written is read back by a reader that knows no attribute. -/
theorem exists_isFramed {references : List Reference} {table : OffsetTable Cell}
    (hvalid : model.pool.Valid references) (hlayout : model.pool.layout = some table) (h : model.Framable)
    {warnings : Array Warning} {bytes : Bytes} (hwrite : (model.write warnings).1 = .ok bytes) :
    ∃ raw, model.IsFramed raw ∧ Reads readClass bytes raw := by
  rcases model.write_cases warnings with ⟨e, -, he⟩ | ⟨pool, hpool, ⟨e, s, -, he⟩ | ⟨body, s, hbody, hbytes⟩⟩
  · cases hwrite.symm.trans he
  · cases hwrite.symm.trans he
  · obtain rfl := Except.ok.inj (hwrite.symm.trans hbytes)
    obtain ⟨raw, hraw, hreads⟩ := (model.follows_emitBody.of_ok rfl hbody).2 h
    have hentries := hvalid.mapM_entries hlayout
    have hreadPool := hvalid.encode_spec hlayout
    rw [← hvalid.entries_eq hlayout] at hreadPool
    split at hreadPool
    · rw [hpool] at hreadPool
      cases hreadPool
    · obtain ⟨written, hwritten, hreadPool⟩ := hreadPool
      obtain rfl := Except.ok.inj (hpool.symm.trans hwritten)
      refine ⟨{ raw with minor := model.version.minor.toNat, major := model.version.major.toNat, entries := _ },
        ⟨hraw, rfl, rfl, hentries⟩, ?_⟩
      rw [Version.encode]
      simp only [List.append_assoc]
      exact reads_magic.bind ((Reads.u16 _).bind ((Reads.u16 _).bind (hreadPool.bind (hreads.map _))))

end ClassFile

end JvmAssembler
