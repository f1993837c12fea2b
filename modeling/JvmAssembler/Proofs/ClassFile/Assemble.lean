import JvmAssembler.Proofs.ClassFile.Prepare

/-!
# Assembled classes

Assembling a class prepares it and writes it. What preparing does to its attributes keeps their code built by calls
(`Prepared.built`), so that the lengths in front of them are right, and a reader that knows no attribute finds
everything that is left of the class.
-/

namespace JvmAssembler

theorem forall_mem_replaced {α : Type} {p : α → Prop} {before after : List α} {old new : α}
    (h : ∀ a ∈ before ++ old :: after, p a) (hnew : p new) : ∀ a ∈ before ++ new :: after, p a := by
  simp only [List.forall_mem_append, List.forall_mem_cons] at h ⊢
  exact ⟨h.1, hnew, h.2.2⟩

/-- Laying out code is one more call. -/
theorem Body.Built.laidOut {body : Body} (h : body.Built) {text : String} {layout : Layout}
    (hlayout : body.computeLayout text = .ok layout) : Body.Built { body with layout := some layout } := by
  obtain ⟨ops, rfl⟩ := h
  refine ⟨ops ++ [.layOut text], ?_⟩
  rw [List.foldl_append]
  simp only [List.foldl_cons, List.foldl_nil, BodyOp.apply, layOut, hlayout]
  rfl

theorem Method.LaidOut.built {method method' : Method} (h : method.LaidOut method')
    (hbuilt : ∀ outer ∈ method.attributes, outer.Built) : ∀ outer ∈ method'.attributes, outer.Built := by
  cases h with
  | codeless _ => exact hbuilt
  | @code before after name code text layout heq _ hlayout =>
    rw [heq] at hbuilt
    refine forall_mem_replaced hbuilt ?_
    cases hbuilt ⟨name, .code code⟩ (by simp) with
    | intro hbody hnested =>
      refine .intro (fun laid hlaid => ?_) hnested
      obtain rfl := Payload.code.inj hlaid
      exact (hbody code rfl).laidOut hlayout

namespace ClassFile

variable {model model' : ClassFile}

theorem HoldsBootstraps.built {size : Nat} {methods : List Bootstrap} {attributes attributes' : List Attribute}
    (h : HoldsBootstraps size methods attributes attributes') (hbuilt : ∀ outer ∈ attributes, outer.Built) :
    ∀ outer ∈ attributes', outer.Built := by
  have hnew : ∀ name, Attribute.Built ⟨name, .bootstrapMethods methods⟩ := fun name =>
    .intro (by simp) (by simp [Payload.nested])
  cases h with
  | unneeded _ => exact hbuilt
  | @replaced before after name held _ heq _ =>
    rw [heq] at hbuilt
    exact forall_mem_replaced hbuilt (hnew name)
  | @added name _ _ _ =>
    intro outer houter
    rcases List.mem_append.1 houter with hheld | hadded
    · exact hbuilt outer hheld
    · obtain rfl := List.mem_singleton.1 hadded
      exact hnew name

theorem Prepared.built (h : model.Prepared model') (hbuilt : ∀ outer ∈ model.allAttributes, outer.Built) :
    ∀ outer ∈ model'.allAttributes, outer.Built := by
  intro outer houter
  rcases mem_allAttributes.1 houter with ⟨field, hfield, houter⟩ | ⟨method, hmethod, houter⟩ | houter
  · rw [h.same] at hfield
    exact hbuilt outer (mem_allAttributes.2 (.inl ⟨field, hfield, houter⟩))
  · obtain ⟨start, hstart, hlaid⟩ := exists_laidOut h.methods hmethod
    refine hlaid.built (fun inner hinner => ?_) outer houter
    exact hbuilt inner (mem_allAttributes.2 (.inr (.inl ⟨start, hstart, hinner⟩)))
  · refine h.attributes.built (fun inner hinner => ?_) outer houter
    exact hbuilt inner (mem_allAttributes.2 (.inr (.inr hinner)))

theorem assemble_ok {s s' : Reported ClassFile} {bytes : Bytes} (h : assemble s = .ok bytes s') :
    ∃ warnings, prepare s = .ok () ⟨s'.state, warnings⟩ ∧ (s'.state.write warnings).1 = .ok bytes := by
  rw [assemble] at h
  cases hprepare : prepare s with
  | error e left =>
    rw [hprepare] at h
    cases h
  | ok u left =>
    rw [hprepare] at h
    simp only at h
    rcases hwrite : left.state.write left.warnings with ⟨result, reported⟩
    simp only [hwrite] at h
    cases result with
    | error e => cases h
    | ok written =>
      obtain ⟨rfl, rfl⟩ := EStateM.Result.ok.inj h
      exact ⟨left.warnings, rfl, by rw [hwrite]⟩

/-- A class that is assembled is read back whole by a reader that goes by the frame alone: all of its parts in order,
with the indices of their cells, and the contents of each attribute as they are written. -/
theorem readClass_assemble {references : List Reference} {warnings warnings' : Array Warning} {bytes : Bytes}
    (hpool : Pool.Reached model.pool references) (hcells : ∀ cell ∈ model.cells, cell.id < model.pool.slots.size)
    (hbuilt : ∀ outer ∈ model.allAttributes, outer.Built)
    (hassemble : assemble ⟨model, warnings⟩ = .ok bytes ⟨model', warnings'⟩)
    (hlength : ∀ outer ∈ model'.allAttributes, outer.payload.length < Bytes.capacity 4) :
    model.Prepared model' ∧ ∃ raw, model'.IsFramed raw ∧ Reads readClass bytes raw := by
  obtain ⟨reported, hprepare, hwrite⟩ := assemble_ok hassemble
  have hprepared := prepared_of_prepare hpool hcells hprepare
  obtain ⟨more, table, hreached, hlayout⟩ := hprepared.settles hpool
  have hframable : model'.Framable :=
    ⟨hreached.inBounds, fun outer houter => ⟨hprepared.built hbuilt outer houter, hlength outer houter⟩⟩
  exact ⟨hprepared, exists_isFramed hreached.valid hlayout hframable hwrite⟩

/-- A class with one of each part, all of them named by constants of one pool. -/
private def smallClass (body : Body) : ClassFile where
  pool := Pool.forward
  flags := ⟨0x21⟩
  thisClass := ⟨2⟩
  interfaces := [⟨2⟩]
  fields := [⟨⟨0x18⟩, ⟨3⟩, ⟨1⟩, [⟨⟨3⟩, .cell .constantValue ⟨4⟩⟩]⟩]
  methods := [⟨⟨0x01⟩, ⟨3⟩, ⟨1⟩, [⟨⟨3⟩, .marker .synthetic⟩, ⟨⟨3⟩, .code ⟨0, 1, body, [], []⟩⟩]⟩]
  attributes := [⟨⟨1⟩, .raw [7, 8, 9]⟩]

private def smallBody : Body :=
  [.push { opcode := .standard 0x00 }, .push { opcode := .standard 0xB1 }].foldl BodyOp.apply {}

private theorem built_smallClass {body : Body} (h : body.Built) :
    ∀ outer ∈ (smallClass body).allAttributes, outer.Built := by
  intro outer houter
  have hmem : outer = ⟨⟨3⟩, .cell .constantValue ⟨4⟩⟩ ∨ outer = ⟨⟨3⟩, .marker .synthetic⟩ ∨
      outer = ⟨⟨3⟩, .code ⟨0, 1, body, [], []⟩⟩ ∨ outer = ⟨⟨1⟩, .raw [7, 8, 9]⟩ := by
    simpa [allAttributes, smallClass] using houter
  rcases hmem with rfl | rfl | rfl | rfl
  · exact .intro (by simp) (by simp [Payload.nested])
  · exact .intro (by simp) (by simp [Payload.nested])
  · exact .intro (by simpa using h) (by simp [Payload.nested])
  · exact .intro (by simp) (by simp [Payload.nested])

private def smallRaw : RawClass where
  flags := 0x21
  thisClass := 1
  superClass := 0
  interfaces := [1]
  fields := [⟨0x18, 2, 2, [⟨2, [0, 3]⟩]⟩]
  methods := [⟨0x01, 2, 2, [⟨2, []⟩, ⟨2, [0, 0, 0, 1, 0, 0, 0, 2, 0x00, 0xB1, 0, 0, 0, 0]⟩]⟩]
  attributes := [⟨2, [7, 8, 9]⟩]
  minor := 0
  major := 52
  entries := [(1, .wrapper .classInfo 2), (2, .utf8 "\x00é"), (3, .long 5)]

set_option maxRecDepth 2000 in
/-- The class has no super class, and its code is the second attribute of its method. -/
theorem readClass_assemble_smallClass : ∃ bytes s', assemble ⟨smallClass smallBody, #[]⟩ = .ok bytes s' ∧
    s'.state.IsFramed smallRaw ∧ readClass bytes = some (smallRaw, []) := by
  have hcells : ∀ cell ∈ (smallClass smallBody).cells, cell.id < (smallClass smallBody).pool.slots.size := by decide
  have hbuilt : smallBody.Built := ⟨_, rfl⟩
  have hrun : ∃ bytes s', assemble ⟨smallClass smallBody, #[]⟩ = .ok bytes s' ∧
      (∀ outer ∈ s'.state.allAttributes, outer.payload.length < Bytes.capacity 4) ∧
      readClass bytes = some (smallRaw, []) := ⟨_, _, rfl, by decide, by decide +kernel⟩
  obtain ⟨bytes, s', hassemble, hlength, hread⟩ := hrun
  obtain ⟨-, raw, hframed, hreads⟩ :=
    readClass_assemble Pool.reached_forward hcells (built_smallClass hbuilt) hassemble hlength
  have hraw := hreads []
  rw [List.append_nil, hread] at hraw
  obtain ⟨rfl, -⟩ := Prod.mk.inj (Option.some.inj hraw)
  exact ⟨bytes, s', hassemble, hframed, hread⟩

end ClassFile

end JvmAssembler
