import JvmAssembler.Proofs.ClassFile.Framing
import JvmAssembler.Proofs.Pool.Identity

/-!
# Prepared classes

Preparing a class lays out the first `Code` attribute of each method, puts the bootstrap methods of the pool into
an attribute, and finalizes the pool. There is one lemma for each of these steps, and `ClassFile.Prepared` says what
they come to (`prepared_of_prepare`): what is left of the class, what has changed, and that its pool still has all of
its cells (`Prepared.cells_lt`).
-/

namespace JvmAssembler

/-! ### Replacing the first -/

/-- Either nothing is replaced, or the first item that has a replacement is. -/
theorem replaceFirst_cases {α : Type} (replacement? : α → Option α) (items : List α) :
    (∀ item ∈ items, replacement? item = none) ∧ replaceFirst replacement? items = items ∨
      ∃ before item new after, items = before ++ item :: after ∧ (∀ earlier ∈ before, replacement? earlier = none) ∧
        replacement? item = some new ∧ replaceFirst replacement? items = before ++ new :: after := by
  induction items with
  | nil => exact .inl ⟨by simp, rfl⟩
  | cons item items ih =>
    rw [replaceFirst]
    cases hitem : replacement? item with
    | some new => exact .inr ⟨[], item, new, items, rfl, by simp, hitem, rfl⟩
    | none =>
      rcases ih with ⟨hnone, heq⟩ | ⟨before, found, new, after, rfl, hbefore, hfound, heq⟩
      · refine .inl ⟨?_, by simp only [heq]⟩
        simpa [hitem] using hnone
      · refine .inr ⟨item :: before, found, new, after, rfl, ?_, hfound, by simp only [heq, List.cons_append]⟩
        simpa [hitem] using hbefore

theorem replaceFirst_eq {α : Type} {replacement? : α → Option α} {before after : List α} {item new : α}
    (hbefore : ∀ earlier ∈ before, replacement? earlier = none) (hitem : replacement? item = some new) :
    replaceFirst replacement? (before ++ item :: after) = before ++ new :: after := by
  induction before with
  | nil => simp only [List.nil_append, replaceFirst, hitem]
  | cons first before ih =>
    rw [List.cons_append, replaceFirst, hbefore first (by simp)]
    exact congrArg (first :: ·) (ih fun earlier hearlier => hbefore earlier (by simp [hearlier]))

namespace Attribute

theorem code?_eq_some_iff {outer : Attribute} {code : Code} :
    outer.code? = some code ↔ outer = ⟨outer.name, .code code⟩ := by
  obtain ⟨name, payload⟩ := outer
  cases payload <;> simp [code?]

theorem withBody?_eq_some_iff {outer new : Attribute} {body : Body} :
    outer.withBody? body = some new ↔
      ∃ code : Code, outer = ⟨outer.name, .code code⟩ ∧ new = ⟨outer.name, .code { code with body }⟩ := by
  obtain ⟨name, payload⟩ := outer
  cases payload <;> simp [withBody?, eq_comm]

theorem withBody?_eq_none_iff {outer : Attribute} {body : Body} : outer.withBody? body = none ↔ outer.code? = none := by
  obtain ⟨name, payload⟩ := outer
  cases payload <;> simp [withBody?, code?]

theorem withBootstraps?_eq_some_iff {outer new : Attribute} {methods : List Bootstrap} :
    outer.withBootstraps? methods = some new ↔
      ∃ held, outer = ⟨outer.name, .bootstrapMethods held⟩ ∧ new = ⟨outer.name, .bootstrapMethods methods⟩ := by
  obtain ⟨name, payload⟩ := outer
  cases payload <;> simp [withBootstraps?, eq_comm]

theorem withBootstraps?_eq_none_iff {outer : Attribute} {methods : List Bootstrap} :
    outer.withBootstraps? methods = none ↔ ∀ held, outer.payload ≠ .bootstrapMethods held := by
  obtain ⟨name, payload⟩ := outer
  cases payload <;> simp [withBootstraps?]

theorem make_ok {payload : Payload Attribute} {outer : Attribute} {pool pool' : Pool}
    (h : Attribute.make payload pool = .ok outer pool') :
    ∃ name, outer = ⟨name, payload⟩ ∧ Pool.intern (.utf8 payload.name) pool = .ok name pool' := by
  have hmake : Attribute.make payload pool =
      EStateM.bind (Pool.utf8 payload.name) (fun name => pure ⟨name, payload⟩) pool := rfl
  rw [hmake, EStateM.bind, Pool.utf8] at h
  cases hrun : Pool.intern (.utf8 payload.name) pool with
  | error e left =>
    rw [hrun] at h
    cases h
  | ok name left =>
    rw [hrun] at h
    obtain ⟨rfl, rfl⟩ := EStateM.Result.ok.inj h
    exact ⟨name, rfl, rfl⟩

end Attribute

/-! ### Runs step by step -/

namespace Reporting

variable {σ α β : Type} {action : Reporting σ α} {next : α → Reporting σ β} {s mid : Reported σ}

theorem bind_of_ok {a : α} (h : action s = .ok a mid) : (action >>= next) s = next a mid := by
  show EStateM.bind action next s = _
  rw [EStateM.bind, h]

theorem bind_of_error {e : AssemblyError} (h : action s = .error e mid) : (action >>= next) s = .error e mid := by
  show EStateM.bind action next s = _
  rw [EStateM.bind, h]

theorem lift_of_ok {action : EStateM AssemblyError σ α} {state left : σ} {a : α} (h : action state = .ok a left)
    (warnings : Array Warning) : Reporting.lift action ⟨state, warnings⟩ = .ok a ⟨left, warnings⟩ := by
  simp only [Reporting.lift, h]

theorem lift_of_error {action : EStateM AssemblyError σ α} {state left : σ} {e : AssemblyError}
    (h : action state = .error e left) (warnings : Array Warning) :
    Reporting.lift action ⟨state, warnings⟩ = .error e ⟨left, warnings⟩ := by
  simp only [Reporting.lift, h]

end Reporting

/-! ### The cells of a class -/

/-- The cells of a field or a method. -/
def memberCells (name descriptor : Cell) (attributes : List Attribute) : List Cell :=
  name :: descriptor :: attributes.flatMap Attribute.cells

def Field.cells (field : Field) : List Cell := memberCells field.name field.descriptor field.attributes

def Method.cells (method : Method) : List Cell := memberCells method.name method.descriptor method.attributes

/-- The cells of a class and of everything in it. -/
def ClassFile.cells (model : ClassFile) : List Cell :=
  model.thisClass :: model.superClass.toList ++ model.interfaces ++ model.fields.flatMap Field.cells
    ++ model.methods.flatMap Method.cells ++ model.attributes.flatMap Attribute.cells

theorem ClassFile.mem_cells_of_method {model : ClassFile} {method : Method} {cell : Cell}
    (hmethod : method ∈ model.methods) (hcell : cell ∈ method.cells) : cell ∈ model.cells :=
  List.mem_append_left _ (List.mem_append_right _ (List.mem_flatMap.2 ⟨method, hmethod, hcell⟩))

open Check (allLookups allLookups_cons allLookups_append allLookups_counted)

theorem lookups_memberChecks (name descriptor : Cell) (attributes : List Attribute) (scope : Scope) :
    allLookups (memberChecks name descriptor attributes scope) = memberCells name descriptor attributes := by
  have hattributes : (attributes.flatMap fun outer => allLookups (outer.checks scope)) =
      attributes.flatMap Attribute.cells :=
    List.flatMap_congr fun outer _ => outer.lookups_checks scope {}
  rw [memberChecks, allLookups_cons, allLookups_cons, allLookups_counted, hattributes]
  rfl

/-- Writing a class looks up its cells and no others. -/
theorem ClassFile.lookups_checks (model : ClassFile) : allLookups model.checks = model.cells := by
  have hsuper : allLookups (Check.cell? model.superClass) = model.superClass.toList := by
    cases model.superClass <;> rfl
  have hinterfaces : allLookups (Check.counted 2 "interfaces" model.interfaces fun cell => [.cell cell]) =
      model.interfaces := by
    rw [allLookups_counted]
    exact List.flatMap_singleton' model.interfaces
  have hfields : (model.fields.flatMap fun field => allLookups field.checks) = model.fields.flatMap Field.cells :=
    List.flatMap_congr fun field _ => lookups_memberChecks _ _ _ _
  have hmethods : (model.methods.flatMap fun method => allLookups (method.checks model.pool)) =
      model.methods.flatMap Method.cells :=
    List.flatMap_congr fun method _ => lookups_memberChecks _ _ _ _
  simp only [checks, cells, allLookups_append]
  rw [allLookups_cons, hsuper, hinterfaces, allLookups_counted, hfields, allLookups_counted, hmethods,
    allLookups_counted]
  rfl

/-! ### Ranks -/

namespace Pool

/-- Operations that only set ranks lead from one pool to the other. -/
structure Ranked (pool pool' : Pool) : Prop where
  leads : ∃ ops, Leads pool ops pool'
  size : pool'.slots.size = pool.slots.size
  bootstraps : pool'.bootstraps = pool.bootstraps

theorem Ranked.refl (pool : Pool) : Ranked pool pool := ⟨⟨[], .refl⟩, rfl, rfl⟩

theorem Ranked.trans {pool pool' pool'' : Pool} (h : Ranked pool pool') (h' : Ranked pool' pool'') :
    Ranked pool pool'' := by
  obtain ⟨⟨ops, hops⟩, hsize, hbootstraps⟩ := h
  obtain ⟨⟨more, hmore⟩, hsize', hbootstraps'⟩ := h'
  exact ⟨⟨ops ++ more, hops.trans hmore⟩, hsize'.trans hsize, hbootstraps'.trans hbootstraps⟩

theorem Ranked.setRank {pool : Pool} {cell : Cell} (hcell : cell.id < pool.slots.size) (rank : Rank) :
    Ranked pool (pool.setRank cell rank) :=
  ⟨⟨_, Leads.refl.step (.setRank cell rank) (by simpa [PoolOp.cells] using hcell)⟩,
    size_slots_setRank pool cell rank, rfl⟩

theorem Ranked.foldl {α : Type} {step : Pool → α → Pool} {items : List α} {size : Nat}
    (h : ∀ a ∈ items, ∀ pool : Pool, pool.slots.size = size → Ranked pool (step pool a)) {pool : Pool}
    (hsize : pool.slots.size = size) : Ranked pool (items.foldl step pool) := by
  induction items generalizing pool with
  | nil => exact .refl pool
  | cons a items ih =>
    have hstep := h a (by simp) pool hsize
    exact hstep.trans (ih (fun b hb => h b (by simp [hb])) (hstep.size.trans hsize))

end Pool

theorem Instruction.operand_of_constantReference? {instruction : Instruction} {cell : Cell} {rank : Rank}
    (h : instruction.constantReference? = some (cell, rank)) : instruction.operand = .constant cell := by
  unfold constantReference? at h
  cases hop : instruction.operand with
  | constant found =>
    simp only [hop] at h
    split at h <;> cases h <;> rfl
  | _ =>
    simp only [hop] at h
    cases h

theorem Body.ranked_rankConstants {body : Body} {pool : Pool} (h : ∀ cell ∈ body.cells, cell.id < pool.slots.size) :
    Pool.Ranked pool (body.rankConstants pool) := by
  rw [rankConstants, ← Array.foldl_toList]
  refine Pool.Ranked.foldl (fun instruction hinstruction found hsize => ?_) rfl
  cases hreference : instruction.constantReference? with
  | none => exact .refl found
  | some reference =>
    obtain ⟨cell, rank⟩ := reference
    have hop := Instruction.operand_of_constantReference? hreference
    have hcell := h cell (Body.mem_cells hinstruction hop)
    exact .setRank (hsize ▸ hcell) rank

/-! ### Code -/

/-- What laying out the code of a method does: nothing if there is none, and otherwise the first `Code` attribute has a
layout now. -/
inductive Method.LaidOut (method : Method) : Method → Prop where
  | codeless : method.code? = none → LaidOut method method
  | code {before after : List Attribute} {name : Cell} {code : Code} {text : String} {layout : Layout} :
      method.attributes = before ++ ⟨name, .code code⟩ :: after → (∀ outer ∈ before, outer.code? = none) →
      code.body.computeLayout text = .ok layout →
      LaidOut method { method with
        attributes := before ++ ⟨name, .code { code with body := { code.body with layout := some layout } }⟩ :: after }

namespace Method

variable {method method' : Method} {pool pool' : Pool}

/-- Where the first `Code` attribute is. -/
theorem code?_eq_some_iff {code : Code} : method.code? = some code ↔ ∃ before name after,
    method.attributes = before ++ ⟨name, .code code⟩ :: after ∧ ∀ outer ∈ before, outer.code? = none := by
  rw [code?, List.findSome?_eq_some_iff]
  constructor
  · rintro ⟨before, outer, after, heq, hcode, hbefore⟩
    exact ⟨before, outer.name, after, Attribute.code?_eq_some_iff.1 hcode ▸ heq, hbefore⟩
  · rintro ⟨before, name, after, heq, hbefore⟩
    exact ⟨before, _, after, heq, rfl, hbefore⟩

theorem cells_body {code : Code} (h : method.code? = some code) {cell : Cell} (hcell : cell ∈ code.body.cells) :
    cell ∈ method.cells := by
  obtain ⟨before, name, after, heq, -⟩ := code?_eq_some_iff.1 h
  obtain ⟨maxStack, maxLocals, body, handlers, attributes⟩ := code
  have hcheck : Check.code {} body ∈
      Attribute.checks ⟨name, .code ⟨maxStack, maxLocals, body, handlers, attributes⟩⟩ {} := by
    simp [Attribute.checks, Payload.checks, Code.checks]
  refine List.mem_cons_of_mem _ (List.mem_cons_of_mem _ (List.mem_flatMap.2 ⟨_, ?_, Attribute.mem_cells hcheck hcell⟩))
  rw [heq]
  simp

theorem laidOut_of_layOut {name : String} (h : (method.layOut name pool).1 = .ok method') : method.LaidOut method' := by
  unfold layOut at h
  cases hcode : method.code? with
  | none =>
    rw [hcode] at h
    obtain rfl := Except.ok.inj h
    exact .codeless hcode
  | some code =>
    simp only [hcode] at h
    cases hbody : code.body.layOut name with
    | error e =>
      simp only [hbody] at h
      cases h
    | ok body =>
      simp only [hbody] at h
      obtain rfl := Except.ok.inj h
      obtain ⟨layout, rfl, hlayout⟩ := Body.layOut_spec hbody
      rcases replaceFirst_cases (Attribute.withBody? { code.body with layout := some layout }) method.attributes with
        ⟨hnone, -⟩ | ⟨before, outer, new, after, heq, hbefore, hnew, hreplaced⟩
      · obtain ⟨before, cell, after, heq, -⟩ := code?_eq_some_iff.1 hcode
        cases hnone ⟨cell, .code code⟩ (by simp [heq])
      · obtain ⟨found, houter, rfl⟩ := Attribute.withBody?_eq_some_iff.1 hnew
        rw [houter] at heq
        simp only [Attribute.withBody?_eq_none_iff] at hbefore
        have hfound := code?_eq_some_iff.2 ⟨before, _, after, heq, hbefore⟩
        obtain rfl := Option.some.inj (hcode.symm.trans hfound)
        rw [hreplaced]
        exact .code heq hbefore hlayout

theorem ranked_layOut (hcells : ∀ cell ∈ method.cells, cell.id < pool.slots.size) (name : String) :
    Pool.Ranked pool (method.layOut name pool).2 := by
  unfold layOut
  cases hcode : method.code? with
  | none => exact .refl pool
  | some code =>
    have hranked := Body.ranked_rankConstants fun cell hcell => hcells cell (cells_body hcode hcell)
    simp only
    split <;> exact hranked

theorem layOut_ok {name : String} (h : method.layOut name pool = (.ok method', pool'))
    (hcells : ∀ cell ∈ method.cells, cell.id < pool.slots.size) : method.LaidOut method' ∧ Pool.Ranked pool pool' := by
  have hranked := ranked_layOut hcells name
  rw [h] at hranked
  exact ⟨laidOut_of_layOut (congrArg Prod.fst h), hranked⟩

/-- Laying out code gives no cells to a method. -/
theorem LaidOut.cells_eq (h : method.LaidOut method') : method'.cells = method.cells := by
  cases h with
  | codeless => rfl
  | @code before after name code text layout heq hbefore hlayout =>
    obtain ⟨maxStack, maxLocals, body, handlers, attributes⟩ := code
    have hcode : Attribute.cells ⟨name, .code ⟨maxStack, maxLocals, { body with layout := some layout }, handlers,
        attributes⟩⟩ = Attribute.cells ⟨name, .code ⟨maxStack, maxLocals, body, handlers, attributes⟩⟩ := by
      simp only [Attribute.cells, Attribute.checks, Payload.checks, allLookups_cons]
      congr 1
      exact Code.lookups_checks_of rfl fun inner _ => inner.lookups_checks
    simp only [Method.cells, memberCells, heq, List.flatMap_append, List.flatMap_cons, hcode]

/-- The code of a method that was laid out has a layout of its instructions. -/
theorem LaidOut.code? (h : method.LaidOut method') {code : Code} (hcode : method'.code? = some code) :
    ∃ layout text, code.body.layout = some layout ∧ code.body.computeLayout text = .ok layout := by
  cases h with
  | codeless hnone => cases hnone.symm.trans hcode
  | @code before after name found text layout heq hbefore hlayout =>
    obtain rfl := Option.some.inj (hcode.symm.trans (code?_eq_some_iff.2 ⟨before, name, after, rfl, hbefore⟩))
    exact ⟨layout, text, rfl, hlayout⟩

end Method

/-! ### Pools on the way -/

namespace Pool

variable {pool pool' : Pool} {references : List Reference} {ops : List PoolOp}

theorem Reached.leads (h : Reached pool references) (hleads : Leads pool ops pool') :
    (∃ more, Reached pool' (references ++ more)) ∧ pool.slots.size ≤ pool'.slots.size := by
  induction hleads with
  | refl => exact ⟨⟨[], by rwa [List.append_nil]⟩, Nat.le_refl _⟩
  | @step ops mid op _ hcells ih =>
    obtain ⟨⟨more, hmid⟩, hle⟩ := ih
    refine ⟨⟨more ++ op.references mid, ?_⟩, Nat.le_trans hle (hmid.valid.grows hcells).size_le⟩
    rw [← List.append_assoc]
    exact hmid.step op hcells

end Pool

/-! ### The steps of preparing a class -/

namespace ClassFile

variable {model model' : ClassFile}

theorem layOutMethods_ok {methods done all : List Method} {pool pool' : Pool}
    (h : layOutMethods done methods pool = (.ok (), all, pool'))
    (hcells : ∀ method ∈ methods, ∀ cell ∈ method.cells, cell.id < pool.slots.size) :
    (∃ laid, all = done.reverse ++ laid ∧ List.Forall₂ Method.LaidOut methods laid) ∧ Pool.Ranked pool pool' := by
  induction methods generalizing done pool with
  | nil =>
    obtain ⟨-, hall⟩ := Prod.mk.inj h
    obtain ⟨rfl, rfl⟩ := Prod.mk.inj hall
    exact ⟨⟨[], by simp, .nil⟩, .refl pool⟩
  | cons method methods ih =>
    rw [layOutMethods] at h
    rcases hrun : method.layOut ((pool.utf8? method.name).getD "<unknown>") pool with ⟨result, mid⟩
    simp only [hrun] at h
    cases result with
    | error e => cases (Prod.mk.inj h).1
    | ok new =>
      obtain ⟨hlaid, hranked⟩ := Method.layOut_ok hrun (hcells method (by simp))
      obtain ⟨⟨laid, rfl, hall⟩, hrest⟩ := ih h fun other hother cell hcell => by
        rw [hranked.size]
        exact hcells other (by simp [hother]) cell hcell
      exact ⟨⟨new :: laid, by simp, .cons hlaid hall⟩, hranked.trans hrest⟩

theorem layOut_ok (h : layOut model = .ok () model')
    (hcells : ∀ method ∈ model.methods, ∀ cell ∈ method.cells, cell.id < model.pool.slots.size) :
    ∃ methods pool, model' = { model with methods, pool } ∧ List.Forall₂ Method.LaidOut model.methods methods ∧
      Pool.Ranked model.pool pool := by
  rw [layOut] at h
  rcases hrun : layOutMethods [] model.methods model.pool with ⟨result, methods, pool⟩
  simp only [hrun] at h
  cases result with
  | error e => cases h
  | ok =>
    obtain ⟨-, rfl⟩ := EStateM.Result.ok.inj h
    obtain ⟨⟨laid, rfl, hall⟩, hranked⟩ := layOutMethods_ok hrun hcells
    exact ⟨_, pool, rfl, hall, hranked⟩

/-- What becomes of the attributes of a class, so that one of them holds the bootstrap methods: if there are any, they
take the place of the first that are held, or come last. The name is one of the first `size` cells. -/
inductive HoldsBootstraps (size : Nat) (methods : List Bootstrap) (attributes : List Attribute) :
    List Attribute → Prop where
  | unneeded : methods = [] → HoldsBootstraps size methods attributes attributes
  | replaced {before after : List Attribute} {name : Cell} {held : List Bootstrap} : methods ≠ [] →
      attributes = before ++ ⟨name, .bootstrapMethods held⟩ :: after →
      (∀ outer ∈ before, ∀ held, outer.payload ≠ .bootstrapMethods held) →
      HoldsBootstraps size methods attributes (before ++ ⟨name, .bootstrapMethods methods⟩ :: after)
  | added {name : Cell} : methods ≠ [] → (∀ outer ∈ attributes, ∀ held, outer.payload ≠ .bootstrapMethods held) →
      name.id < size →
      HoldsBootstraps size methods attributes (attributes ++ [⟨name, .bootstrapMethods methods⟩])

theorem HoldsBootstraps.mono {size size' : Nat} {methods : List Bootstrap} {attributes attributes' : List Attribute}
    (h : HoldsBootstraps size methods attributes attributes') (hle : size ≤ size') :
    HoldsBootstraps size' methods attributes attributes' := by
  cases h with
  | unneeded hnil => exact .unneeded hnil
  | replaced hne heq hbefore => exact .replaced hne heq hbefore
  | added hne hnone hname => exact .added hne hnone (Nat.lt_of_lt_of_le hname hle)

/-- What seeing to the attribute comes to: the pool stays as it is, or the name of a new attribute is asked for. -/
theorem updateBootstraps_cases (h : updateBootstraps model = .ok () model') :
    (∃ attributes, model' = { model with attributes } ∧
      HoldsBootstraps 0 model.pool.bootstraps.toList model.attributes attributes) ∨
    ∃ name pool, model' = { model with
        pool, attributes := model.attributes ++ [⟨name, .bootstrapMethods model.pool.bootstraps.toList⟩] } ∧
      Pool.intern (.utf8 "BootstrapMethods") model.pool = .ok name pool ∧ model.pool.bootstraps.toList ≠ [] ∧
      ∀ outer ∈ model.attributes, ∀ held, outer.payload ≠ .bootstrapMethods held := by
  unfold updateBootstraps at h
  split at h
  · rename_i hempty
    obtain ⟨-, rfl⟩ := EStateM.Result.ok.inj h
    exact .inl ⟨_, rfl, .unneeded (by simpa using hempty)⟩
  · rename_i hempty
    have hne : model.pool.bootstraps.toList ≠ [] := by simpa using hempty
    simp only at h
    split at h
    · rename_i hany
      obtain ⟨-, rfl⟩ := EStateM.Result.ok.inj h
      refine .inl ⟨_, rfl, ?_⟩
      rcases replaceFirst_cases (Attribute.withBootstraps? model.pool.bootstraps.toList) model.attributes with
        ⟨hnone, -⟩ | ⟨before, outer, new, after, heq, hbefore, hnew, hreplaced⟩
      · obtain ⟨outer, houter, hsome⟩ := List.any_eq_true.1 hany
        rw [hnone outer houter] at hsome
        cases hsome
      · obtain ⟨held, houter, rfl⟩ := Attribute.withBootstraps?_eq_some_iff.1 hnew
        rw [houter] at heq
        rw [hreplaced]
        exact .replaced hne heq fun outer houter => Attribute.withBootstraps?_eq_none_iff.1 (hbefore outer houter)
    · rename_i hany
      cases hmake : Attribute.make (.bootstrapMethods model.pool.bootstraps.toList) model.pool with
      | error e left =>
        rw [hmake] at h
        cases h
      | ok added pool =>
        rw [hmake] at h
        obtain ⟨-, rfl⟩ := EStateM.Result.ok.inj h
        obtain ⟨name, rfl, hname⟩ := Attribute.make_ok hmake
        have hnone : ∀ outer ∈ model.attributes, outer.withBootstraps? model.pool.bootstraps.toList = none := by
          simpa using hany
        exact .inr ⟨name, pool, rfl, hname, hne, fun outer houter =>
          Attribute.withBootstraps?_eq_none_iff.1 (hnone outer houter)⟩

theorem updateBootstraps_ok (h : updateBootstraps model = .ok () model') (hwell : model.pool.WellBound) :
    ∃ attributes pool, model' = { model with attributes, pool } ∧
      HoldsBootstraps pool.slots.size model.pool.bootstraps.toList model.attributes attributes ∧
      ∃ ops, Pool.Leads model.pool ops pool := by
  rcases updateBootstraps_cases h with ⟨attributes, rfl, hholds⟩ | ⟨name, pool, rfl, hname, hne, hnone⟩
  · exact ⟨_, _, rfl, hholds.mono (Nat.zero_le _), [], .refl⟩
  · have hop : (PoolOp.intern (.utf8 "BootstrapMethods")).apply model.pool = pool := by
      rw [PoolOp.apply, hname]
      rfl
    refine ⟨_, pool, rfl, .added hne hnone (hwell.lt_of_intern hname), _, hop ▸ Pool.Leads.refl.step _ ?_⟩
    simp [PoolOp.cells, Constant.refs]

theorem finalizePool_ok {s s' : Reported ClassFile} (h : finalizePool s = .ok () s') :
    ∃ pool, s'.state = { s.state with pool } ∧ pool.isFinalized = true ∧ ∃ ops, Pool.Leads s.state.pool ops pool := by
  rw [finalizePool] at h
  cases hrun : Pool.finalize ⟨s.state.pool, s.warnings⟩ with
  | error e left =>
    rw [hrun] at h
    cases h
  | ok u left =>
    rw [hrun] at h
    obtain ⟨-, rfl⟩ := EStateM.Result.ok.inj h
    have hop : (PoolOp.finalize s.warnings).apply s.state.pool = left.state := by
      rw [PoolOp.apply, hrun]
      rfl
    refine ⟨left.state, rfl, Pool.isFinalized_of_finalize hrun, _, hop ▸ Pool.Leads.refl.step (.finalize s.warnings) ?_⟩
    simp [PoolOp.cells]

/-- The warnings of a class, with one about dynamically computed constants if its version has none. -/
def withDynamicWarning (model : ClassFile) (warnings : Array Warning) : Array Warning :=
  if model.version.hasDynamicConstants then warnings
  else
    match model.firstDynamic? with
    | some index => warnings.push ⟨0, .dynamicConstant index model.version.major⟩
    | none => warnings

/-- What preparing a class comes to, by what its steps come to. -/
theorem prepare_eq (model : ClassFile) (warnings : Array Warning) :
    prepare ⟨model, warnings⟩ =
      if model.thisClass = .zero then .error (.missingReference "this_class") ⟨model, warnings⟩
      else
        match layOut model with
        | .error e laid => .error e ⟨laid, warnings⟩
        | .ok _ laid =>
          match updateBootstraps laid with
          | .error e held => .error e ⟨held, warnings⟩
          | .ok _ held =>
            match finalizePool ⟨held, warnings⟩ with
            | .error e final => .error e final
            | .ok _ final => .ok () ⟨final.state, final.state.withDynamicWarning final.warnings⟩ := by
  unfold prepare
  refine (Reporting.bind_of_ok rfl).trans ?_
  by_cases hzero : model.thisClass = .zero
  · rw [if_pos hzero, if_pos hzero]
    rfl
  · rw [if_neg hzero, if_neg hzero]
    cases hlaid : layOut model with
    | error e laid => exact Reporting.bind_of_error (Reporting.lift_of_error hlaid warnings)
    | ok u laid =>
      refine (Reporting.bind_of_ok (Reporting.lift_of_ok hlaid warnings)).trans ?_
      simp only
      cases hheld : updateBootstraps laid with
      | error e held => exact Reporting.bind_of_error (Reporting.lift_of_error hheld warnings)
      | ok u held =>
        refine (Reporting.bind_of_ok (Reporting.lift_of_ok hheld warnings)).trans ?_
        simp only
        cases hfinal : finalizePool ⟨held, warnings⟩ with
        | error e final => exact Reporting.bind_of_error hfinal
        | ok u final =>
          refine (Reporting.bind_of_ok hfinal).trans ((Reporting.bind_of_ok rfl).trans ?_)
          simp only [withDynamicWarning]
          split
          · rfl
          · cases final.state.firstDynamic? <;> rfl

theorem prepare_ok {s s' : Reported ClassFile} (h : prepare s = .ok () s') :
    ∃ laid held final, layOut s.state = .ok () laid ∧ updateBootstraps laid = .ok () held ∧
      finalizePool ⟨held, s.warnings⟩ = .ok () final ∧ s'.state = final.state := by
  obtain ⟨model, warnings⟩ := s
  rw [prepare_eq] at h
  split at h
  · cases h
  · cases hlaid : layOut model with
    | error e laid =>
      rw [hlaid] at h
      cases h
    | ok u laid =>
      simp only [hlaid] at h
      cases hheld : updateBootstraps laid with
      | error e held =>
        rw [hheld] at h
        cases h
      | ok u held =>
        simp only [hheld] at h
        cases hfinal : finalizePool ⟨held, warnings⟩ with
        | error e final =>
          rw [hfinal] at h
          cases h
        | ok u final =>
          rw [hfinal] at h
          obtain ⟨-, rfl⟩ := EStateM.Result.ok.inj h
          exact ⟨laid, held, final, rfl, hheld, hfinal, rfl⟩

/-- What preparing a class has done: the pool is finalized, the code is laid out, the bootstrap methods are held by an
attribute, and everything else is as before. -/
structure Prepared (model model' : ClassFile) : Prop where
  same : model' =
    { model with pool := model'.pool, methods := model'.methods, attributes := model'.attributes }
  methods : List.Forall₂ Method.LaidOut model.methods model'.methods
  attributes :
    HoldsBootstraps model'.pool.slots.size model.pool.bootstraps.toList model.attributes model'.attributes
  leads : ∃ ops, Pool.Leads model.pool ops model'.pool
  finalized : model'.pool.isFinalized = true

theorem prepared_of_prepare {references : List Reference} {warnings warnings' : Array Warning}
    (hpool : Pool.Reached model.pool references) (hcells : ∀ cell ∈ model.cells, cell.id < model.pool.slots.size)
    (h : prepare ⟨model, warnings⟩ = .ok () ⟨model', warnings'⟩) : model.Prepared model' := by
  obtain ⟨laid, held, ⟨final, finalWarnings⟩, hlaid, hheld, hfinal, rfl⟩ := prepare_ok h
  have hmethods : ∀ method ∈ model.methods, ∀ cell ∈ method.cells, cell.id < model.pool.slots.size :=
    fun method hmethod cell hcell => hcells cell (mem_cells_of_method hmethod hcell)
  obtain ⟨methods, ranked, rfl, hall, ⟨ops, hops⟩, -, hbootstraps⟩ := layOut_ok hlaid hmethods
  obtain ⟨⟨more, hreached⟩, -⟩ := hpool.leads hops
  obtain ⟨attributes, named, rfl, hholds, added, hadded⟩ := updateBootstraps_ok hheld hreached.valid.wellBound
  obtain ⟨⟨more', hreached'⟩, -⟩ := hreached.leads hadded
  obtain ⟨indexed, rfl, hfinalized, last, hlast⟩ := finalizePool_ok hfinal
  have hle := (hreached'.leads hlast).2
  simp only [hbootstraps] at hholds
  exact ⟨rfl, hall, hholds.mono hle, ⟨_, (hops.trans hadded).trans hlast⟩, hfinalized⟩

/-! ### The cells of a prepared class -/

theorem cells_bootstrapMethods (name : Cell) (methods : List Bootstrap) :
    Attribute.cells ⟨name, .bootstrapMethods methods⟩ = name :: methods.flatMap Bootstrap.cells := by
  have hmethod : ∀ method : Bootstrap, allLookups method.checks = method.cells := by
    intro method
    rw [Bootstrap.checks, allLookups_cons, allLookups_counted]
    exact congrArg (method.handle :: ·) (List.flatMap_singleton' method.arguments)
  simp only [Attribute.cells, Attribute.checks, Payload.checks, allLookups_cons, allLookups_counted, hmethod]
  rfl

theorem HoldsBootstraps.mem_cells {size : Nat} {methods : List Bootstrap} {attributes attributes' : List Attribute}
    (h : HoldsBootstraps size methods attributes attributes') {cell : Cell}
    (hcell : cell ∈ attributes'.flatMap Attribute.cells) :
    cell ∈ attributes.flatMap Attribute.cells ∨ cell.id < size ∨ cell ∈ methods.flatMap Bootstrap.cells := by
  cases h with
  | unneeded _ => exact .inl hcell
  | replaced _ heq _ =>
    subst heq
    simp only [List.flatMap_append, List.flatMap_cons, cells_bootstrapMethods, List.mem_append,
      List.mem_cons] at hcell ⊢
    tauto
  | added _ _ hname =>
    simp only [List.flatMap_append, List.flatMap_cons, List.flatMap_nil, List.append_nil, cells_bootstrapMethods,
      List.mem_append, List.mem_cons] at hcell
    rcases hcell with hcell | rfl | hcell
    · exact .inl hcell
    · exact .inr (.inl hname)
    · exact .inr (.inr hcell)

theorem exists_laidOut {methods laid : List Method} (h : List.Forall₂ Method.LaidOut methods laid) {method : Method}
    (hmethod : method ∈ laid) : ∃ start ∈ methods, start.LaidOut method := by
  induction h with
  | nil => cases hmethod
  | cons hlaid _ ih =>
    rcases List.mem_cons.1 hmethod with rfl | hmethod
    · exact ⟨_, by simp, hlaid⟩
    · obtain ⟨start, hstart, hlaid⟩ := ih hmethod
      exact ⟨start, by simp [hstart], hlaid⟩

theorem flatMap_cells_of_laidOut {methods laid : List Method} (h : List.Forall₂ Method.LaidOut methods laid) :
    laid.flatMap Method.cells = methods.flatMap Method.cells := by
  induction h with
  | nil => rfl
  | cons hmethod _ ih => rw [List.flatMap_cons, List.flatMap_cons, ih, hmethod.cells_eq]

/-- The pool of a prepared class was led to by operations, and has its indices. -/
theorem Prepared.settles {references : List Reference} (h : model.Prepared model')
    (hpool : Pool.Reached model.pool references) :
    ∃ more table, Pool.Reached model'.pool (references ++ more) ∧ model'.pool.layout = some table := by
  obtain ⟨ops, hops⟩ := h.leads
  obtain ⟨⟨more, hreached⟩, -⟩ := hpool.leads hops
  obtain ⟨table, hlayout⟩ := Option.isSome_iff_exists.1 h.finalized
  exact ⟨more, table, hreached, hlayout⟩

theorem Prepared.cells_lt {references : List Reference} (h : model.Prepared model')
    (hpool : Pool.Reached model.pool references) (hcells : ∀ cell ∈ model.cells, cell.id < model.pool.slots.size) :
    ∀ cell ∈ model'.cells, cell.id < model'.pool.slots.size := by
  obtain ⟨ops, hops⟩ := h.leads
  have hle := (hpool.leads hops).2
  have hkeep : ∀ cell ∈ model.cells, cell.id < model'.pool.slots.size := fun cell hcell =>
    Nat.lt_of_lt_of_le (hcells cell hcell) hle
  intro cell hcell
  rw [cells, flatMap_cells_of_laidOut h.methods, List.mem_append] at hcell
  rcases hcell with hcell | hcell
  · refine hkeep cell (List.mem_append_left _ ?_)
    rw [h.same] at hcell
    exact hcell
  · rcases h.attributes.mem_cells hcell with hcell | hlt | hcell
    · exact hkeep cell (List.mem_append_right _ hcell)
    · exact hlt
    · obtain ⟨method, hmethod, hcell⟩ := List.mem_flatMap.1 hcell
      exact Nat.lt_of_lt_of_le (hpool.inBounds.bootstrap_lt method hmethod cell hcell) hle

end ClassFile

end JvmAssembler
