import JvmAssembler.Proofs.Pool.BindStep

/-!
# Operations step by step

Operations that give out no indices are made of few kinds of steps (`OpenStep`), each of which continues a faithful
pool. What a run of operations does to a pool follows from what its steps do, as long as the operations ask for no
index, or give none out (`Leads.keeps`): a pool that is deduplicated stays so (`Deduplicated.leads`).
-/

namespace JvmAssembler

/-- Whether an operation gives out the indices. -/
def PoolOp.isFinalize : PoolOp → Bool
  | finalize _ => true
  | _ => false

/-- Whether an operation asks for the cell of an explicit index. -/
def PoolOp.isReference : PoolOp → Bool
  | reference _ _ => true
  | _ => false

namespace Pool

/-- Operations lead from one pool to another. Each of them is given cells that the pool has handed out by then. -/
inductive Leads (start : Pool) : List PoolOp → Pool → Prop where
  | refl : Leads start [] start
  | step {ops : List PoolOp} {pool : Pool} (op : PoolOp) : Leads start ops pool →
      (∀ cell ∈ op.cells, cell.id < pool.slots.size) → Leads start (ops ++ [op]) (op.apply pool)

/-- The operations ask for no index, or give none out. -/
def Separated (ops : List PoolOp) : Prop :=
  (∀ op ∈ ops, op.isFinalize = false) ∨ ∀ op ∈ ops, op.isReference = false

variable {pool pool' pool'' : Pool} {references : List Reference} {ops more : List PoolOp}

theorem Leads.trans (h : Leads pool ops pool') (h' : Leads pool' more pool'') : Leads pool (ops ++ more) pool'' := by
  induction h' with
  | refl => rwa [List.append_nil]
  | step op _ hcells ih =>
    rw [← List.append_assoc]
    exact ih.step op hcells

theorem Leads.valid (h : Leads pool ops pool') (hvalid : pool.Valid references) :
    ∃ more, pool'.Valid (references ++ more) ∧ ((∀ op ∈ ops, op.isReference = false) → more = []) := by
  induction h with
  | refl => exact ⟨[], by rwa [List.append_nil], fun _ => rfl⟩
  | @step ops mid op _ hcells ih =>
    obtain ⟨more, hmid, hmore⟩ := ih
    refine ⟨more ++ op.references mid, by rw [← List.append_assoc]; exact hmid.apply hcells, fun hops => ?_⟩
    have hop := hops op (by simp)
    rw [hmore fun op' hop' => hops op' (by simp [hop'])]
    cases op with
    | reference index position => cases hop
    | _ => rfl

theorem Leads.addEntry {start : Pool} (h : Leads start ops pool) (hopen : pool.isFinalized = false)
    {value : Constant Cell} (hfind : pool.find value = .ok none) (hzero : value ≠ .zero)
    (hrefs : ∀ ref ∈ value.refs, ref.id < pool.slots.size) :
    Leads start (ops ++ [.intern value]) (pool.addEntry value) :=
  apply_intern hopen hfind hzero ▸ h.step (.intern value) hrefs

/-! ### Operations step by step -/

/-- One step of an operation that gives out no indices. -/
inductive OpenStep : Pool → Pool → Prop where
  /-- A cell is handed out, and it is decided later what it stands for. -/
  | push {pool : Pool} {binding : Binding} : (∀ value, binding ≠ .owned value) → (∀ target, binding ≠ .alias target) →
      (∀ kind name, binding = .promised kind name → name.id < pool.slots.size) → OpenStep pool (pool.pushSlot binding)
  /-- A constant that the pool does not have becomes an entry. -/
  | add {pool : Pool} {value : Constant Cell} : value ≠ .zero → (∀ ref ∈ value.refs, ref.id < pool.slots.size) →
      pool.find value = .ok none → OpenStep pool (pool.addEntry value)
  /-- A promise is on its way to be bound. -/
  | bind {pool pool' : Pool} : BindStep pool pool' → OpenStep pool pool'
  /-- A rank is set. -/
  | rank {pool : Pool} (cell : Cell) (rank : Rank) : OpenStep pool (pool.setRank cell rank)
  /-- The bootstrap methods change. -/
  | tables {pool : Pool} (bootstraps : Array Bootstrap) (bootstrapIndex : Std.HashMap Bootstrap UInt16) :
      OpenStep pool { pool with bootstraps, bootstrapIndex }

/-- Steps of operations that give out no indices. -/
abbrev OpenSteps : Pool → Pool → Prop := Relation.ReflTransGen OpenStep

theorem openSteps_intern {value : Constant Cell} (hrefs : ∀ ref ∈ value.refs, ref.id < pool.slots.size) :
    OpenSteps pool (PoolOp.left (Pool.intern value pool)) := by
  rcases left_intern_cases value pool with heq | ⟨hzero, hfind, -, heq⟩ <;> rw [heq]
  exact .single (.add hzero hrefs hfind)

/-- Every operation that gives out no indices is done step by step. -/
theorem Valid.openSteps (h : pool.Valid references) {op : PoolOp}
    (hcells : ∀ cell ∈ op.cells, cell.id < pool.slots.size) (hop : op.isFinalize = false) :
    OpenSteps pool (op.apply pool) := by
  cases op with
  | intern value => exact openSteps_intern hcells
  | reference index position =>
    rw [PoolOp.apply, Pool.reference]
    split
    · exact .refl
    · exact .single (.push (by simp) (by simp) (by simp))
  | promise tag name =>
    rw [PoolOp.apply, Pool.promise]
    cases tag.wrapper? with
    | none => exact .refl
    | some kind =>
      simp only
      split
      · exact .refl
      · refine .single (.push (by simp) (by simp) fun k n heq => ?_)
        obtain ⟨-, rfl⟩ := Binding.promised.inj heq
        exact hcells name (by simp [PoolOp.cells])
  | resolve cell =>
    have hcell := hcells cell (by simp [PoolOp.cells])
    rw [PoolOp.apply]
    cases hlayout : pool.layout with
    | none =>
      have hsteps := (resolveWithin_bindSteps h.wellBound hlayout hcell (Nat.lt_succ_of_lt hcell)).1
      exact hsteps.lift id fun _ _ => .bind
    | some table =>
      rw [h.resolve_of_settled hlayout hcell]
      exact .refl
  | setRank cell rank => exact .single (.rank cell rank)
  | bootstrap handle arguments =>
    rw [PoolOp.apply, Pool.bootstrap]
    simp only
    split
    · exact .refl
    · split
      · exact .refl
      · split
        · exact .single (.tables _ _)
        · exact .refl
  | finalize warnings => cases hop

theorem Leads.openSteps (h : Leads pool ops pool') (hvalid : pool.Valid references)
    (hops : ∀ op ∈ ops, op.isFinalize = false) : OpenSteps pool pool' := by
  induction h with
  | refl => exact .refl
  | step op hleads hcells ih =>
    obtain ⟨more, hmid, -⟩ := hleads.valid hvalid
    exact (ih fun o ho => hops o (by simp [ho])).trans (hmid.openSteps hcells (hops op (by simp)))

theorem Faithful.openStep (h : pool.Faithful) (hstep : OpenStep pool pool') : Continues pool pool' := by
  cases hstep with
  | push howned halias hname => exact h.pushSlot howned halias hname
  | add hzero hrefs hfind => exact h.addEntry hzero hrefs (find?_of_find hfind)
  | bind hstep => exact h.bindStep hstep
  | rank cell rank => exact h.setRank cell rank
  | tables => exact h.congr (fun _ => rfl) rfl rfl rfl rfl

theorem Faithful.openSteps (h : pool.Faithful) (hsteps : OpenSteps pool pool') : Continues pool pool' := by
  induction hsteps with
  | refl => exact h.refl
  | tail _ hstep ih => exact ih.trans (ih.faithful.openStep hstep)

/-- What one operation keeps, if it gives out no indices or there are no references to bind. -/
theorem Faithful.apply (h : pool.Faithful) (hvalid : pool.Valid references) {op : PoolOp}
    (hcells : ∀ cell ∈ op.cells, cell.id < pool.slots.size) (hop : op.isFinalize = false ∨ references = []) :
    Continues pool (op.apply pool) := by
  rcases hop with hop | rfl
  · exact h.openSteps (hvalid.openSteps hcells hop)
  · cases hfinalize : op.isFinalize with
    | false => exact h.openSteps (hvalid.openSteps hcells hfinalize)
    | true =>
      cases op with
      | finalize warnings => exact h.finalize hvalid hvalid.unbound_eq_nil warnings
      | _ => cases hfinalize

/-- What every operation keeps that gives out no indices, or for which there are no references to bind, is kept by all
operations if they ask for no index or give none out. -/
theorem Leads.keeps {motive : Pool → Prop} (h : Leads pool ops pool') (hvalid : pool.Valid references)
    (hops : (∀ op ∈ ops, op.isFinalize = false) ∨ references = [] ∧ ∀ op ∈ ops, op.isReference = false)
    (hstart : motive pool)
    (hstep : ∀ {mid : Pool} {asked : List Reference} {op : PoolOp}, mid.Valid asked →
      (∀ cell ∈ op.cells, cell.id < mid.slots.size) → (op.isFinalize = false ∨ asked = []) → motive mid →
      motive (op.apply mid)) : motive pool' := by
  induction h with
  | refl => exact hstart
  | @step ops mid op hleads hcells ih =>
    have hbefore : ∀ {p : PoolOp → Prop}, (∀ o ∈ ops ++ [op], p o) → ∀ o ∈ ops, p o :=
      fun hall o ho => hall o (List.mem_append_left _ ho)
    obtain ⟨added, hvalid', hadded⟩ := hleads.valid hvalid
    refine hstep hvalid' hcells ?_ (ih (hops.imp hbefore fun ⟨hnone, hall⟩ => ⟨hnone, hbefore hall⟩))
    rcases hops with hall | ⟨hnone, hall⟩
    · exact .inl (hall op (by simp))
    · exact .inr (by rw [hnone, hadded (hbefore hall), List.append_nil])

/-- What operations keep, if they ask for no index or give none out. -/
theorem Deduplicated.leads (h : pool.Deduplicated) (hvalid : pool.Valid references) (hleads : Leads pool ops pool')
    (hops : (∀ op ∈ ops, op.isFinalize = false) ∨ references = [] ∧ ∀ op ∈ ops, op.isReference = false) :
    pool'.Deduplicated ∧ Remembers pool pool' :=
  hleads.keeps (motive := fun mid => mid.Deduplicated ∧ Remembers pool mid) hvalid hops ⟨h, .refl pool⟩
    fun hvalid hcells hop ⟨hmid, hrem⟩ =>
      have hcontinues := hmid.toFaithful.apply hvalid hcells hop
      ⟨hmid.continues hcontinues, hrem.trans hcontinues.toRemembers⟩

/-- Whatever operations lead to a pool, what is found in it is right. -/
theorem Reached.faithful (h : Reached pool references) : pool.Faithful := by
  induction h with
  | empty => exact .empty
  | step op hreached hcells ih =>
    cases hop : op.isFinalize with
    | false => exact (ih.openSteps (hreached.valid.openSteps hcells hop)).faithful
    | true =>
      cases op with
      | finalize warnings =>
        obtain ⟨bound, hsteps, -, hcompletes | ⟨heq, -⟩⟩ := hreached.valid.exists_completes warnings
        · exact hcompletes.faithful (ih.bindSteps hsteps).faithful
        · rw [heq]
          exact (ih.bindSteps hsteps).faithful
      | _ => cases hop

end Pool

end JvmAssembler
