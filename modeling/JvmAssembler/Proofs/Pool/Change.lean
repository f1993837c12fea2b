import JvmAssembler.Proofs.Pool.Identity

/-!
# What operations are made of

An operation that does not set a rank changes the cells of a pool in few ways: it hands out a cell that is decided
later, adds an entry, binds a cell to an entry, or numbers the entries (`Change`). `Valid.apply_cases` says so of every
operation, whether it succeeds or fails, so that what one change keeps is kept by every run.
-/

namespace JvmAssembler

/-- What every action of a sequence keeps, the sequence keeps, however far it gets. -/
theorem PoolOp.left_forM {ε σ ι : Type} {action : ι → EStateM ε σ Unit} (kept : σ → Prop)
    (hstep : ∀ i s, kept s → kept (left (action i s))) (items : List ι) {s : σ} (h : kept s) :
    kept (left (items.forM action s)) := by
  induction items generalizing s with
  | nil => exact h
  | cons i items ih =>
    have hi := hstep i s h
    rw [forM_cons_run, EStateM.bind]
    cases hrun : action i s with
    | ok u mid =>
      rw [hrun] at hi
      exact ih hi
    | error e mid =>
      rw [hrun] at hi
      exact hi

/-- Whether it is decided later what the cell stands for. -/
def Binding.isPending : Binding → Bool
  | indexed _ _ | promised _ _ => true
  | _ => false

namespace Pool

variable {pool pool' pool'' : Pool} {references : List Reference}

/-- One change of the cells of a pool. -/
inductive Change : Pool → Pool → Prop where
  /-- A cell is handed out, and it is decided later what it stands for. -/
  | push {pool : Pool} {binding : Binding} : binding.isPending = true →
      (∀ kind name, binding = .promised kind name → name.id < pool.slots.size) → Change pool (pool.pushSlot binding)
  /-- A constant becomes an entry. -/
  | add {pool : Pool} {value : Constant Cell} : value ≠ .zero → (∀ ref ∈ value.refs, ref.id < pool.slots.size) →
      Change pool (pool.addEntry value)
  /-- A cell comes to stand for an entry. -/
  | bind {pool : Pool} {cell target : Cell} {binding : Binding} : pool.binding? cell = some binding →
      binding.isPending = true → pool.Owns target → Change pool (pool.bind cell target)
  /-- The entries get their indices. -/
  | number {pool : Pool} : Change pool (pool.assignIndices pool.numbering)
  /-- The bootstrap methods change, or the layout does, and the cells stay. -/
  | tables {pool : Pool} (bootstraps : Array Bootstrap) (bootstrapIndex : Std.HashMap Bootstrap UInt16)
      (layout : Option (OffsetTable Cell)) : Change pool { pool with bootstraps, bootstrapIndex, layout }

theorem not_owns_of_isPending {cell : Cell} {binding : Binding} (hcell : pool.binding? cell = some binding)
    (hpending : binding.isPending = true) : ¬ pool.Owns cell :=
  not_owns_of_binding? hcell (by rintro value rfl; cases hpending)

/-! ### What a change keeps -/

namespace Change

theorem wellBound (h : Change pool pool') (hwell : pool.WellBound) : pool'.WellBound := by
  cases h with
  | @push binding hpending hname =>
    exact hwell.pushSlot (by rintro value rfl; cases hpending) (by rintro target rfl; cases hpending) hname
  | add hzero hrefs => exact hwell.addEntry hzero hrefs
  | bind hcell hpending htarget => exact hwell.bind (not_owns_of_isPending hcell hpending) htarget
  | number => exact hwell.assignIndices
  | tables => exact hwell.congr (fun _ => rfl) rfl rfl rfl

/-- A cell that stands for an entry stands for it ever after. -/
theorem binding?_eq (h : Change pool pool') {cell : Cell} {binding : Binding}
    (hcell : pool.binding? cell = some binding) (hdecided : binding.isPending = false) :
    pool'.binding? cell = some binding := by
  cases h with
  | push => exact binding?_pushSlot_of_some hcell
  | add => exact binding?_pushSlot_of_some hcell
  | @bind bound target pending hbound hpending htarget =>
    have hcne : cell ≠ bound := by
      rintro rfl
      obtain rfl := Option.some.inj (hcell.symm.trans hbound)
      cases hdecided.symm.trans hpending
    rw [binding?_bind_of_ne (not_owns_of_isPending hbound hpending) htarget hcne, hcell]
  | number => rw [binding?_assignIndices, hcell]
  | tables => exact hcell

theorem owns (h : Change pool pool') {cell : Cell} (hcell : pool.Owns cell) : pool'.Owns cell := by
  obtain ⟨value, hvalue⟩ := hcell
  exact ⟨value, h.binding?_eq hvalue rfl⟩

/-- Entries are added behind the others. -/
theorem places_append (h : Change pool pool') (hwell : pool.WellBound) :
    ∃ more, pool'.places = pool.places ++ more := by
  have hkeep : ∀ cell value, pool.binding? cell = some (.owned value) → pool'.binding? cell = some (.owned value) :=
    fun cell value hcell => h.binding?_eq hcell rfl
  have horder : ∃ added, pool'.order.toList = pool.order.toList ++ added := by
    cases h with
    | @add value _ _ => exact ⟨_, order_addEntry pool value⟩
    | @bind cell target _ _ _ _ =>
      obtain ⟨heq, -⟩ := bind_eq pool cell target
      rw [heq]
      exact ⟨[], (List.append_nil _).symm⟩
    | _ => exact ⟨[], (List.append_nil _).symm⟩
  obtain ⟨added, hadded⟩ := horder
  exact hwell.places_append hadded hkeep

end Change

/-- Changes lead from one pool to the other. -/
abbrev Changes : Pool → Pool → Prop := Relation.ReflTransGen Change

theorem Changes.wellBound (h : Changes pool pool') (hwell : pool.WellBound) : pool'.WellBound := by
  induction h with
  | refl => exact hwell
  | tail _ hstep ih => exact hstep.wellBound ih

theorem Changes.owns (h : Changes pool pool') {cell : Cell} (hcell : pool.Owns cell) : pool'.Owns cell := by
  induction h with
  | refl => exact hcell
  | tail _ hstep ih => exact hstep.owns ih

/-! ### The operations as changes -/

theorem changes_of_bindSteps (h : Relation.ReflTransGen BindStep pool pool') (hwell : pool.WellBound) :
    Changes pool pool' := by
  induction h with
  | refl => exact .refl
  | tail _ hstep ih =>
    refine ih.tail ?_
    cases hstep with
    | add hcell => exact .add (by simp) ((ih.wellBound hwell).refs_wrapper_lt hcell)
    | bind hcell _ hfind => exact .bind hcell rfl ((ih.wellBound hwell).find?_owns (find?_of_find hfind))

/-- Binding the references up to the first that leads nowhere. -/
theorem changes_bindReferences {table : OffsetTable Cell}
    (htargets : ∀ index target, target? table index = some target → pool.Owns target) (warnings : Array Warning) :
    Changes pool (PoolOp.left (bindReferences table ⟨pool, warnings⟩)).state := by
  refine PoolOp.left_forM (fun s : Reported Pool => Changes pool s.state) (fun id s h => ?_) _ .refl
  obtain ⟨start, reported⟩ := s
  rw [bindReference_eq]
  cases hreference : start.reference? id with
  | none => exact h
  | some reference =>
    simp only
    cases htarget : target? table reference.index with
    | none => exact h
    | some target =>
      have hbinding := (reference?_eq_some_iff.1 hreference).2
      exact h.tail (.bind hbinding rfl (h.owns (htargets _ _ htarget)))

theorem WellBound.changes_giveIndices (h : pool.WellBound) (warnings : Array Warning) :
    Changes pool (PoolOp.left (giveIndices ⟨pool, warnings⟩)).state := by
  rw [giveIndices]
  simp only
  split
  · exact .refl
  · split
    · exact .single .number
    · have hbound := changes_bindReferences (fun index target => h.owns_assignIndices) warnings
      have hnumbered : Changes pool (pool.assignIndices pool.numbering) := .single .number
      split
      · rename_i e s hrun
        rw [hrun] at hbound
        exact hnumbered.trans hbound
      · rename_i u final reported hrun
        rw [hrun] at hbound
        exact (hnumbered.trans hbound).tail (.tables _ _ _)

theorem WellBound.changes_finalize (h : pool.WellBound) (warnings : Array Warning) :
    Changes pool (PoolOp.left (Pool.finalize ⟨pool, warnings⟩)).state := by
  cases hfinal : pool.isFinalized with
  | true =>
    simp only [Pool.finalize, hfinal, ↓reduceIte]
    exact .refl
  | false =>
    have hopen := layout_eq_none hfinal
    have hbound := changes_of_bindSteps (bindPromises_bindSteps h hopen) h
    rcases bindPromises_spec h hopen with ⟨bound, hrun, hwell, -⟩ | ⟨left, hrun, -⟩
    · rw [hrun] at hbound
      rw [finalize_of_open hfinal hrun]
      exact hbound.trans (hwell.changes_giveIndices warnings)
    · rw [hrun] at hbound
      rw [finalize_of_endless hfinal hrun]
      exact hbound

theorem Valid.changes_resolve (h : pool.Valid references) {cell : Cell} (hcell : cell.id < pool.slots.size) :
    Changes pool (PoolOp.left (Pool.resolve cell pool)) := by
  cases hlayout : pool.layout with
  | none =>
    have hsteps := (resolveWithin_bindSteps h.wellBound hlayout hcell (Nat.lt_succ_of_lt hcell)).1
    exact changes_of_bindSteps hsteps h.wellBound
  | some table =>
    rw [h.resolve_of_settled hlayout hcell]
    exact .refl

/-- Every operation sets a rank or is made of changes. -/
theorem Valid.apply_cases (h : pool.Valid references) {op : PoolOp}
    (hcells : ∀ cell ∈ op.cells, cell.id < pool.slots.size) :
    (∃ cell rank, op = .setRank cell rank) ∨ Changes pool (op.apply pool) := by
  cases op with
  | setRank cell rank => exact .inl ⟨cell, rank, rfl⟩
  | intern value =>
    refine .inr ?_
    rw [PoolOp.apply]
    rcases left_intern_cases value pool with heq | ⟨hzero, -, -, heq⟩ <;> rw [heq]
    exact .single (.add hzero hcells)
  | reference index position =>
    refine .inr ?_
    rw [PoolOp.apply, Pool.reference]
    split
    · exact .refl
    · exact .single (.push rfl (by simp))
  | promise tag name =>
    refine .inr ?_
    rw [PoolOp.apply, Pool.promise]
    split
    · exact .refl
    · split
      · exact .refl
      · refine .single (.push rfl fun kind other heq => ?_)
        obtain ⟨-, rfl⟩ := Binding.promised.inj heq
        exact hcells name (by simp [PoolOp.cells])
  | resolve cell => exact .inr (h.changes_resolve (hcells cell (by simp [PoolOp.cells])))
  | bootstrap handle arguments =>
    refine .inr ?_
    rw [PoolOp.apply, Pool.bootstrap]
    simp only
    split
    · exact .refl
    · split
      · exact .refl
      · split
        · exact .single (.tables _ _ _)
        · exact .refl
  | finalize warnings => exact .inr (h.wellBound.changes_finalize warnings)

end Pool

end JvmAssembler
