import JvmAssembler.Proofs.Pool.Deduplication

/-!
# Binding promises step by step

Promises are bound in two kinds of steps (`BindStep`), when a cell is resolved and when the pool is finalized. Each of
them continues a faithful pool. Finalizing then binds references (`Completes`), which may make contents known and
changes none that is known, so that the pool stays faithful.
-/

namespace JvmAssembler.Pool

variable {pool pool' : Pool} {references : List Reference}

/-! ### The steps -/

/-- One step of binding promises: the wrapper of a promised cell is added if the pool does not have it, or the cell is
bound to the cell that was found for it. The name is not promised any more. -/
inductive BindStep : Pool → Pool → Prop where
  | add {pool : Pool} {cell : Cell} {kind : Wrapper} {name : Cell} :
      pool.binding? cell = some (.promised kind name) → (∀ k n, pool.binding? name ≠ some (.promised k n)) →
      pool.find (.wrapper kind (pool.canonical name)) = .ok none →
      BindStep pool (pool.addEntry (.wrapper kind (pool.canonical name)))
  | bind {pool : Pool} {cell target : Cell} {kind : Wrapper} {name : Cell} :
      pool.binding? cell = some (.promised kind name) → (∀ k n, pool.binding? name ≠ some (.promised k n)) →
      pool.find (.wrapper kind (pool.canonical name)) = .ok (some target) → BindStep pool (pool.bind cell target)

/-- The wrapper of a promised cell refers to a cell of the pool. -/
theorem WellBound.refs_wrapper_lt (h : pool.WellBound) {cell : Cell} {kind : Wrapper} {name : Cell}
    (hcell : pool.binding? cell = some (.promised kind name)) :
    ∀ ref ∈ (Constant.wrapper kind (pool.canonical name)).refs, ref.id < pool.slots.size := by
  intro ref href
  obtain rfl := List.mem_singleton.1 href
  have hname := h.name_lt cell kind name hcell
  have hlt := lt_of_binding? hcell
  exact h.canonical_lt (by omega)

/-- The wrapper of a promised cell has its content: the name and what it is resolved to stand for the same. -/
theorem WellBound.contentOf?_wrapper (h : pool.WellBound) {cell : Cell} {kind : Wrapper} {name : Cell}
    (hcell : pool.binding? cell = some (.promised kind name)) :
    pool.contentOf? (.wrapper kind (pool.canonical name)) = pool.content? cell := by
  have hname : pool.content? (pool.canonical name) = pool.content? name :=
    content?_canonical (h.canonical_canonical name)
  rw [content?_eq, meaning?_of_promised hcell, Option.bind_some, contentOf?_eq, contentOf?_eq]
  show (pool.content? (pool.canonical name)).map _ = (pool.content? name).map _
  rw [hname]
  rfl

/-- What is found for the wrapper of a promised cell is searched in the same way as the cell. -/
theorem Faithful.contentWithin_of_find (h : pool.Faithful) {cell target : Cell} {kind : Wrapper} {name : Cell}
    (hcell : pool.binding? cell = some (.promised kind name))
    (hfind : pool.find (.wrapper kind (pool.canonical name)) = .ok (some target)) (fuel : Nat) :
    pool.contentWithin fuel target = pool.contentWithin fuel cell := by
  have hknown := h.content?_find? (find?_of_find hfind)
  cases hvalue : pool.byValue[Constant.wrapper kind (pool.canonical name)]? with
  | some found =>
    obtain rfl : found = target := by simpa using (find_of_byValue hvalue).symm.trans hfind
    cases fuel with
    | zero => rfl
    | succ fuel =>
      rw [contentWithin_succ, contentWithin_succ, meaning?_of_owned (h.byValue_eq _ found hvalue),
        meaning?_of_promised hcell]
      have hname := contentWithin_congr (h.canonical_canonical name) fuel
      simp only [Option.elim, Constant.content, Constant.refs, hname]
      rfl
  | none =>
    -- What is found by its content has the content that was looked for.
    rw [find, hvalue] at hfind
    cases hcontent : pool.contentOf (.wrapper kind (pool.canonical name)) with
    | error e => simp [hcontent, Search.andThen] at hfind
    | ok found =>
      cases found with
      | none => simp [hcontent, Search.andThen] at hfind
      | some content =>
        have hcontent? : pool.contentOf? (.wrapper kind (pool.canonical name)) = some content := by
          rw [contentOf?, hcontent]
          rfl
        rw [contentWithin_of_content? (hknown.trans hcontent?) fuel,
          contentWithin_of_content? ((h.contentOf?_wrapper hcell).symm.trans hcontent?) fuel]

theorem Faithful.bindStep (h : pool.Faithful) (hstep : BindStep pool pool') : Continues pool pool' := by
  cases hstep with
  | add hcell _ hfind => exact h.addEntry (by simp) (h.refs_wrapper_lt hcell) (find?_of_find hfind)
  | @bind cell target kind name hcell _ hfind =>
    have htarget := h.find?_owns (find?_of_find hfind)
    have hnot : ¬ pool.Owns cell := not_owns_of_binding? hcell (by simp)
    obtain ⟨heq, hsize⟩ := bind_eq pool cell target
    refine h.of_keepsContent (h.toWellBound.bind hnot htarget) (by omega) (by rw [heq]) (by rw [heq])
      (fun c value hc => ?_) (h.keepsContent_bind hnot htarget ⟨_, hcell⟩ (h.contentWithin_of_find hcell hfind))
    rcases cases_of_bind hnot htarget hc with ⟨-, hb⟩ | hc
    · cases hb
    · exact hc

theorem Faithful.bindSteps (h : pool.Faithful) (hsteps : Relation.ReflTransGen BindStep pool pool') :
    Continues pool pool' := by
  induction hsteps with
  | refl => exact h.refl
  | tail _ hstep ih => exact ih.trans (ih.faithful.bindStep hstep)

/-- A promise that no entry keeps is kept in two steps: its wrapper becomes an entry, and the cell is bound to it. -/
theorem WellBound.bindSteps_addEntry (h : pool.WellBound) {cell : Cell} {kind : Wrapper} {name : Cell}
    (hcell : pool.binding? cell = some (.promised kind name)) (hname : ∀ k n, pool.binding? name ≠ some (.promised k n))
    (hfind : pool.find (.wrapper kind (pool.canonical name)) = .ok none) :
    Relation.ReflTransGen BindStep pool
      ((pool.addEntry (.wrapper kind (pool.canonical name))).bind cell ⟨pool.slots.size⟩) := by
  have hlt : name.id < pool.slots.size := Nat.lt_trans (h.name_lt cell kind name hcell) (lt_of_binding? hcell)
  have hkept : (pool.addEntry (.wrapper kind (pool.canonical name))).binding? name = pool.binding? name := by
    rw [binding?_addEntry, if_neg (by omega)]
  have hcanonical := h.canonical_congr (h.addEntry (by simp) (h.refs_wrapper_lt hcell)) hkept
  refine .tail (.single (.add hcell hname hfind)) (.bind (binding?_pushSlot_of_some hcell) (by rwa [hkept]) ?_)
  rw [hcanonical]
  exact find_of_byValue (byValue_addEntry_self pool (.wrapper kind (pool.canonical name)))

/-- Resolving a cell is done step by step, as far as it gets, and leaves later cells alone. -/
theorem resolveWithin_bindSteps (h : pool.WellBound) (hopen : pool.layout = none) {fuel : Nat} {cell : Cell}
    (hlt : cell.id < pool.slots.size) (hfuel : cell.id < fuel) :
    Relation.ReflTransGen BindStep pool (PoolOp.left (resolveWithin fuel cell pool)) ∧
      ∀ c : Cell, cell.id < c.id → c.id < pool.slots.size →
        (PoolOp.left (resolveWithin fuel cell pool)).binding? c = pool.binding? c := by
  induction fuel generalizing cell with
  | zero => omega
  | succ fuel ih =>
    by_cases hpromised : ∃ kind name, pool.binding? cell = some (.promised kind name)
    · obtain ⟨kind, name, hbinding⟩ := hpromised
      have hlt' := h.name_lt cell kind name hbinding
      have hname : name.id < pool.slots.size := by omega
      obtain ⟨hsteps, hlater⟩ := ih hname (by omega)
      rw [resolveWithin_of_promised hbinding]
      rcases resolveWithin_spec h hopen hname (show name.id < fuel by omega) with ⟨owner, named, hrun, hresolves⟩ |
        ⟨named, hrun, -⟩
      · simp only [hrun, PoolOp.left_ok] at hsteps hlater ⊢
        obtain rfl := hresolves.canonical
        have hpromised : named.binding? cell = some (.promised kind name) := by
          rw [hlater cell hlt' hlt, hbinding]
        have hnot : ¬ named.Owns cell := not_owns_of_binding? hpromised (by simp)
        have hother : ∀ c : Cell, cell.id < c.id → c ≠ cell := by
          rintro c hc rfl
          omega
        rcases hfind : named.find (.wrapper kind (named.canonical name)) with e | _ | target
        · exact ⟨hsteps, fun c hc => hlater c (by omega)⟩
        · have hopen' : named.isFinalized = false := by rw [isFinalized, hresolves.extends_.layout, hopen]; rfl
          simp only [hopen', Bool.false_eq_true, ↓reduceIte, PoolOp.left_ok]
          refine ⟨hsteps.trans (hresolves.wellBound.bindSteps_addEntry hpromised hresolves.bound hfind),
            fun c hc hold => ?_⟩
          have hsize := hresolves.extends_.size_le
          have hnot' : ¬ (named.addEntry (.wrapper kind (named.canonical name))).Owns cell :=
            not_owns_of_binding? (binding?_pushSlot_of_some hpromised) (by simp)
          rw [binding?_bind_of_ne hnot' ⟨_, by rw [binding?_addEntry, if_pos rfl]⟩ (hother c hc), binding?_addEntry,
            if_neg (by omega), hlater c (by omega) hold]
        · have howns := hresolves.wellBound.find?_owns (find?_of_find hfind)
          refine ⟨hsteps.tail (.bind hpromised hresolves.bound hfind), fun c hc hold => ?_⟩
          rw [PoolOp.left_ok, binding?_bind_of_ne hnot howns (hother c hc), hlater c (by omega) hold]
      · simp only [hrun, PoolOp.left_error] at hsteps hlater ⊢
        exact ⟨hsteps, fun c hc => hlater c (by omega)⟩
    · rw [resolveWithin_of_not_promised h hopen hlt (fun kind name hcell => hpromised ⟨kind, name, hcell⟩)]
      exact ⟨.refl, fun _ _ _ => rfl⟩

/-- Binding all promises is done step by step, as far as it gets. -/
private theorem forM_bindPromise_bindSteps (h : pool.WellBound) (hopen : pool.layout = none) {ids : List Nat}
    (hlt : ∀ id ∈ ids, id < pool.slots.size) :
    Relation.ReflTransGen BindStep pool (PoolOp.left (ids.forM bindPromise pool)) := by
  induction ids generalizing pool with
  | nil => exact .refl
  | cons id ids ih =>
    rw [forM_cons_run, EStateM.bind]
    have hid : (⟨id⟩ : Cell).id < pool.slots.size := hlt id (by simp)
    by_cases hpromised : ∃ kind name, pool.binding? ⟨id⟩ = some (.promised kind name)
    · obtain ⟨kind, name, hbinding⟩ := hpromised
      have hsteps := (resolveWithin_bindSteps h hopen hid (Nat.lt_succ_of_lt hid)).1
      rw [← resolve] at hsteps
      rw [bindPromise_of_promised hbinding]
      rcases resolve_spec h hopen hid with ⟨target, mid, hrun, hresolves⟩ | ⟨mid, hrun, -⟩
      · rw [hrun] at hsteps ⊢
        refine hsteps.trans (ih hresolves.wellBound (hresolves.extends_.layout.trans hopen) fun i hi => ?_)
        exact Nat.lt_of_lt_of_le (hlt i (by simp [hi])) hresolves.extends_.size_le
      · rw [hrun] at hsteps ⊢
        exact hsteps
    · rw [bindPromise_of_not_promised (fun kind name hcell => hpromised ⟨kind, name, hcell⟩)]
      exact ih h hopen (fun i hi => hlt i (by simp [hi]))

theorem bindPromises_bindSteps (h : pool.WellBound) (hopen : pool.layout = none) :
    Relation.ReflTransGen BindStep pool (PoolOp.left (bindPromises pool)) :=
  forM_bindPromise_bindSteps h hopen fun _ hid => List.mem_range.1 hid

/-! ### Finalizing -/

/-- References of a pool without promises have been bound to entries. Nothing else that tells what cells contain, or
where to find it, has changed. -/
structure Completes (pool pool' : Pool) : Prop where
  before : pool.WellBound
  after : pool'.WellBound
  promised : ∀ cell kind name, pool.binding? cell ≠ some (.promised kind name)
  size : pool'.slots.size = pool.slots.size
  order : pool'.order = pool.order
  byValue : pool'.byValue = pool.byValue
  byContent : pool'.byContent = pool.byContent
  binding : ∀ cell, pool'.binding? cell = pool.binding? cell ∨ ∃ index position target,
    pool.binding? cell = some (.indexed index position) ∧ pool'.binding? cell = some (.alias target)

namespace Completes

variable {cell : Cell} {value : Constant Cell}

/-- Only references come to stand for something else. -/
theorem binding?_eq (h : Completes pool pool')
    (hcell : ∀ index position, pool.binding? cell ≠ some (.indexed index position)) :
    pool'.binding? cell = pool.binding? cell := by
  rcases h.binding cell with hsame | ⟨index, position, target, hindexed, -⟩
  · exact hsame
  · exact absurd hindexed (hcell index position)

theorem owned (h : Completes pool pool') (hcell : pool'.binding? cell = some (.owned value)) :
    pool.binding? cell = some (.owned value) := by
  rcases h.binding cell with hsame | ⟨index, position, target, -, halias⟩
  · rw [← hsame, hcell]
  · rw [hcell] at halias
    cases halias

theorem not_promised (h : Completes pool pool') (cell : Cell) (kind : Wrapper) (name : Cell) :
    pool'.binding? cell ≠ some (.promised kind name) := by
  rcases h.binding cell with hsame | ⟨index, position, target, -, halias⟩
  · rw [hsame]
    exact h.promised cell kind name
  · simp [halias]

theorem meaning?_eq (h : Completes pool pool')
    (hcell : ∀ index position, pool.binding? cell ≠ some (.indexed index position)) :
    pool'.meaning? cell = pool.meaning? cell := by
  have howner : ∀ index position, pool.binding? (pool.canonical cell) ≠ some (.indexed index position) := by
    rcases h.before.canonical_cases cell with hself | ⟨value, hvalue⟩
    · rwa [hself]
    · simp [hvalue]
  exact h.before.meaning?_congr h.after (h.binding?_eq hcell) (h.binding?_eq howner)

theorem meaning?_of_some (h : Completes pool pool') (hvalue : pool.meaning? cell = some value) :
    pool'.meaning? cell = some value := by
  rw [h.meaning?_eq, hvalue]
  intro index position hindexed
  rw [meaning?_of_indexed hindexed] at hvalue
  cases hvalue

theorem keepsKnown (h : Completes pool pool') : KeepsKnown pool pool' :=
  keepsKnown_of_meaning fun _ _ => h.meaning?_of_some

theorem faithful (h : Completes pool pool') (hfaithful : pool.Faithful) : pool'.Faithful :=
  hfaithful.of_keepsKnown h.after h.byValue h.byContent (fun _ _ => h.owned) h.keepsKnown

end Completes

/-- Once the promises are bound, finalizing binds references, as far as it gets. -/
theorem finalize_completes (hopen : pool.isFinalized = false) {bound : Pool}
    (hrun : bindPromises pool = .ok () bound) (hwell : bound.WellBound)
    (hpromised : ∀ cell kind name, bound.binding? cell ≠ some (.promised kind name)) (warnings : Array Warning) :
    Completes bound ((PoolOp.finalize warnings).apply pool) := by
  have hresult := finalize_spec hopen hrun hwell warnings
  have hcompletes : ∀ {table : OffsetTable Cell} {start final : Pool} (layout : Option (OffsetTable Cell)),
      start = bound ∨ start = bound.assignIndices bound.numbering → Points table start final →
      Completes bound { final with layout } := by
    intro table start final layout hstart hpoints
    have hbinding : ∀ cell, start.binding? cell = bound.binding? cell := by
      rcases hstart with rfl | rfl
      · exact fun _ => rfl
      · exact binding?_assignIndices bound
    have hsize : start.slots.size = bound.slots.size := by
      rcases hstart with rfl | rfl
      · rfl
      · exact size_slots_assignIndices bound
    have htables : start.order = bound.order ∧ start.byValue = bound.byValue ∧ start.byContent = bound.byContent := by
      rcases hstart with rfl | rfl <;> exact ⟨rfl, rfl, rfl⟩
    refine ⟨hwell, hpoints.wellBound.congr (fun _ => rfl) rfl rfl rfl, hpromised, hpoints.size.trans hsize,
      hpoints.order.trans htables.1, hpoints.byValue.trans htables.2.1, hpoints.byContent.trans htables.2.2,
      fun cell => ?_⟩
    rw [← hbinding cell]
    rcases hpoints.binding cell with hsame | ⟨index, position, target, hindexed, -, halias⟩
    · exact .inl hsame
    · exact .inr ⟨index, position, target, hindexed, halias⟩
  rw [PoolOp.apply]
  cases hobstacle : obstacle? bound.constants bound.bootstraps.size bound.unbound with
  | some e =>
    rw [hobstacle] at hresult
    obtain ⟨start, s, hfinalize, hstart, hpoints⟩ := hresult
    rw [hfinalize]
    exact hcompletes s.state.layout (hstart.imp_right And.right) hpoints
  | none =>
    rw [hobstacle] at hresult
    obtain ⟨final, hfinalize, hpoints, -⟩ := hresult
    rw [hfinalize]
    exact hcompletes _ (.inr rfl) hpoints

/-- Finalizing binds promises first and references then, unless binding the promises has no end. -/
theorem Valid.exists_completes (h : pool.Valid references) (warnings : Array Warning) :
    ∃ bound, Relation.ReflTransGen BindStep pool bound ∧
      (∀ reference, reference ∈ bound.unbound ↔ reference ∈ pool.unbound) ∧
      (Completes bound ((PoolOp.finalize warnings).apply pool) ∨
        (PoolOp.finalize warnings).apply pool = bound ∧ bound.isFinalized = false) := by
  have hwell := h.wellBound
  cases hfinal : pool.isFinalized with
  | true =>
    have hsame : (PoolOp.finalize warnings).apply pool = pool := by
      simp only [PoolOp.apply, Pool.finalize, hfinal, ↓reduceIte, PoolOp.left]
    rw [hsame]
    refine ⟨pool, .refl, fun _ => Iff.rfl, .inl ⟨hwell, hwell, fun cell kind name hcell => ?_, rfl, rfl, rfl, rfl,
      fun _ => .inl rfl⟩⟩
    obtain ⟨table, htable⟩ := Option.isSome_iff_exists.1 hfinal
    rcases (h.settled table htable).bound cell _ hcell with ⟨value, hvalue⟩ | ⟨target, htarget⟩
    · rw [hcell] at hvalue
      cases hvalue
    · cases htarget
  | false =>
    have hopen := layout_eq_none hfinal
    have hsteps := bindPromises_bindSteps hwell hopen
    have hsame : ∀ {mid : Pool}, Extends pool mid → ∀ reference, reference ∈ mid.unbound ↔ reference ∈ pool.unbound :=
      fun hextends reference => by rw [mem_unbound_iff, mem_unbound_iff, hextends.indexed_iff]
    rcases bindPromises_spec hwell hopen with ⟨bound, hrun, hbound, hextends, hpromised⟩ | ⟨left, hrun, -, hextends⟩
    · rw [hrun] at hsteps
      exact ⟨bound, hsteps, hsame hextends, .inl (finalize_completes hfinal hrun hbound hpromised warnings)⟩
    · rw [hrun] at hsteps
      refine ⟨left, hsteps, hsame hextends, .inr ⟨?_, by rw [isFinalized, hextends.layout, hopen]; rfl⟩⟩
      rw [PoolOp.apply, finalize_of_endless hfinal hrun]
      rfl

/-- Without references, a cell stands for the same once the promises are bound and once the pool is finalized. -/
theorem Valid.exists_bound_of_unbound (h : pool.Valid references) (hunbound : pool.unbound = [])
    (warnings : Array Warning) :
    ∃ bound, Relation.ReflTransGen BindStep pool bound ∧
      (∀ cell, ((PoolOp.finalize warnings).apply pool).binding? cell = bound.binding? cell) ∧
      ((PoolOp.finalize warnings).apply pool).slots.size = bound.slots.size ∧
      ((PoolOp.finalize warnings).apply pool).order = bound.order ∧
      ((PoolOp.finalize warnings).apply pool).byValue = bound.byValue ∧
      ((PoolOp.finalize warnings).apply pool).byContent = bound.byContent := by
  obtain ⟨bound, hsteps, hsame, hcompletes | ⟨heq, -⟩⟩ := h.exists_completes warnings
  · refine ⟨bound, hsteps, fun cell => hcompletes.binding?_eq fun index position hcell => ?_, hcompletes.size,
      hcompletes.order, hcompletes.byValue, hcompletes.byContent⟩
    have hmem : (⟨cell, index, position⟩ : Reference) ∈ bound.unbound := mem_unbound_iff.2 hcell
    rw [hsame, hunbound] at hmem
    cases hmem
  · rw [heq]
    exact ⟨bound, hsteps, fun _ => rfl, rfl, rfl, rfl, rfl⟩

/-- Without references, finalizing binds promises and numbers entries. -/
theorem Faithful.finalize (h : pool.Faithful) (hvalid : pool.Valid references) (hunbound : pool.unbound = [])
    (warnings : Array Warning) : Continues pool ((PoolOp.finalize warnings).apply pool) := by
  obtain ⟨bound, hsteps, hbinding, hsize, horder, hvalue, hcontent⟩ := hvalid.exists_bound_of_unbound hunbound warnings
  have hbound := h.bindSteps hsteps
  exact hbound.trans (hbound.faithful.congr hbinding hsize horder hvalue hcontent)

end JvmAssembler.Pool
