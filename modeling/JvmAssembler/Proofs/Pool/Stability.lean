import JvmAssembler.Pool.Encode
import JvmAssembler.Proofs.Pool.Change

/-!
# Indices stay

Every attempt to finalize a pool numbers its entries anew, and a failed one leaves the numbers behind. They are the
same every time, because entries are added behind the others only: the indices given out so far are those that the
numbering gives (`Numbered`). So no operation takes an index back or changes it. Once the pool is finalized,
nothing is left that an operation could change but ranks (`SameButRanks`), and they are not written.
-/

namespace JvmAssembler.Pool

variable {pool pool' pool'' : Pool} {references : List Reference} {ops : List PoolOp}

/-! ### Ranks apart -/

/-- Pools with the same cells and entries, whose ranks may differ. -/
structure SameButRanks (pool pool' : Pool) : Prop where
  binding : ∀ cell, pool'.binding? cell = pool.binding? cell
  number : ∀ cell, pool'.number? cell = pool.number? cell
  tables : pool' = { pool with slots := pool'.slots }

theorem SameButRanks.refl (pool : Pool) : SameButRanks pool pool := ⟨fun _ => rfl, fun _ => rfl, rfl⟩

theorem SameButRanks.trans (h : SameButRanks pool pool') (h' : SameButRanks pool' pool'') :
    SameButRanks pool pool'' where
  binding cell := (h'.binding cell).trans (h.binding cell)
  number cell := (h'.number cell).trans (h.number cell)
  tables := by rw [h'.tables, h.tables]

theorem sameButRanks_setRank (pool : Pool) (cell : Cell) (rank : Rank) :
    SameButRanks pool (pool.setRank cell rank) :=
  ⟨binding?_setRank pool cell rank, number?_setRank pool cell rank, rfl⟩

theorem SameButRanks.order (h : SameButRanks pool pool') : pool'.order = pool.order := by rw [h.tables]

theorem SameButRanks.wellBound (h : SameButRanks pool pool') (hwell : pool.WellBound) : pool'.WellBound :=
  hwell.congr h.binding h.order (by rw [h.tables]) (by rw [h.tables])

theorem SameButRanks.canonical (h : SameButRanks pool pool') (hwell : pool.WellBound) (cell : Cell) :
    pool'.canonical cell = pool.canonical cell :=
  hwell.canonical_congr (h.wellBound hwell) (h.binding cell)

theorem SameButRanks.get? (h : SameButRanks pool pool') (hwell : pool.WellBound) (cell : Cell) :
    pool'.get? cell = pool.get? cell := by
  rw [get?_eq, h.canonical hwell, h.binding, get?_eq]

theorem SameButRanks.indexOf (h : SameButRanks pool pool') (hwell : pool.WellBound) (cell : Cell) :
    pool'.indexOf cell = pool.indexOf cell := by
  rw [indexOf_eq, h.canonical hwell, h.binding, h.number, indexOf_eq]

theorem SameButRanks.entries (h : SameButRanks pool pool') (hwell : pool.WellBound) :
    pool'.entries = pool.entries := by
  rw [Pool.entries, Pool.entries, h.order]
  simp only [h.indexOf hwell, h.get? hwell]

/-- Ranks are not written. -/
theorem SameButRanks.encode (h : SameButRanks pool pool') (hwell : pool.WellBound) : pool'.encode = pool.encode := by
  have hindexOf : pool'.indexOf = pool.indexOf := funext (h.indexOf hwell)
  have hentry : pool'.encodeEntry = pool.encodeEntry := by
    funext cell
    rw [encodeEntry, encodeEntry, h.get? hwell, hindexOf]
  have hlayout : pool'.layout = pool.layout := by rw [h.tables]
  rw [Pool.encode, Pool.encode, hlayout, hentry]

/-! ### Indices in open pools -/

/-- The indices given out so far are those that the numbering gives. -/
def Numbered (pool : Pool) : Prop :=
  ∀ cell index, pool.number? cell = some index → cell = .zero ∨ (index, cell) ∈ pool.places

theorem Numbered.empty : Pool.empty.Numbered := by
  rintro ⟨id⟩ index h
  cases id with
  | zero => exact .inl rfl
  | succ id => cases h

/-- The cells that stand for an entry go on to, and keep their indices. -/
structure Stays (pool pool' : Pool) : Prop where
  binding : ∀ cell binding, pool.binding? cell = some binding → binding.isPending = false →
    pool'.binding? cell = some binding
  number : ∀ cell index, pool.number? cell = some index → pool'.number? cell = some index

theorem Stays.refl (pool : Pool) : Stays pool pool := ⟨fun _ _ h _ => h, fun _ _ h => h⟩

theorem Stays.trans (h : Stays pool pool') (h' : Stays pool' pool'') : Stays pool pool'' where
  binding cell binding hcell hdecided := h'.binding cell binding (h.binding cell binding hcell hdecided) hdecided
  number cell index hindex := h'.number cell index (h.number cell index hindex)

/-- A change gives an entry the index that the numbering gives, or none. -/
theorem Change.number?_cases (h : Change pool pool') (hwell : pool.WellBound) (cell : Cell) :
    pool'.number? cell = pool.number? cell ∨
      ∃ index, (index, cell) ∈ pool.places ∧ pool'.number? cell = some index := by
  cases h with
  | push => exact .inl (number?_pushSlot pool _ cell)
  | add => exact .inl (number?_addEntry pool _ cell)
  | bind => exact .inl (number?_bind pool _ _ cell)
  | number =>
    by_cases hmem : cell ∈ pool.order.toList
    · rw [← map_snd_places] at hmem
      obtain ⟨⟨index, c⟩, hplace, rfl⟩ := List.mem_map.1 hmem
      exact .inr ⟨index, hplace, hwell.number?_assignIndices hplace⟩
    · exact .inl (number?_assignIndices_of_notMem hmem)
  | tables => exact .inl rfl

theorem Change.stays (h : Change pool pool') (hwell : pool.WellBound) (hnumbered : pool.Numbered) :
    Stays pool pool' ∧ pool'.Numbered := by
  refine ⟨⟨fun cell binding => h.binding?_eq, fun cell index hindex => ?_⟩, fun cell index hindex => ?_⟩
  · rcases h.number?_cases hwell cell with hsame | ⟨index', hplace', hindex'⟩
    · rw [hsame, hindex]
    · rcases hnumbered cell index hindex with rfl | hplace
      · exact absurd rfl ((hwell.mem_order .zero).1 (mem_order_of_mem_places hplace')).1
      · -- An entry has one place.
        have hone := (hwell.number?_assignIndices hplace').symm.trans (hwell.number?_assignIndices hplace)
        rw [hindex', hone]
  · obtain ⟨more, hmore⟩ := h.places_append hwell
    rw [hmore]
    rcases h.number?_cases hwell cell with hsame | ⟨index', hplace', hindex'⟩
    · exact (hnumbered cell index (hsame ▸ hindex)).imp_right (List.mem_append_left _)
    · obtain rfl := Option.some.inj (hindex'.symm.trans hindex)
      exact .inr (List.mem_append_left _ hplace')

theorem Changes.stays (h : Changes pool pool') (hwell : pool.WellBound) (hnumbered : pool.Numbered) :
    Stays pool pool' ∧ pool'.Numbered := by
  induction h with
  | refl => exact ⟨.refl pool, hnumbered⟩
  | tail hmid hstep ih =>
    obtain ⟨hstays, hnumbered'⟩ := hstep.stays (Changes.wellBound hmid hwell) ih.2
    exact ⟨ih.1.trans hstays, hnumbered'⟩

theorem SameButRanks.stays (h : SameButRanks pool pool') (hwell : pool.WellBound) (hnumbered : pool.Numbered) :
    Stays pool pool' ∧ pool'.Numbered := by
  refine ⟨⟨fun cell binding hcell _ => by rw [h.binding, hcell], fun cell index hindex => by rw [h.number, hindex]⟩,
    fun cell index hindex => ?_⟩
  rw [places_congr (hwell.numbering_congr h.order fun c value hc => by rw [h.binding, hc])]
  exact hnumbered cell index (h.number cell ▸ hindex)

theorem Valid.stays (h : pool.Valid references) (hnumbered : pool.Numbered) {op : PoolOp}
    (hcells : ∀ cell ∈ op.cells, cell.id < pool.slots.size) :
    Stays pool (op.apply pool) ∧ (op.apply pool).Numbered := by
  rcases h.apply_cases hcells with ⟨cell, rank, rfl⟩ | hchanges
  · exact (sameButRanks_setRank pool cell rank).stays h.wellBound hnumbered
  · exact hchanges.stays h.wellBound hnumbered

theorem Reached.numbered (h : Reached pool references) : pool.Numbered := by
  induction h with
  | empty => exact .empty
  | step op hreached hcells ih => exact (hreached.valid.stays ih hcells).2

theorem Leads.stays (h : Leads pool ops pool') (hvalid : pool.Valid references) (hnumbered : pool.Numbered) :
    Stays pool pool' ∧ pool'.Numbered := by
  induction h with
  | refl => exact ⟨.refl pool, hnumbered⟩
  | step op hleads hcells ih =>
    obtain ⟨more, hmid, -⟩ := hleads.valid hvalid
    obtain ⟨hstays, hnumbered'⟩ := hmid.stays ih.2 hcells
    exact ⟨ih.1.trans hstays, hnumbered'⟩

/-- A cell that stands for an entry stands for the same one later. -/
theorem Stays.canonical (h : Stays pool pool') (hwell : pool.WellBound) (hwell' : pool'.WellBound) {cell : Cell}
    (howns : pool.Owns (pool.canonical cell)) : pool'.canonical cell = pool.canonical cell := by
  by_cases halias : ∃ target, pool.binding? cell = some (.alias target)
  · obtain ⟨target, htarget⟩ := halias
    exact hwell.canonical_congr hwell' (by rw [h.binding cell _ htarget rfl, htarget])
  · obtain ⟨value, hvalue⟩ := howns
    have hself := canonical_of_not_alias fun target htarget => halias ⟨target, htarget⟩
    rw [hself] at hvalue
    exact hwell.canonical_congr hwell' (by rw [h.binding cell _ hvalue rfl, hvalue])

theorem Stays.get? (h : Stays pool pool') (hwell : pool.WellBound) (hwell' : pool'.WellBound) {cell : Cell}
    {value : Constant Cell} (hcell : pool.get? cell = some value) : pool'.get? cell = some value := by
  have hvalue := get?_eq_some_iff.1 hcell
  rw [get?_eq_some_iff, h.canonical hwell hwell' ⟨value, hvalue⟩]
  exact h.binding _ _ hvalue rfl

/-- What a cell stands for stays along with its index. -/
theorem Stays.indexOf (h : Stays pool pool') (hwell : pool.WellBound) (hwell' : pool'.WellBound) {cell : Cell}
    {index : Nat} (hindex : pool.indexOf cell = .ok index) :
    pool'.indexOf cell = .ok index ∧ pool'.get? cell = pool.get? cell := by
  obtain ⟨⟨value, howner⟩, hnumber⟩ := indexOf_eq_ok_iff.1 hindex
  have hcanonical := h.canonical hwell hwell' ⟨value, howner⟩
  refine ⟨indexOf_of_canonical hcanonical ⟨value, h.binding _ _ howner rfl⟩ (h.number _ _ hnumber), ?_⟩
  have hget := get?_eq_some_iff.2 howner
  rw [h.get? hwell hwell' hget, hget]

/-! ### Finalized pools -/

/-- Nothing is left to decide. -/
structure Closed (pool : Pool) : Prop where
  isFinalized : pool.isFinalized = true
  decided : ∀ cell binding, pool.binding? cell = some binding → binding.isPending = false

theorem Valid.closed (h : pool.Valid references) (hfinal : pool.isFinalized = true) : pool.Closed := by
  refine ⟨hfinal, fun cell binding hcell => ?_⟩
  obtain ⟨table, htable⟩ := Option.isSome_iff_exists.1 hfinal
  rcases (h.settled table htable).bound cell binding hcell with ⟨value, howned⟩ | ⟨target, rfl⟩
  · obtain rfl := Option.some.inj (hcell.symm.trans howned)
    rfl
  · rfl

theorem Closed.resolve (h : pool.Closed) (cell : Cell) : PoolOp.left (Pool.resolve cell pool) = pool := by
  have hpending : ∀ slot, pool.slot? (pool.canonical cell) = some slot → slot.binding.isPending = false := by
    intro slot hslot
    exact h.decided (pool.canonical cell) slot.binding (by rw [binding?, hslot]; rfl)
  rw [Pool.resolve, resolveWithin]
  simp only
  split
  · rfl
  · rfl
  · rfl
  · rename_i hslot
    cases hpending _ hslot
  · rename_i hslot
    cases hpending _ hslot

/-- An operation on a finalized pool may set a rank and does nothing else. -/
theorem Closed.apply (h : pool.Closed) (op : PoolOp) : SameButRanks pool (op.apply pool) := by
  have hfinal := h.isFinalized
  suffices hsame : (∃ cell rank, op = .setRank cell rank) ∨ op.apply pool = pool by
    rcases hsame with ⟨cell, rank, rfl⟩ | heq
    · exact sameButRanks_setRank pool cell rank
    · rw [heq]
      exact .refl pool
  cases op with
  | setRank cell rank => exact .inl ⟨cell, rank, rfl⟩
  | intern value => exact .inr ((left_intern_cases value pool).resolve_right (by simp [hfinal]))
  | reference index position =>
    exact .inr (by simp only [PoolOp.apply, Pool.reference, hfinal, ↓reduceIte, PoolOp.left])
  | promise tag name =>
    refine .inr ?_
    simp only [PoolOp.apply, Pool.promise, hfinal, ↓reduceIte]
    split <;> rfl
  | resolve cell => exact .inr (h.resolve cell)
  | bootstrap handle arguments =>
    refine .inr ?_
    simp only [PoolOp.apply, Pool.bootstrap, hfinal, ↓reduceIte]
    split <;> rfl
  | finalize warnings => exact .inr (by simp only [PoolOp.apply, Pool.finalize, hfinal, ↓reduceIte, PoolOp.left])

theorem SameButRanks.closed (h : SameButRanks pool pool') (hclosed : pool.Closed) : pool'.Closed where
  isFinalized := by
    rw [h.tables]
    exact hclosed.isFinalized
  decided cell binding hcell := hclosed.decided cell binding (h.binding cell ▸ hcell)

theorem Closed.foldl (h : pool.Closed) (ops : List PoolOp) : SameButRanks pool (ops.foldl PoolOp.apply pool) := by
  induction ops generalizing pool with
  | nil => exact .refl pool
  | cons op ops ih =>
    have hstep := h.apply op
    exact hstep.trans (ih (hstep.closed h))

/-! ### All operations -/

/-- The index of a cell and what the cell stands for never change once the cell has an index. Once a pool is
finalized, no operation changes anything that can be read of it except ranks. -/
theorem indexOf_stays (h : Reached pool references) :
    (∀ ops later, Leads pool ops later → ∀ cell index, pool.indexOf cell = .ok index →
      later.indexOf cell = .ok index ∧ later.get? cell = pool.get? cell) ∧
    ∀ warnings s, finalize ⟨pool, warnings⟩ = .ok () s → ∀ ops : List PoolOp,
      (∀ cell, (ops.foldl PoolOp.apply s.state).indexOf cell = s.state.indexOf cell ∧
        (ops.foldl PoolOp.apply s.state).get? cell = s.state.get? cell) ∧
      (ops.foldl PoolOp.apply s.state).entries = s.state.entries ∧
      (ops.foldl PoolOp.apply s.state).bootstraps = s.state.bootstraps ∧
      (ops.foldl PoolOp.apply s.state).encode = s.state.encode := by
  have hvalid := h.valid
  refine ⟨fun ops later hleads cell index hindex => ?_, fun warnings s hrun ops => ?_⟩
  · obtain ⟨more, hlater, -⟩ := hleads.valid hvalid
    exact (hleads.stays hvalid h.numbered).1.indexOf hvalid.wellBound hlater.wellBound hindex
  · have hfinal : s.state.Valid references := by
      have hleft := hvalid.finalize warnings
      rwa [hrun] at hleft
    have hwell := hfinal.wellBound
    have hsame := (hfinal.closed (isFinalized_of_finalize hrun)).foldl ops
    exact ⟨fun cell => ⟨hsame.indexOf hwell cell, hsame.get? hwell cell⟩, hsame.entries hwell, by rw [hsame.tables],
      hsame.encode hwell⟩

/-- What a failed attempt to finalize leaves of a pool with a constant of two indices and a reference to the index
behind them. -/
def attempted : Pool := (PoolOp.finalize #[]).apply ((PoolOp.reference 3 9).apply (Pool.empty.addEntry (.long 5)))

theorem reached_attempted : Reached attempted [⟨⟨2⟩, 3, 9⟩] := by
  have hfind : Pool.empty.find (.long 5) = .ok none := find_empty rfl
  have hlong : Reached (Pool.empty.addEntry (.long 5)) [] :=
    Reached.empty.addEntry rfl hfind (by simp) (by simp [Constant.refs])
  have hreference := Reached.step (.reference 3 9) hlong (by simp [PoolOp.cells])
  exact Reached.step (.finalize #[]) hreference (by simp [PoolOp.cells])

/-- An index that a failed attempt has given out stays in the pool that a later attempt finalizes, and that pool
stays as it is. -/
theorem indexOf_stays_attempted :
    Reached attempted [⟨⟨2⟩, 3, 9⟩] ∧ attempted.isFinalized = false ∧ attempted.indexOf ⟨1⟩ = .ok 1 ∧
      (∃ later, Leads attempted [.intern (.integer 7), .finalize #[]] later ∧
        later.indexOf ⟨1⟩ = .ok 1 ∧ later.get? ⟨1⟩ = some (.long 5)) ∧
      ∃ s, finalize ⟨attempted.addEntry (.integer 7), #[]⟩ = .ok () s ∧
        ([.setRank ⟨1⟩ .ldc, .reference 1 0].foldl PoolOp.apply s.state).encode = s.state.encode := by
  have hopen : attempted.isFinalized = false := rfl
  have hindex : attempted.indexOf ⟨1⟩ = .ok 1 := rfl
  have hfind : attempted.find (.integer 7) = .ok none := by
    have hvalue : attempted.byValue = Pool.empty.byValue.insert (.long 5) ⟨1⟩ := rfl
    have hcontent : attempted.contentOf (.integer 7) = .ok (some (.leaf (.integer 7))) := rfl
    have htable : attempted.byContent = Pool.empty.byContent.insert (.leaf (.long 5)) ⟨1⟩ := rfl
    exact find_eq_none (by simp [hvalue, Pool.empty]) hcontent (by simp [htable, Pool.empty])
  have hleads := (Leads.refl.addEntry hopen hfind (by simp) (by simp [Constant.refs])).step (.finalize #[])
    (by simp [PoolOp.cells])
  have hadded := reached_attempted.addEntry hopen hfind (by simp) (by simp [Constant.refs])
  obtain ⟨s, hrun⟩ : ∃ s, finalize ⟨attempted.addEntry (.integer 7), #[]⟩ = .ok () s := ⟨_, rfl⟩
  exact ⟨reached_attempted, hopen, hindex,
    ⟨_, hleads, (indexOf_stays reached_attempted).1 _ _ hleads ⟨1⟩ 1 hindex⟩,
    s, hrun, ((indexOf_stays hadded).2 #[] s hrun _).2.2.2⟩

end JvmAssembler.Pool
