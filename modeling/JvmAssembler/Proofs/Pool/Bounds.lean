import JvmAssembler.Proofs.Pool.History

/-!
# Bounds that pools keep

Operations never take a cell back, and give no index above the limit, whether they succeed or fail
(`Valid.grows`). So in every pool that operations lead to, the indices fit two bytes, and the bootstrap methods are
made of cells of the pool (`Reached.inBounds`).
-/

namespace JvmAssembler

/-- The cells that a bootstrap method is made of. -/
def Bootstrap.cells (method : Bootstrap) : List Cell := method.handle :: method.arguments

namespace Pool

variable {pool pool' : Pool} {references : List Reference}

/-- What an operation may do to the cells, the indices and the bootstrap methods of a pool. -/
structure Grows (pool pool' : Pool) : Prop where
  size_le : pool.slots.size ≤ pool'.slots.size
  number : ∀ cell index, pool'.number? cell = some index → pool.number? cell = some index ∨ index ≤ indexLimit
  bootstraps : ∀ method ∈ pool'.bootstraps.toList, method ∈ pool.bootstraps.toList ∨
    ∀ cell ∈ method.cells, cell.id < pool.slots.size

theorem Grows.of_eq (hsize : pool.slots.size ≤ pool'.slots.size)
    (hnumber : ∀ cell, pool'.number? cell = pool.number? cell) (hbootstraps : pool'.bootstraps = pool.bootstraps) :
    Grows pool pool' :=
  ⟨hsize, fun cell _ h => .inl (hnumber cell ▸ h), fun _ h => .inl (hbootstraps ▸ h)⟩

theorem Grows.refl (pool : Pool) : Grows pool pool := .of_eq (Nat.le_refl _) (fun _ => rfl) rfl

theorem Grows.of_extends (h : Extends pool pool') : Grows pool pool' := .of_eq h.size_le h.number h.bootstraps

theorem Grows.pushSlot (pool : Pool) (binding : Binding) : Grows pool (pool.pushSlot binding) :=
  .of_eq (by rw [size_slots_pushSlot]; omega) (number?_pushSlot pool binding) rfl

/-! ### The operations one by one -/

theorem grows_intern (value : Constant Cell) : Grows pool (PoolOp.left (Pool.intern value pool)) := by
  rcases left_intern_cases value pool with heq | ⟨-, -, -, heq⟩ <;> rw [heq]
  · exact .refl pool
  · exact .of_eq (by rw [size_slots_addEntry]; omega) (number?_addEntry pool value) rfl

theorem grows_reference (index : UInt16) (position : Nat) :
    Grows pool (PoolOp.left (Pool.reference index position pool)) := by
  rw [Pool.reference]
  split
  · exact .refl pool
  · exact .pushSlot pool _

theorem grows_promise (tag : Tag) (name : Cell) : Grows pool (PoolOp.left (Pool.promise tag name pool)) := by
  rw [Pool.promise]
  split
  · exact .refl pool
  · split
    · exact .refl pool
    · exact .pushSlot pool _

theorem Valid.grows_resolve (h : pool.Valid references) {cell : Cell} (hcell : cell.id < pool.slots.size) :
    Grows pool (PoolOp.left (Pool.resolve cell pool)) := by
  cases hlayout : pool.layout with
  | none =>
    rcases resolve_spec h.wellBound hlayout hcell with ⟨target, pool', hrun, hresolves⟩ | ⟨pool', hrun, -, hextends⟩
    · rw [hrun]
      exact .of_extends hresolves.extends_
    · rw [hrun]
      exact .of_extends hextends
  | some table =>
    rw [h.resolve_of_settled hlayout hcell]
    exact .refl pool

theorem grows_bootstrap {handle : Cell} {arguments : List Cell}
    (hcells : ∀ cell ∈ handle :: arguments, cell.id < pool.slots.size) :
    Grows pool (PoolOp.left (Pool.bootstrap handle arguments pool)) := by
  rw [Pool.bootstrap]
  simp only
  split
  · exact .refl pool
  · split
    · exact .refl pool
    · split
      · refine ⟨Nat.le_refl _, fun _ _ h => .inl h, fun method hmethod => ?_⟩
        rw [PoolOp.left, Array.toList_push, List.mem_append, List.mem_singleton] at hmethod
        rcases hmethod with hmethod | rfl
        · exact .inl hmethod
        · exact .inr hcells
      · exact .refl pool

theorem WellBound.number?_assignIndices_le (h : pool.WellBound)
    (hlimit : 1 + total Constant.width pool.constants ≤ indexLimit)
    {cell : Cell} {index : Nat} (hindex : (pool.assignIndices pool.numbering).number? cell = some index) :
    pool.number? cell = some index ∨ index ≤ indexLimit := by
  by_cases hmem : cell ∈ pool.order.toList
  · rw [← map_snd_places] at hmem
    obtain ⟨⟨i, c⟩, hplace, rfl⟩ := List.mem_map.1 hmem
    obtain rfl : i = index := Option.some.inj ((h.number?_assignIndices hplace).symm.trans hindex)
    have hle : i ≤ pool.numbering.next := by
      rw [numbering_eq, OffsetTable.ofList_next]
      exact OffsetTable.le_of_mem_placed hplace
    rw [h.numbering_next] at hle
    exact .inr (Nat.le_trans hle hlimit)
  · rw [number?_assignIndices_of_notMem hmem] at hindex
    exact .inl hindex

/-- A failure to finalize may come after the indices are given out, but not if there are too many. -/
theorem Valid.grows_finalize (h : pool.Valid references) (warnings : Array Warning) :
    Grows pool (PoolOp.left (Pool.finalize ⟨pool, warnings⟩)).state := by
  cases hfinal : pool.isFinalized with
  | true =>
    have hrun : Pool.finalize ⟨pool, warnings⟩ = .ok () ⟨pool, warnings⟩ := by
      simp only [Pool.finalize, hfinal, ↓reduceIte]
    rw [hrun]
    exact .refl pool
  | false =>
    rcases bindPromises_spec h.wellBound (layout_eq_none hfinal) with ⟨bound, hpromises, hwell, hextends, -⟩ |
      ⟨left, hpromises, -, hextends⟩
    swap
    · rw [finalize_of_endless hfinal hpromises]
      exact .of_extends hextends
    have hresult := Pool.finalize_spec hfinal hpromises hwell warnings
    have hbound : Grows pool bound := .of_extends hextends
    have hassigned : ∀ {final : Pool}, 1 + total Constant.width bound.constants ≤ indexLimit →
        Points bound.numbering (bound.assignIndices bound.numbering) final → Grows pool final := by
      intro final hlimit hpoints
      refine ⟨?_, fun cell index hindex => ?_, fun method hmethod => ?_⟩
      · rw [hpoints.size, size_slots_assignIndices]
        exact hextends.size_le
      · rw [hpoints.number] at hindex
        rw [← hextends.number]
        exact hwell.number?_assignIndices_le hlimit hindex
      · rw [hpoints.bootstraps] at hmethod
        exact hbound.bootstraps method hmethod
    cases hobstacle : obstacle? bound.constants bound.bootstraps.size bound.unbound with
    | some e =>
      rw [hobstacle] at hresult
      obtain ⟨start, s', hrun, rfl | ⟨hlimit, rfl⟩, hpoints⟩ := hresult
      · rw [hrun]
        refine ⟨hpoints.size ▸ hbound.size_le, fun cell index hindex => ?_, fun method hmethod => ?_⟩
        · exact hbound.number cell index (hpoints.number cell ▸ hindex)
        · rw [PoolOp.left, hpoints.bootstraps] at hmethod
          exact hbound.bootstraps method hmethod
      · rw [hrun]
        exact hassigned hlimit hpoints
    | none =>
      rw [hobstacle] at hresult
      obtain ⟨final, hrun, hpoints, -⟩ := hresult
      have hfinal' := hassigned (obstacle?_eq_none_iff.1 hobstacle).1 hpoints
      rw [hrun]
      exact ⟨hfinal'.size_le, hfinal'.number, hfinal'.bootstraps⟩

/-- What one operation does to a pool. -/
theorem Valid.grows (h : pool.Valid references) {op : PoolOp} (hcells : ∀ cell ∈ op.cells, cell.id < pool.slots.size) :
    Grows pool (op.apply pool) := by
  cases op with
  | intern value => exact grows_intern value
  | reference index position => exact grows_reference index position
  | promise tag name => exact grows_promise tag name
  | resolve cell => exact h.grows_resolve (hcells cell (by simp [PoolOp.cells]))
  | setRank cell rank =>
    exact .of_eq (Nat.le_of_eq (size_slots_setRank pool cell rank).symm) (number?_setRank pool cell rank) rfl
  | bootstrap handle arguments => exact grows_bootstrap hcells
  | finalize warnings => exact h.grows_finalize warnings

/-! ### All operations -/

/-- No index is above the limit, and bootstrap methods are made of cells of the pool. -/
structure InBounds (pool : Pool) : Prop where
  number_le : ∀ cell index, pool.number? cell = some index → index ≤ indexLimit
  bootstrap_lt : ∀ method ∈ pool.bootstraps.toList, ∀ cell ∈ method.cells, cell.id < pool.slots.size

theorem InBounds.empty : Pool.empty.InBounds where
  number_le cell index h := by
    obtain ⟨id⟩ := cell
    cases id with
    | zero =>
      obtain rfl : 0 = index := Option.some.inj h
      exact Nat.zero_le _
    | succ id => cases h
  bootstrap_lt method h := by cases h

theorem InBounds.of_grows (h : pool.InBounds) (hgrows : Grows pool pool') : pool'.InBounds where
  number_le cell index hindex := by
    rcases hgrows.number cell index hindex with hindex | hle
    · exact h.number_le cell index hindex
    · exact hle
  bootstrap_lt method hmethod cell hcell := by
    have hbefore : cell.id < pool.slots.size := by
      rcases hgrows.bootstraps method hmethod with hmethod | hcells
      · exact h.bootstrap_lt method hmethod cell hcell
      · exact hcells cell hcell
    exact Nat.lt_of_lt_of_le hbefore hgrows.size_le

theorem Reached.inBounds (h : Reached pool references) : pool.InBounds := by
  induction h with
  | empty => exact .empty
  | step op hreached hcells ih => exact ih.of_grows (hreached.valid.grows hcells)

theorem InBounds.indexOf_le (h : pool.InBounds) {cell : Cell} {index : Nat} (hindex : pool.indexOf cell = .ok index) :
    index ≤ indexLimit :=
  h.number_le _ index (indexOf_eq_ok_iff.1 hindex).2

end Pool

end JvmAssembler
