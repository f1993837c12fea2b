import JvmAssembler.Proofs.Pool.History

/-!
# Finalized pools

In a pool that operations lead to and that is finalized, the entries have consecutive indices, every cell has an
index, and a reference has the index that it was asked for by (`Valid.indexed`).
-/

namespace JvmAssembler.Pool

variable {pool : Pool} {references : List Reference} {table : OffsetTable Cell}

/-- The constants of a pool have their indices, one after the other, and so has every cell: a reference has the
index that it was asked for by. -/
structure Indexed (pool : Pool) (values : List (Constant Cell)) (references : List Reference) : Prop where
  entries : pool.entries = numbered values
  indexOf : ∀ cell, cell.id < pool.slots.size → ∃ index, pool.indexOf cell = .ok index
  reference : ∀ reference ∈ references, pool.indexOf reference.cell = .ok reference.index.toNat

namespace Valid

theorem index_le (h : pool.Valid references) (hlayout : pool.layout = some table) {index : Nat} {cell : Cell}
    (hplace : (index, cell) ∈ pool.places) : index ≤ indexLimit := by
  have hsettled := h.settled table hlayout
  have hnext := hsettled.next_le
  rw [hsettled.table_eq, numbering_eq, OffsetTable.ofList_next] at hnext
  exact Nat.le_trans (OffsetTable.le_of_mem_placed hplace) hnext

theorem exists_number? (h : pool.Valid references) (hlayout : pool.layout = some table) {cell : Cell}
    (hcell : pool.Owns cell) : ∃ index, pool.number? cell = some index ∧ index ≤ indexLimit := by
  by_cases hzero : cell = .zero
  · exact ⟨0, by rw [hzero, h.zero_number], Nat.zero_le _⟩
  · have hmem : cell ∈ pool.order.toList := (h.wellBound.mem_order cell).2 ⟨hzero, hcell⟩
    rw [← map_snd_places] at hmem
    obtain ⟨⟨index, c⟩, hplace, rfl⟩ := List.mem_map.1 hmem
    exact ⟨index, (h.settled table hlayout).number index c hplace, h.index_le hlayout hplace⟩

theorem exists_indexOf (h : pool.Valid references) (hlayout : pool.layout = some table) {cell : Cell}
    (hcell : cell.id < pool.slots.size) : ∃ index, pool.indexOf cell = .ok index ∧ index ≤ indexLimit := by
  have howns := (h.settled table hlayout).canonical_owns h.wellBound hcell
  obtain ⟨index, hindex, hle⟩ := h.exists_number? hlayout howns
  exact ⟨index, indexOf_of_canonical rfl howns hindex, hle⟩

theorem indexOf_of_mem_places (h : pool.Valid references) (hlayout : pool.layout = some table) {index : Nat}
    {cell : Cell} (hplace : (index, cell) ∈ pool.places) : pool.indexOf cell = .ok index := by
  have howns := ((h.wellBound.mem_order cell).1 (mem_order_of_mem_places hplace)).2
  exact indexOf_of_canonical (canonical_of_owns howns) howns ((h.settled table hlayout).number index cell hplace)

theorem indexOf_reference (h : pool.Valid references) (hlayout : pool.layout = some table) {reference : Reference}
    (hr : reference ∈ references) : pool.indexOf reference.cell = .ok reference.index.toNat := by
  have hsettled := h.settled table hlayout
  rcases h.bound reference hr with hunbound | ⟨target, hcell, htarget⟩
  · have hindexed := mem_unbound_iff.1 hunbound
    rcases hsettled.bound _ _ hindexed with ⟨value, hvalue⟩ | ⟨target, htarget⟩
    · rw [hindexed] at hvalue
      cases hvalue
    · cases htarget
  · have hcanonical := canonical_of_alias h.wellBound hcell
    refine indexOf_of_canonical hcanonical (h.wellBound.alias_owns _ _ hcell) ?_
    rcases target?_numbering.1 htarget with ⟨hzero, rfl⟩ | ⟨-, hplace⟩
    · rw [h.zero_number, hzero]
      rfl
    · exact hsettled.number _ _ hplace

theorem entries_eq (h : pool.Valid references) (hlayout : pool.layout = some table) :
    pool.entries = numbered pool.constants := by
  rw [entries, ← map_snd_places, List.filterMap_map, h.wellBound.numbered_constants]
  refine List.filterMap_congr fun ⟨index, cell⟩ hplace => ?_
  simp only [Function.comp_apply, h.indexOf_of_mem_places hlayout hplace]
  cases pool.get? cell <;> rfl

theorem map_snd_entries (h : pool.Valid references) (hlayout : pool.layout = some table) :
    pool.entries.map (·.2) = pool.constants := by
  rw [h.entries_eq hlayout, map_snd_numbered]

/-- In a finalized pool everything has its index. -/
theorem indexed (h : pool.Valid references) (hlayout : pool.layout = some table) :
    pool.Indexed pool.constants references where
  entries := h.entries_eq hlayout
  indexOf _ hcell := (h.exists_indexOf hlayout hcell).imp fun _ hindex => hindex.1
  reference _ hr := h.indexOf_reference hlayout hr

end Valid

end JvmAssembler.Pool
