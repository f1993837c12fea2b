import JvmAssembler.Proofs.OffsetTable
import JvmAssembler.Proofs.Pool.Resolve
import Mathlib.Data.List.Basic

/-!
# The numbers of entries

Entries are numbered from 1 on, each by the widths of those before it. The numbers depend on the order of the
entries and on their widths only, so that they do not change when entries are added behind (`WellBound.places_append`).
-/

namespace JvmAssembler.Pool

variable {pool pool' : Pool}

/-- The constants of the entries, in order. -/
def constants (pool : Pool) : List (Constant Cell) := pool.order.toList.filterMap pool.get?

/-- Constants with their indices. -/
def numbered (values : List (Constant Cell)) : List (Nat × Constant Cell) :=
  OffsetTable.placed 1 (values.map fun value => (value.width, value))

/-- The cells of the entries, each with the width of its entry. -/
def widths (pool : Pool) : List (Nat × Cell) := pool.order.toList.map fun cell => (pool.entryWidth cell, cell)

/-- The cells of the entries, each with the index of its entry. -/
def places (pool : Pool) : List (Nat × Cell) := OffsetTable.placed 1 pool.widths

theorem width_pos {ref : Type} (value : Constant ref) : 0 < value.width := by
  cases value <;> exact Nat.succ_pos _

theorem entryWidth_eq (pool : Pool) (cell : Cell) :
    pool.entryWidth cell = match pool.binding? cell with
      | some (.owned value) => value.width
      | _ => 1 := by
  rw [entryWidth, binding?]
  cases pool.slot? cell with
  | none => rfl
  | some slot =>
    obtain ⟨binding, index, rank⟩ := slot
    cases binding <;> rfl

theorem widths_pos {item : Nat × Cell} (h : item ∈ pool.widths) : 0 < item.1 := by
  obtain ⟨cell, -, rfl⟩ := List.mem_map.1 h
  simp only [entryWidth_eq]
  split
  · exact width_pos _
  · exact Nat.one_pos

theorem numbering_eq (pool : Pool) : pool.numbering = OffsetTable.ofList 1 pool.widths := by
  rw [numbering, OffsetTable.ofList, widths, List.foldl_map, ← Array.foldl_toList]

theorem numbering_entries (pool : Pool) : pool.numbering.entries.toList = pool.places := by
  rw [numbering_eq, OffsetTable.ofList_entries, places]

theorem value?_lookup_numbering {index : Nat} {cell : Cell} :
    (pool.numbering.lookup index).value? = some cell ↔ (index, cell) ∈ pool.places := by
  rw [numbering_eq, OffsetTable.value?_lookup_iff fun item => widths_pos, places]

theorem map_snd_places (pool : Pool) : pool.places.map (·.2) = pool.order.toList := by
  rw [places, OffsetTable.map_snd_placed, widths, List.map_map]
  exact List.map_id _

theorem map_snd_numbered (values : List (Constant Cell)) : (numbered values).map (·.2) = values := by
  rw [numbered, OffsetTable.map_snd_placed, List.map_map]
  exact List.map_id _

theorem mem_order_of_mem_places {index : Nat} {cell : Cell} (h : (index, cell) ∈ pool.places) :
    cell ∈ pool.order.toList := by
  rw [← map_snd_places]
  exact List.mem_map_of_mem h

/-! ### In a well bound pool -/

theorem WellBound.get?_of_mem_order (h : pool.WellBound) {cell : Cell} (hcell : cell ∈ pool.order.toList) :
    ∃ value, pool.get? cell = some value ∧ pool.binding? cell = some (.owned value) := by
  obtain ⟨-, value, hvalue⟩ := (h.mem_order cell).1 hcell
  exact ⟨value, get?_of_owned hvalue, hvalue⟩

/-- The numbers of the cells are those of their constants. -/
theorem WellBound.numbered_constants (h : pool.WellBound) :
    numbered pool.constants = pool.places.filterMap fun (index, cell) => (pool.get? cell).map (index, ·) := by
  have hgeneral : ∀ (cells : List Cell) (start : Nat), (∀ cell ∈ cells, cell ∈ pool.order.toList) →
      OffsetTable.placed start ((cells.filterMap pool.get?).map fun value => (value.width, value)) =
        (OffsetTable.placed start (cells.map fun cell => (pool.entryWidth cell, cell))).filterMap
          fun (index, cell) => (pool.get? cell).map (index, ·) := by
    intro cells
    induction cells with
    | nil => exact fun _ _ => rfl
    | cons cell cells ih =>
      intro start hcells
      obtain ⟨value, hget, hbinding⟩ := h.get?_of_mem_order (hcells cell (by simp))
      have hwidth : pool.entryWidth cell = value.width := by rw [entryWidth_eq, hbinding]
      have hrest := ih (start + value.width) fun c hc => hcells c (by simp [hc])
      simp only [List.filterMap_cons, hget, List.map_cons, OffsetTable.placed, Option.map_some, hwidth, hrest]
  exact hgeneral pool.order.toList 1 fun _ hc => hc

theorem WellBound.numbering_next (h : pool.WellBound) :
    pool.numbering.next = 1 + total Constant.width pool.constants := by
  have hgeneral : ∀ cells : List Cell, (∀ cell ∈ cells, cell ∈ pool.order.toList) →
      total Prod.fst (cells.map fun cell => (pool.entryWidth cell, cell)) =
        total Constant.width (cells.filterMap pool.get?) := by
    intro cells
    induction cells with
    | nil => exact fun _ => rfl
    | cons cell cells ih =>
      intro hcells
      obtain ⟨value, hget, hbinding⟩ := h.get?_of_mem_order (hcells cell (by simp))
      have hwidth : pool.entryWidth cell = value.width := by rw [entryWidth_eq, hbinding]
      have hrest := ih fun c hc => hcells c (by simp [hc])
      rw [List.map_cons, total_cons, hrest, hwidth, List.filterMap_cons_some hget, total_cons]
  rw [numbering_eq, OffsetTable.ofList_next, widths, hgeneral pool.order.toList fun _ hc => hc, constants]

/-- Whether an index is the index of an entry can be read off the constants. -/
theorem WellBound.mem_numbered_iff (h : pool.WellBound) {index : Nat} :
    index ∈ (numbered pool.constants).map (·.1) ↔ ∃ cell, (index, cell) ∈ pool.places := by
  rw [h.numbered_constants]
  constructor
  · intro hmem
    obtain ⟨⟨i, value⟩, hvalue, rfl⟩ := List.mem_map.1 hmem
    obtain ⟨⟨j, cell⟩, hplace, heq⟩ := List.mem_filterMap.1 hvalue
    obtain ⟨v, -, heq⟩ := Option.map_eq_some_iff.1 heq
    obtain ⟨rfl, rfl⟩ := Prod.mk.inj heq
    exact ⟨cell, hplace⟩
  · rintro ⟨cell, hplace⟩
    obtain ⟨value, hget, -⟩ := h.get?_of_mem_order (mem_order_of_mem_places hplace)
    refine List.mem_map.2 ⟨(index, value), List.mem_filterMap.2 ⟨(index, cell), hplace, ?_⟩, rfl⟩
    simp only [hget, Option.map_some]

/-! ### More entries -/

private theorem WellBound.widths_append (h : pool.WellBound) {added : List Cell}
    (horder : pool'.order.toList = pool.order.toList ++ added)
    (hkeep : ∀ cell value, pool.binding? cell = some (.owned value) → pool'.binding? cell = some (.owned value)) :
    pool'.widths = pool.widths ++ added.map fun cell => (pool'.entryWidth cell, cell) := by
  have hwidth : ∀ cell ∈ pool.order.toList, pool'.entryWidth cell = pool.entryWidth cell := by
    intro cell hcell
    obtain ⟨value, -, hvalue⟩ := h.get?_of_mem_order hcell
    rw [entryWidth_eq, entryWidth_eq, hkeep cell value hvalue, hvalue]
  rw [widths, horder, List.map_append, widths]
  congr 1
  exact List.map_congr_left fun cell hcell => by rw [hwidth cell hcell]

/-- The numbers of entries stay when entries are added behind them. -/
theorem WellBound.places_append (h : pool.WellBound) {added : List Cell}
    (horder : pool'.order.toList = pool.order.toList ++ added)
    (hkeep : ∀ cell value, pool.binding? cell = some (.owned value) → pool'.binding? cell = some (.owned value)) :
    ∃ more, pool'.places = pool.places ++ more := by
  rw [places, h.widths_append horder hkeep, OffsetTable.placed_append]
  exact ⟨_, rfl⟩

/-- The numbering depends on the entries only. -/
theorem WellBound.numbering_congr (h : pool.WellBound) (horder : pool'.order = pool.order)
    (hkeep : ∀ cell value, pool.binding? cell = some (.owned value) → pool'.binding? cell = some (.owned value)) :
    pool'.numbering = pool.numbering := by
  have hwidths := h.widths_append (show _ = _ ++ [] by rw [horder, List.append_nil]) hkeep
  rw [List.map_nil, List.append_nil] at hwidths
  rw [numbering_eq, hwidths, numbering_eq]

theorem places_congr (hnumbering : pool'.numbering = pool.numbering) : pool'.places = pool.places := by
  rw [← numbering_entries, hnumbering, numbering_entries]

theorem WellBound.constants_congr (h : pool.WellBound) (horder : pool'.order = pool.order)
    (hkeep : ∀ cell value, pool.binding? cell = some (.owned value) → pool'.binding? cell = some (.owned value)) :
    pool'.constants = pool.constants := by
  rw [constants, constants, horder]
  refine List.filterMap_congr fun cell hcell => ?_
  obtain ⟨value, hget, hvalue⟩ := h.get?_of_mem_order hcell
  rw [hget, get?_of_owned (hkeep cell value hvalue)]

/-! ### Giving out the numbers -/

private theorem map_getElem?_assign {α : Type} {f : Slot → α} (hf : ∀ slot index, f { slot with index } = f slot)
    (items : List (Nat × Cell)) (slots : Array Slot) (i : Nat) :
    (items.foldl (fun slots item => slots.modify item.2.id fun slot => { slot with index := some item.1 })
      slots)[i]?.map f = slots[i]?.map f := by
  induction items generalizing slots with
  | nil => rfl
  | cons item items ih =>
    rw [List.foldl_cons, ih, Array.getElem?_modify]
    split
    · rw [Option.map_map]
      exact congrArg (Option.map · slots[i]?) (funext fun slot => hf slot _)
    · rfl

private theorem getElem?_assign_of_notMem {items : List (Nat × Cell)} {i : Nat} (h : ∀ item ∈ items, item.2.id ≠ i)
    (slots : Array Slot) :
    (items.foldl (fun slots item => slots.modify item.2.id fun slot => { slot with index := some item.1 })
      slots)[i]? = slots[i]? := by
  induction items generalizing slots with
  | nil => rfl
  | cons item items ih =>
    rw [List.foldl_cons, ih (fun x hx => h x (by simp [hx])), Array.getElem?_modify, if_neg (h item (by simp))]

private theorem getElem?_assign_of_mem {items : List (Nat × Cell)} (hdistinct : items.Pairwise (·.2.id ≠ ·.2.id))
    {item : Nat × Cell} (h : item ∈ items) (slots : Array Slot) :
    (items.foldl (fun slots item => slots.modify item.2.id fun slot => { slot with index := some item.1 })
      slots)[item.2.id]? = slots[item.2.id]?.map fun slot => { slot with index := some item.1 } := by
  induction items generalizing slots with
  | nil => cases h
  | cons first items ih =>
    obtain ⟨hfirst, hrest⟩ := List.pairwise_cons.1 hdistinct
    rw [List.foldl_cons]
    rcases List.mem_cons.1 h with rfl | h
    · rw [getElem?_assign_of_notMem fun x hx => Ne.symm (hfirst x hx), Array.getElem?_modify, if_pos rfl]
    · rw [ih hrest h, Array.getElem?_modify, if_neg (hfirst item h)]

theorem assignIndices_slots (pool : Pool) :
    (pool.assignIndices pool.numbering).slots = pool.places.foldl
      (fun slots item => slots.modify item.2.id fun slot => { slot with index := some item.1 }) pool.slots := by
  rw [assignIndices, ← numbering_entries, Array.foldl_toList]

@[simp] theorem size_slots_assignIndices (pool : Pool) :
    (pool.assignIndices pool.numbering).slots.size = pool.slots.size := by
  rw [assignIndices_slots]
  generalize pool.slots = slots
  induction pool.places generalizing slots with
  | nil => rfl
  | cons item items ih => rw [List.foldl_cons, ih, Array.size_modify]

/-- Giving out the numbers changes nothing else. -/
theorem map_slot?_assignIndices {α : Type} {f : Slot → α} (hf : ∀ slot index, f { slot with index } = f slot)
    (pool : Pool) (cell : Cell) :
    ((pool.assignIndices pool.numbering).slot? cell).map f = (pool.slot? cell).map f := by
  rw [slot?, assignIndices_slots, map_getElem?_assign hf, slot?]

@[simp] theorem binding?_assignIndices (pool : Pool) (cell : Cell) :
    (pool.assignIndices pool.numbering).binding? cell = pool.binding? cell :=
  map_slot?_assignIndices (fun _ _ => rfl) pool cell

theorem number?_assignIndices_of_notMem {cell : Cell} (h : cell ∉ pool.order.toList) :
    (pool.assignIndices pool.numbering).number? cell = pool.number? cell := by
  have hid : ∀ item ∈ pool.places, item.2.id ≠ cell.id := by
    rintro ⟨index, c⟩ hitem heq
    obtain rfl : c = cell := by
      obtain ⟨i⟩ := c
      obtain ⟨j⟩ := cell
      exact congrArg Cell.mk heq
    exact h (mem_order_of_mem_places hitem)
  rw [number?, slot?, assignIndices_slots, getElem?_assign_of_notMem hid, number?, slot?]

theorem WellBound.number?_assignIndices (h : pool.WellBound) {index : Nat} {cell : Cell}
    (hplace : (index, cell) ∈ pool.places) : (pool.assignIndices pool.numbering).number? cell = some index := by
  have hdistinct : pool.places.Pairwise (·.2.id ≠ ·.2.id) := by
    have hsorted := h.sorted
    rw [← map_snd_places, List.pairwise_map] at hsorted
    exact hsorted.imp fun hlt => Nat.ne_of_lt hlt
  obtain ⟨value, -, hbinding⟩ := h.get?_of_mem_order (mem_order_of_mem_places hplace)
  obtain ⟨rank, hslot⟩ := slot?_eq_of_binding? hbinding
  rw [slot?] at hslot
  have hassign := getElem?_assign_of_mem hdistinct hplace pool.slots
  rw [number?, slot?, assignIndices_slots, hassign, hslot]
  rfl

theorem WellBound.assignIndices (h : pool.WellBound) : (pool.assignIndices pool.numbering).WellBound :=
  h.congr (binding?_assignIndices pool) rfl rfl rfl

theorem WellBound.numbering_assignIndices (h : pool.WellBound) :
    (pool.assignIndices pool.numbering).numbering = pool.numbering :=
  h.numbering_congr rfl fun cell value hcell => by rw [binding?_assignIndices, hcell]

end JvmAssembler.Pool
