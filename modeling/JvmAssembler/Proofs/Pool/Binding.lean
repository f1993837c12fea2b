import JvmAssembler.Pool.Finalize

/-!
# What the cells of a pool stand for

`binding?` and `number?` are what is known of a cell. `WellBound` holds of every pool that is built from the
empty one: cells that own an entry are those of the order of the pool, aliases lead to such cells in one step,
and entries and promises refer to earlier cells. Here it is shown for each of the changes that the operations
are made of.
-/

namespace JvmAssembler

/-- A loop begins with its first item and goes on with the others. -/
theorem forM_cons_run {ε σ ι : Type} (action : ι → EStateM ε σ Unit) (i : ι) (items : List ι) (s : σ) :
    (i :: items).forM action s = EStateM.bind (action i) (fun _ => items.forM action) s := rfl

@[simp] theorem Search.found?_andThen {α β : Type} (search : Search α) (next : α → Search β) :
    (search.andThen next).found? = search.found?.bind fun a => (next a).found? := by
  rcases search with e | a | a <;> rfl

theorem Search.found?_eq_some_iff {α : Type} {search : Search α} {a : α} :
    search.found? = some a ↔ search = .ok (some a) := by
  rcases search with e | _ | b <;> simp [found?]

theorem Search.andThen_eq_error_iff {α β : Type} {search : Search α} {next : α → Search β} {e : AssemblyError} :
    search.andThen next = .error e ↔ search = .error e ∨ ∃ a, search = .ok (some a) ∧ next a = .error e := by
  rcases search with e' | _ | a <;> simp [andThen]

theorem Search.andThen_ok_mono {α β : Type} {search search' : Search α} {next next' : α → Search β} {found : Option β}
    (h : search.andThen next = .ok found) (hsearch : ∀ a, search = .ok a → search' = .ok a)
    (hnext : ∀ a, next a = .ok found → next' a = .ok found) : search'.andThen next' = .ok found := by
  rcases search with e | _ | a
  · cases h
  · rw [hsearch none rfl]
    exact h
  · rw [hsearch (some a) rfl]
    exact hnext a h

namespace Constant

variable {value : Constant Cell} {inner inner' : Cell → Search Content}

theorem length_refs_le (value : Constant Cell) : value.refs.length ≤ 2 := by
  cases value <;> simp [refs]

/-- The search for the content of a constant fails where that for the content of a reference does, if the contents of
the references before it are known. -/
theorem content_eq_error_iff {e : AssemblyError} :
    value.content inner = .error e ↔ ∃ before ref after, value.refs = before ++ ref :: after ∧
      (∀ r ∈ before, ∃ x, inner r = .ok (some x)) ∧ inner ref = .error e := by
  have htwo := value.length_refs_le
  rw [content]
  generalize value.refs = refs at htwo ⊢
  rcases refs with _ | ⟨a, _ | ⟨b, rest⟩⟩
  · simp
  · simp only [Search.andThen_eq_error_iff, reduceCtorEq, and_false, exists_false, or_false]
    constructor
    · exact fun ha => ⟨[], a, [], rfl, by simp, ha⟩
    · rintro ⟨before, ref, after, heq, -, href⟩
      obtain ⟨rfl, rfl, rfl⟩ : before = [] ∧ a = ref ∧ after = [] := by
        rcases before with _ | ⟨c, before⟩ <;> simp_all
      exact href
  · simp only [Search.andThen_eq_error_iff, reduceCtorEq, and_false, exists_false, or_false]
    constructor
    · rintro (ha | ⟨x, ha, hb⟩)
      · exact ⟨[], a, b :: rest, rfl, by simp, ha⟩
      · exact ⟨[a], b, rest, rfl, by simp [ha], hb⟩
    · rintro ⟨before, ref, after, heq, hbefore, href⟩
      rcases before with _ | ⟨c, _ | ⟨d, before⟩⟩
      · obtain ⟨rfl, -⟩ := List.cons.inj heq
        exact .inl href
      · obtain ⟨rfl, rfl, -⟩ : a = c ∧ b = ref ∧ rest = after := by simpa using heq
        obtain ⟨x, hx⟩ := hbefore a (by simp)
        exact .inr ⟨x, hx, href⟩
      · have := congrArg List.length heq
        simp only [List.length_cons, List.cons_append, List.length_append] at this htwo
        omega

theorem content_congr (h : ∀ ref ∈ value.refs, inner ref = inner' ref) :
    value.content inner = value.content inner' := by
  rw [content, content]
  generalize value.refs = refs at h ⊢
  rcases refs with _ | ⟨a, _ | ⟨b, rest⟩⟩
  · rfl
  · simp only [h a (by simp)]
  · simp only [h a (by simp), h b (by simp)]

/-- A search that comes to an end depends only on those that do. -/
theorem content_ok_mono {found : Option Content} (h : value.content inner = .ok found)
    (hinner : ∀ ref found, inner ref = .ok found → inner' ref = .ok found) : value.content inner' = .ok found := by
  rw [content] at h ⊢
  generalize value.refs = refs at h ⊢
  rcases refs with _ | ⟨a, _ | ⟨b, rest⟩⟩
  · exact h
  · exact Search.andThen_ok_mono h (hinner a) fun _ hx => hx
  · exact Search.andThen_ok_mono h (hinner a) fun _ hx => Search.andThen_ok_mono hx (hinner b) fun _ hy => hy

end Constant

namespace Pool

variable {pool : Pool}

/-! ### Searches that come to an end -/

/-- The content of the entry that a cell stands for, if it is known. -/
def content? (pool : Pool) (cell : Cell) : Option Content := (pool.content cell).found?

/-- The cell that is found to own an entry equal to a constant. -/
def find? (pool : Pool) (value : Constant Cell) : Option Cell := (pool.find value).found?

theorem find?_eq (pool : Pool) (value : Constant Cell) :
    pool.find? value = match pool.byValue[value]? with
      | some cell => some cell
      | none => (pool.contentOf? value).bind (pool.byContent[·]?) := by
  rw [find?, find]
  cases pool.byValue[value]? with
  | some cell => rfl
  | none => exact Search.found?_andThen _ _

theorem find?_eq_some_iff {value : Constant Cell} {cell : Cell} :
    pool.find? value = some cell ↔ pool.find value = .ok (some cell) :=
  Search.found?_eq_some_iff

theorem find?_of_find {value : Constant Cell} {found : Option Cell} (h : pool.find value = .ok found) :
    pool.find? value = found := by
  rw [find?, h]
  rfl

/-- A search fails only if it has no end. -/
theorem contentWithin_error {fuel : Nat} {cell : Cell} {e : AssemblyError}
    (h : pool.contentWithin fuel cell = .error e) : e = .endless := by
  induction fuel generalizing cell with
  | zero => exact (Except.error.inj h).symm
  | succ fuel ih =>
    rw [contentWithin] at h
    split at h
    · obtain ⟨-, ref, -, -, -, href⟩ := Constant.content_eq_error_iff.1 h
      exact ih href
    · rcases Search.andThen_eq_error_iff.1 h with hname | ⟨x, -, hnext⟩
      · exact ih hname
      · cases hnext
    · cases h

theorem contentOf_error {value : Constant Cell} {e : AssemblyError} (h : pool.contentOf value = .error e) :
    e = .endless := by
  obtain ⟨-, ref, -, -, -, href⟩ := Constant.content_eq_error_iff.1 h
  exact contentWithin_error href

theorem find_eq_error {value : Constant Cell} {e : AssemblyError} (h : pool.find value = .error e) :
    e = .endless ∧ pool.byValue[value]? = none ∧ pool.contentOf value = .error .endless := by
  rw [find] at h
  split at h
  · cases h
  · rename_i hvalue
    rcases Search.andThen_eq_error_iff.1 h with hcontent | ⟨content, -, hnext⟩
    · obtain rfl := contentOf_error hcontent
      exact ⟨rfl, hvalue, hcontent⟩
    · cases hnext

/-- A constant that the pool does not have, by its references or by its content. -/
theorem find_eq_none {value : Constant Cell} {found : Option Content} (hvalue : pool.byValue[value]? = none)
    (hcontent : pool.contentOf value = .ok found)
    (htable : ∀ content, found = some content → pool.byContent[content]? = none) : pool.find value = .ok none := by
  rw [find, hvalue, hcontent]
  cases found with
  | none => rfl
  | some content => exact congrArg Except.ok (htable content rfl)

theorem find_empty {value : Constant Cell} (hrefs : value.refs = []) : Pool.empty.find value = .ok none := by
  have hcontent : Pool.empty.contentOf value = .ok (some (.leaf value.shape)) := by
    rw [contentOf, Constant.content, hrefs]
  exact find_eq_none (by simp [Pool.empty]) hcontent (by simp [Pool.empty])

/-! ### Cells -/

/-- What a cell stands for. -/
def binding? (pool : Pool) (cell : Cell) : Option Binding := (pool.slot? cell).map (·.binding)

/-- The index that a cell got. -/
def number? (pool : Pool) (cell : Cell) : Option Nat := (pool.slot? cell).bind (·.index)

theorem binding?_eq_none_iff {cell : Cell} : pool.binding? cell = none ↔ pool.slots.size ≤ cell.id := by
  rw [binding?, slot?, Option.map_eq_none_iff, Array.getElem?_eq_none_iff]

theorem exists_binding? {cell : Cell} (h : cell.id < pool.slots.size) : ∃ binding, pool.binding? cell = some binding :=
  ⟨pool.slots[cell.id].binding, by rw [binding?, slot?, Array.getElem?_eq_getElem h]; rfl⟩

theorem lt_of_binding? {cell : Cell} {binding : Binding} (h : pool.binding? cell = some binding) :
    cell.id < pool.slots.size := by
  by_cases hlt : cell.id < pool.slots.size
  · exact hlt
  · rw [binding?_eq_none_iff.2 (by omega)] at h
    cases h

theorem slot?_eq_of_binding? {cell : Cell} {binding : Binding} (h : pool.binding? cell = some binding) :
    ∃ rank, pool.slot? cell = some ⟨binding, pool.number? cell, rank⟩ := by
  rw [binding?] at h
  cases hslot : pool.slot? cell with
  | none =>
    rw [hslot] at h
    cases h
  | some slot =>
    obtain ⟨binding', index, rank⟩ := slot
    rw [hslot] at h
    obtain rfl : binding' = binding := Option.some.inj h
    refine ⟨rank, ?_⟩
    rw [number?, hslot]
    rfl

theorem layout_eq_none (h : pool.isFinalized = false) : pool.layout = none := by
  rw [isFinalized, Option.isSome_eq_false_iff] at h
  exact Option.isNone_iff_eq_none.1 h

/-! ### Changes of slots -/

theorem slot?_modifySlot (pool : Pool) (cell : Cell) (f : Slot → Slot) (c : Cell) :
    (pool.modifySlot cell f).slot? c = if c = cell then (pool.slot? c).map f else pool.slot? c := by
  obtain ⟨i⟩ := cell
  obtain ⟨j⟩ := c
  have hiff : (⟨j⟩ : Cell) = ⟨i⟩ ↔ i = j := by
    rw [Cell.mk.injEq]
    omega
  show (pool.slots.modify i f)[j]? = _
  rw [Array.getElem?_modify]
  simp only [hiff]
  rfl

/-- A change that leaves a slot as it is leaves all of them. -/
theorem modify_eq_self {slots : Array Slot} {i : Nat} {f : Slot → Slot}
    (h : ∀ slot, slots[i]? = some slot → f slot = slot) : slots.modify i f = slots := by
  refine Array.ext_getElem? fun j => ?_
  rw [Array.getElem?_modify]
  split
  · rename_i heq
    subst heq
    cases hslot : slots[i]? with
    | none => rfl
    | some slot => rw [Option.map_some, h slot hslot]
  · rfl

theorem size_slots_modifySlot (pool : Pool) (cell : Cell) (f : Slot → Slot) :
    (pool.modifySlot cell f).slots.size = pool.slots.size :=
  Array.size_modify

@[simp] theorem binding?_setRank (pool : Pool) (cell : Cell) (rank : Rank) (c : Cell) :
    (pool.setRank cell rank).binding? c = pool.binding? c := by
  rw [binding?, setRank, slot?_modifySlot, binding?]
  split
  · rw [Option.map_map]
    rfl
  · rfl

@[simp] theorem number?_setRank (pool : Pool) (cell : Cell) (rank : Rank) (c : Cell) :
    (pool.setRank cell rank).number? c = pool.number? c := by
  rw [number?, setRank, slot?_modifySlot, number?]
  split
  · cases pool.slot? c <;> rfl
  · rfl

@[simp] theorem size_slots_setRank (pool : Pool) (cell : Cell) (rank : Rank) :
    (pool.setRank cell rank).slots.size = pool.slots.size :=
  size_slots_modifySlot pool _ _

/-- Binding changes what one cell stands for. -/
theorem binding?_bind {cell target : Cell} (htarget : pool.canonical target = target) (hne : cell ≠ target) (c : Cell) :
    (pool.bind cell target).binding? c =
      if c = cell then (pool.binding? c).map fun _ => .alias target else pool.binding? c := by
  rw [bind]
  simp only [htarget, hne, ↓reduceIte]
  rw [binding?_setRank, binding?, slot?_modifySlot, binding?]
  split
  · rw [Option.map_map, Option.map_map]
    rfl
  · rfl

@[simp] theorem number?_bind (pool : Pool) (cell target : Cell) (c : Cell) :
    (pool.bind cell target).number? c = pool.number? c := by
  rw [bind]
  simp only
  split
  · rfl
  · rw [number?_setRank, number?, slot?_modifySlot, number?]
    split
    · cases pool.slot? c <;> rfl
    · rfl

/-- Binding changes the slots only, and not their number. -/
theorem bind_eq (pool : Pool) (cell target : Cell) :
    pool.bind cell target = { pool with slots := (pool.bind cell target).slots } ∧
      (pool.bind cell target).slots.size = pool.slots.size := by
  rw [bind]
  simp only
  split
  · exact ⟨rfl, rfl⟩
  · refine ⟨rfl, ?_⟩
    rw [size_slots_setRank, size_slots_modifySlot]

theorem binding?_pushSlot (pool : Pool) (binding : Binding) (c : Cell) :
    (pool.pushSlot binding).binding? c = if c.id = pool.slots.size then some binding else pool.binding? c := by
  rw [binding?, slot?, pushSlot, Array.getElem?_push, binding?, slot?]
  split <;> rfl

theorem binding?_pushSlot_of_some {new binding : Binding} {cell : Cell} (h : pool.binding? cell = some binding) :
    (pool.pushSlot new).binding? cell = some binding := by
  have := lt_of_binding? h
  rw [binding?_pushSlot, if_neg (by omega), h]

theorem cases_of_pushSlot {new binding : Binding} {cell : Cell}
    (h : (pool.pushSlot new).binding? cell = some binding) :
    cell.id = pool.slots.size ∧ binding = new ∨ pool.binding? cell = some binding := by
  rw [binding?_pushSlot] at h
  by_cases hid : cell.id = pool.slots.size
  · rw [if_pos hid] at h
    exact .inl ⟨hid, (Option.some.inj h).symm⟩
  · rw [if_neg hid] at h
    exact .inr h

theorem number?_pushSlot (pool : Pool) (binding : Binding) (c : Cell) :
    (pool.pushSlot binding).number? c = pool.number? c := by
  rw [number?, slot?, pushSlot, Array.getElem?_push, number?, slot?]
  split
  · rename_i h
    rw [Array.getElem?_eq_none_iff.2 (by omega)]
    rfl
  · rfl

@[simp] theorem size_slots_pushSlot (pool : Pool) (binding : Binding) :
    (pool.pushSlot binding).slots.size = pool.slots.size + 1 :=
  Array.size_push _

theorem binding?_addEntry (pool : Pool) (value : Constant Cell) (c : Cell) :
    (pool.addEntry value).binding? c = if c.id = pool.slots.size then some (.owned value) else pool.binding? c :=
  binding?_pushSlot pool (.owned value) c

theorem number?_addEntry (pool : Pool) (value : Constant Cell) (c : Cell) :
    (pool.addEntry value).number? c = pool.number? c :=
  number?_pushSlot pool (.owned value) c

@[simp] theorem size_slots_addEntry (pool : Pool) (value : Constant Cell) :
    (pool.addEntry value).slots.size = pool.slots.size + 1 :=
  size_slots_pushSlot pool (.owned value)

/-! ### The invariant -/

/-- The cell owns an entry, or is the zero cell. -/
def Owns (pool : Pool) (cell : Cell) : Prop := ∃ value, pool.binding? cell = some (.owned value)

/-- How the cells of a pool hang together. -/
structure WellBound (pool : Pool) : Prop where
  zero : pool.binding? .zero = some (.owned .zero)
  mem_order : ∀ cell, cell ∈ pool.order.toList ↔ cell ≠ .zero ∧ pool.Owns cell
  sorted : pool.order.toList.Pairwise (·.id < ·.id)
  value_ne_zero : ∀ cell value, pool.binding? cell = some (.owned value) → cell ≠ .zero → value ≠ .zero
  alias_owns : ∀ cell target, pool.binding? cell = some (.alias target) → pool.Owns target
  refs_lt : ∀ cell value, pool.binding? cell = some (.owned value) → ∀ ref ∈ value.refs, ref.id < cell.id
  name_lt : ∀ cell kind name, pool.binding? cell = some (.promised kind name) → name.id < cell.id
  byValue_eq : ∀ (value : Constant Cell) (cell : Cell), pool.byValue[value]? = some cell →
    pool.binding? cell = some (.owned value)
  byContent_owns : ∀ (content : Content) (cell : Cell), pool.byContent[content]? = some cell → pool.Owns cell

theorem WellBound.size_pos (h : pool.WellBound) : 0 < pool.slots.size := lt_of_binding? h.zero

private theorem follow_of_owns {cell : Cell} (h : pool.Owns cell) (fuel : Nat) : pool.follow fuel cell = cell := by
  obtain ⟨value, h⟩ := h
  obtain ⟨rank, hslot⟩ := slot?_eq_of_binding? h
  cases fuel with
  | zero => rfl
  | succ fuel => rw [follow, hslot]

theorem canonical_of_owns {cell : Cell} (h : pool.Owns cell) : pool.canonical cell = cell :=
  follow_of_owns h _

theorem not_owns_of_binding? {cell : Cell} {binding : Binding} (hcell : pool.binding? cell = some binding)
    (hbinding : ∀ value, binding ≠ .owned value) : ¬ pool.Owns cell := by
  rintro ⟨value, hvalue⟩
  exact hbinding value (Option.some.inj (hcell.symm.trans hvalue))

/-- What binding a cell that owns no entry to one that owns an entry changes. -/
theorem binding?_bind_of_owns {cell target : Cell} (hcell : ¬ pool.Owns cell) (htarget : pool.Owns target) (c : Cell) :
    (pool.bind cell target).binding? c =
      if c = cell then (pool.binding? c).map fun _ => .alias target else pool.binding? c := by
  have hne : cell ≠ target := fun heq => hcell (heq ▸ htarget)
  exact binding?_bind (canonical_of_owns htarget) hne c

theorem binding?_bind_self {cell target : Cell} {binding : Binding} (hcell : pool.binding? cell = some binding)
    (hnot : ¬ pool.Owns cell) (htarget : pool.Owns target) :
    (pool.bind cell target).binding? cell = some (.alias target) := by
  rw [binding?_bind_of_owns hnot htarget, if_pos rfl, hcell]
  rfl

theorem binding?_bind_of_ne {cell target c : Cell} (hcell : ¬ pool.Owns cell) (htarget : pool.Owns target)
    (hc : c ≠ cell) : (pool.bind cell target).binding? c = pool.binding? c := by
  rw [binding?_bind_of_owns hcell htarget, if_neg hc]

theorem cases_of_bind {cell target c : Cell} {binding : Binding} (hcell : ¬ pool.Owns cell)
    (htarget : pool.Owns target) (hc : (pool.bind cell target).binding? c = some binding) :
    c = cell ∧ binding = .alias target ∨ pool.binding? c = some binding := by
  rw [binding?_bind_of_owns hcell htarget] at hc
  split at hc
  · rename_i heq
    obtain ⟨_, -, rfl⟩ := Option.map_eq_some_iff.1 hc
    exact .inl ⟨heq, rfl⟩
  · exact .inr hc

theorem canonical_of_alias (h : pool.WellBound) {cell target : Cell}
    (hcell : pool.binding? cell = some (.alias target)) : pool.canonical cell = target := by
  obtain ⟨rank, hslot⟩ := slot?_eq_of_binding? hcell
  have hsize := h.size_pos
  obtain ⟨fuel, hfuel⟩ : ∃ fuel, pool.slots.size = fuel + 1 := ⟨pool.slots.size - 1, by omega⟩
  rw [canonical, hfuel, follow, hslot]
  exact follow_of_owns (h.alias_owns cell target hcell) fuel

theorem canonical_of_not_alias {cell : Cell} (h : ∀ target, pool.binding? cell ≠ some (.alias target)) :
    pool.canonical cell = cell := by
  rw [canonical]
  cases pool.slots.size with
  | zero => rfl
  | succ fuel =>
    rw [follow]
    split
    · rename_i hslot
      exact absurd (by rw [binding?, hslot]; rfl) (h _)
    · rfl

/-- A cell stands for itself, or for an entry. -/
theorem WellBound.canonical_cases (h : pool.WellBound) (cell : Cell) :
    pool.canonical cell = cell ∨ pool.Owns (pool.canonical cell) := by
  by_cases halias : ∃ target, pool.binding? cell = some (.alias target)
  · obtain ⟨target, htarget⟩ := halias
    rw [canonical_of_alias h htarget]
    exact .inr (h.alias_owns cell target htarget)
  · exact .inl (canonical_of_not_alias fun target htarget => halias ⟨target, htarget⟩)

theorem get?_eq (pool : Pool) (cell : Cell) :
    pool.get? cell = match pool.binding? (pool.canonical cell) with
      | some (.owned value) => some value
      | _ => none := by
  rw [get?, binding?]
  cases pool.slot? (pool.canonical cell) with
  | none => rfl
  | some slot =>
    obtain ⟨binding, index, rank⟩ := slot
    cases binding <;> rfl

theorem get?_eq_some_iff {cell : Cell} {value : Constant Cell} :
    pool.get? cell = some value ↔ pool.binding? (pool.canonical cell) = some (.owned value) := by
  rw [get?_eq]
  split
  · rename_i found hbinding
    rw [hbinding, Option.some.injEq, Option.some.injEq, Binding.owned.injEq]
  · rename_i hnot
    exact ⟨fun h => absurd h (by simp), fun h => absurd h (hnot value)⟩

theorem get?_of_owned {cell : Cell} {value : Constant Cell} (h : pool.binding? cell = some (.owned value)) :
    pool.get? cell = some value := by
  rw [get?_eq, canonical_of_owns ⟨value, h⟩, h]

theorem indexOf_eq (pool : Pool) (cell : Cell) :
    pool.indexOf cell = match pool.binding? (pool.canonical cell), pool.number? (pool.canonical cell) with
      | some (.owned _), some index => .ok index
      | some _, _ => .error (.unresolvedConstant cell)
      | none, _ => .error (.unresolvedConstant (pool.canonical cell)) := by
  rw [indexOf, binding?, number?]
  cases hslot : pool.slot? (pool.canonical cell) with
  | none => simp only [Option.map_none]
  | some slot =>
    obtain ⟨binding, index, rank⟩ := slot
    cases binding <;> cases index <;> simp only [Option.map_some, Option.bind_some]

/-- A cell has an index exactly if what it stands for owns an entry with this index. -/
theorem indexOf_eq_ok_iff {cell : Cell} {index : Nat} :
    pool.indexOf cell = .ok index ↔
      pool.Owns (pool.canonical cell) ∧ pool.number? (pool.canonical cell) = some index := by
  rw [indexOf_eq]
  constructor
  · intro h
    split at h
    · rename_i value found hbinding hnumber
      obtain rfl := Except.ok.inj h
      exact ⟨⟨value, hbinding⟩, hnumber⟩
    · cases h
    · cases h
  · rintro ⟨⟨value, hbinding⟩, hnumber⟩
    rw [hbinding, hnumber]

theorem indexOf_of_canonical {cell owner : Cell} {index : Nat} (hcanonical : pool.canonical cell = owner)
    (howns : pool.Owns owner) (hnumber : pool.number? owner = some index) : pool.indexOf cell = .ok index :=
  indexOf_eq_ok_iff.2 (hcanonical ▸ ⟨howns, hnumber⟩)

/-- What is found to be equal to a constant owns an entry, if what is remembered does. -/
theorem owns_of_find?
    (hvalue : ∀ (value : Constant Cell) (cell : Cell), pool.byValue[value]? = some cell → pool.Owns cell)
    (hcontent : ∀ (content : Content) (cell : Cell), pool.byContent[content]? = some cell → pool.Owns cell)
    {value : Constant Cell} {cell : Cell} (hfind : pool.find? value = some cell) : pool.Owns cell := by
  rw [find?_eq] at hfind
  split at hfind
  · rename_i found hfound
    obtain rfl := Option.some.inj hfind
    exact hvalue value _ hfound
  · obtain ⟨content, -, hfound⟩ := Option.bind_eq_some_iff.1 hfind
    exact hcontent content cell hfound

theorem WellBound.find?_owns (h : pool.WellBound) {value : Constant Cell} {cell : Cell}
    (hfind : pool.find? value = some cell) : pool.Owns cell :=
  owns_of_find? (fun found owner hfound => ⟨found, h.byValue_eq found owner hfound⟩) h.byContent_owns hfind

/-- What comes of asking for a constant. -/
theorem intern_cases (value : Constant Cell) (pool : Pool) :
    (value = .zero ∧ intern value pool = .ok .zero pool) ∨
    (∃ cell, value ≠ .zero ∧ pool.find value = .ok (some cell) ∧ intern value pool = .ok cell pool) ∨
    (value ≠ .zero ∧ pool.find value = .ok none ∧ pool.isFinalized = false ∧
      intern value pool = .ok ⟨pool.slots.size⟩ (pool.addEntry value)) ∨
    ∃ e, intern value pool = .error e pool := by
  by_cases hzero : value = .zero
  · exact .inl ⟨hzero, by rw [intern, if_pos hzero]⟩
  · rw [intern, if_neg hzero]
    rcases hfind : pool.find value with e | _ | cell
    · exact .inr (.inr (.inr ⟨e, rfl⟩))
    · cases hopen : pool.isFinalized with
      | true => exact .inr (.inr (.inr ⟨.poolFinalized, rfl⟩))
      | false => exact .inr (.inr (.inl ⟨hzero, rfl, rfl, rfl⟩))
    · exact .inr (.inl ⟨cell, hzero, rfl, rfl⟩)

theorem WellBound.lt_of_intern (h : pool.WellBound) {value : Constant Cell} {cell : Cell} {pool' : Pool}
    (hrun : intern value pool = .ok cell pool') : cell.id < pool'.slots.size := by
  rcases intern_cases value pool with ⟨-, heq⟩ | ⟨found, -, hfind, heq⟩ | ⟨-, -, -, heq⟩ | ⟨e, heq⟩ <;>
    rw [heq] at hrun
  · obtain ⟨rfl, rfl⟩ := EStateM.Result.ok.inj hrun
    exact h.size_pos
  · obtain ⟨rfl, rfl⟩ := EStateM.Result.ok.inj hrun
    obtain ⟨held, hheld⟩ := h.find?_owns (find?_eq_some_iff.2 hfind)
    exact lt_of_binding? hheld
  · obtain ⟨rfl, rfl⟩ := EStateM.Result.ok.inj hrun
    rw [size_slots_addEntry]
    exact Nat.lt_succ_self _
  · cases hrun

/-! ### What preserves the invariant -/

theorem WellBound.empty : WellBound Pool.empty := by
  have hbinding : ∀ cell binding, Pool.empty.binding? cell = some binding → cell = .zero ∧ binding = .owned .zero := by
    rintro ⟨id⟩ binding h
    have hlt : id < 1 := lt_of_binding? h
    obtain rfl : id = 0 := by omega
    exact ⟨rfl, (Option.some.inj h).symm⟩
  refine ⟨rfl, fun cell => ⟨fun h => ?_, fun h => ?_⟩, .nil, ?_, ?_, ?_, ?_, ?_, ?_⟩
  · cases h
  · obtain ⟨hne, value, hvalue⟩ := h
    exact absurd (hbinding cell _ hvalue).1 hne
  · intro cell value hcell hne
    exact absurd (hbinding cell _ hcell).1 hne
  · intro cell target hcell
    cases (hbinding cell _ hcell).2
  · intro cell value hcell ref href
    obtain rfl : value = .zero := by simpa using (hbinding cell _ hcell).2
    cases href
  · intro cell kind name hcell
    cases (hbinding cell _ hcell).2
  · intro value cell hcell
    simp [Pool.empty] at hcell
  · intro content cell hcell
    simp [Pool.empty] at hcell

/-- Ranks, indices, bootstrap methods and the layout have no part in the invariant. -/
theorem WellBound.congr {pool' : Pool} (h : pool.WellBound)
    (hbinding : ∀ cell, pool'.binding? cell = pool.binding? cell)
    (horder : pool'.order = pool.order) (hvalue : pool'.byValue = pool.byValue)
    (hcontent : pool'.byContent = pool.byContent) : pool'.WellBound := by
  have howns : ∀ cell, pool'.Owns cell ↔ pool.Owns cell := fun cell => by rw [Owns, Owns, hbinding]
  refine ⟨by rw [hbinding, h.zero], fun cell => by rw [horder, howns, h.mem_order], by rw [horder]; exact h.sorted,
    ?_, ?_, ?_, ?_, ?_, ?_⟩
  · simpa only [hbinding] using h.value_ne_zero
  · simpa only [hbinding, howns] using h.alias_owns
  · simpa only [hbinding] using h.refs_lt
  · simpa only [hbinding] using h.name_lt
  · simpa only [hbinding, hvalue] using h.byValue_eq
  · simpa only [howns, hcontent] using h.byContent_owns

theorem WellBound.setRank (h : pool.WellBound) (cell : Cell) (rank : Rank) : (pool.setRank cell rank).WellBound :=
  h.congr (binding?_setRank pool cell rank) rfl rfl rfl

/-- A new cell that owns nothing may be anything that refers to earlier cells. -/
theorem WellBound.pushSlot (h : pool.WellBound) {binding : Binding} (howned : ∀ value, binding ≠ .owned value)
    (halias : ∀ target, binding ≠ .alias target)
    (hname : ∀ kind name, binding = .promised kind name → name.id < pool.slots.size) :
    (pool.pushSlot binding).WellBound := by
  have howns : ∀ cell, (pool.pushSlot binding).Owns cell ↔ pool.Owns cell := by
    intro cell
    refine ⟨fun ⟨value, hv⟩ => ?_, fun ⟨value, hv⟩ => ⟨value, binding?_pushSlot_of_some hv⟩⟩
    rcases cases_of_pushSlot hv with ⟨_, hb⟩ | hv
    · exact absurd hb.symm (howned value)
    · exact ⟨value, hv⟩
  refine ⟨binding?_pushSlot_of_some h.zero, fun cell => ?_, h.sorted, fun cell value hcell => ?_,
    fun cell target hcell => ?_, fun cell value hcell => ?_, fun cell kind name hcell => ?_, fun value cell hcell => ?_,
    fun content cell hcell => ?_⟩
  · rw [howns]
    exact h.mem_order cell
  · rcases cases_of_pushSlot hcell with ⟨_, hb⟩ | hcell
    · exact absurd hb.symm (howned value)
    · exact h.value_ne_zero cell value hcell
  · rcases cases_of_pushSlot hcell with ⟨_, hb⟩ | hcell
    · exact absurd hb.symm (halias target)
    · exact (howns target).2 (h.alias_owns cell target hcell)
  · rcases cases_of_pushSlot hcell with ⟨_, hb⟩ | hcell
    · exact absurd hb.symm (howned value)
    · exact h.refs_lt cell value hcell
  · rcases cases_of_pushSlot hcell with ⟨hid, hb⟩ | hcell
    · rw [hid]
      exact hname kind name hb.symm
    · exact h.name_lt cell kind name hcell
  · exact binding?_pushSlot_of_some (h.byValue_eq value cell hcell)
  · exact (howns cell).2 (h.byContent_owns content cell hcell)

theorem order_addEntry (pool : Pool) (value : Constant Cell) :
    (pool.addEntry value).order.toList = pool.order.toList ++ [⟨pool.slots.size⟩] :=
  Array.toList_push

theorem cases_of_byValue_addEntry {value v : Constant Cell} {cell : Cell}
    (h : (pool.addEntry value).byValue[v]? = some cell) :
    v = value ∧ cell = ⟨pool.slots.size⟩ ∨ pool.byValue[v]? = some cell := by
  have hinsert : (pool.addEntry value).byValue = pool.byValue.insert value ⟨pool.slots.size⟩ := rfl
  rw [hinsert, Std.HashMap.getElem?_insert] at h
  split at h
  · rename_i heq
    exact .inl ⟨(eq_of_beq heq).symm, (Option.some.inj h).symm⟩
  · exact .inr h

theorem cases_of_byContent_addEntry {value : Constant Cell} {content : Content} {cell : Cell}
    (h : (pool.addEntry value).byContent[content]? = some cell) :
    pool.contentOf? value = some content ∧ cell = ⟨pool.slots.size⟩ ∨ pool.byContent[content]? = some cell := by
  rw [addEntry] at h
  cases hcontent : pool.contentOf? value with
  | none =>
    rw [hcontent] at h
    exact .inr h
  | some found =>
    simp only [hcontent, Std.HashMap.getElem?_insert] at h
    split at h
    · rename_i heq
      exact .inl ⟨by rw [eq_of_beq heq], (Option.some.inj h).symm⟩
    · exact .inr h

/-- A new entry may be any constant that refers to earlier cells. -/
theorem WellBound.addEntry (h : pool.WellBound) {value : Constant Cell} (hzero : value ≠ .zero)
    (hrefs : ∀ ref ∈ value.refs, ref.id < pool.slots.size) : (pool.addEntry value).WellBound := by
  have hold : ∀ {cell : Cell} {b : Binding}, pool.binding? cell = some b →
      (pool.addEntry value).binding? cell = some b := fun hb => binding?_pushSlot_of_some hb
  have hnew : ∀ {cell : Cell} {b : Binding}, (pool.addEntry value).binding? cell = some b →
      cell.id = pool.slots.size ∧ b = .owned value ∨ pool.binding? cell = some b := fun hb => cases_of_pushSlot hb
  have hself : (pool.addEntry value).binding? ⟨pool.slots.size⟩ = some (.owned value) := by
    rw [binding?_addEntry, if_pos rfl]
  have howns : ∀ {cell : Cell}, pool.Owns cell → (pool.addEntry value).Owns cell := fun ⟨v, hv⟩ => ⟨v, hold hv⟩
  refine ⟨hold h.zero, fun cell => ?_, ?_, fun cell v hcell hne => ?_, fun cell target hcell => ?_,
    fun cell v hcell => ?_, fun cell kind name hcell => ?_, fun v cell hcell => ?_, fun content cell hcell => ?_⟩
  · rw [order_addEntry, List.mem_append, List.mem_singleton, h.mem_order]
    constructor
    · rintro (⟨hne, ho⟩ | rfl)
      · exact ⟨hne, howns ho⟩
      · refine ⟨fun heq => ?_, value, hself⟩
        have hsize := h.size_pos
        rw [Cell.zero, Cell.mk.injEq] at heq
        omega
    · rintro ⟨hne, v, hv⟩
      rcases hnew hv with ⟨hid, -⟩ | hv
      · obtain ⟨id⟩ := cell
        exact .inr (congrArg Cell.mk hid)
      · exact .inl ⟨hne, v, hv⟩
  · rw [order_addEntry, List.pairwise_append]
    refine ⟨h.sorted, List.pairwise_singleton _ _, fun a ha b hb => ?_⟩
    obtain rfl := List.mem_singleton.1 hb
    obtain ⟨-, v, hv⟩ := (h.mem_order a).1 ha
    exact lt_of_binding? hv
  · rcases hnew hcell with ⟨-, hv⟩ | hcell
    · obtain rfl := Binding.owned.inj hv
      exact hzero
    · exact h.value_ne_zero cell v hcell hne
  · rcases hnew hcell with ⟨-, hv⟩ | hcell
    · cases hv
    · exact howns (h.alias_owns cell target hcell)
  · rcases hnew hcell with ⟨hid, hv⟩ | hcell
    · obtain rfl := Binding.owned.inj hv
      rw [hid]
      exact hrefs
    · exact h.refs_lt cell v hcell
  · rcases hnew hcell with ⟨-, hv⟩ | hcell
    · cases hv
    · exact h.name_lt cell kind name hcell
  · rcases cases_of_byValue_addEntry hcell with ⟨rfl, rfl⟩ | hcell
    · exact hself
    · exact hold (h.byValue_eq v cell hcell)
  · rcases cases_of_byContent_addEntry hcell with ⟨-, rfl⟩ | hcell
    · exact ⟨value, hself⟩
    · exact howns (h.byContent_owns content cell hcell)

/-- A cell that is promised or stands for an index may become an alias of a cell that owns an entry. -/
theorem WellBound.bind (h : pool.WellBound) {cell target : Cell} (howned : ¬ pool.Owns cell)
    (htarget : pool.Owns target) : (pool.bind cell target).WellBound := by
  have hold : ∀ {c : Cell} {b : Binding}, (pool.bind cell target).binding? c = some b →
      c = cell ∧ b = .alias target ∨ pool.binding? c = some b := cases_of_bind howned htarget
  have hkeep : ∀ {c : Cell} {value : Constant Cell}, pool.binding? c = some (.owned value) →
      (pool.bind cell target).binding? c = some (.owned value) := by
    intro c value hc
    have hcell : c ≠ cell := by
      rintro rfl
      exact howned ⟨value, hc⟩
    rw [binding?_bind_of_ne howned htarget hcell, hc]
  have howns : ∀ c, (pool.bind cell target).Owns c ↔ pool.Owns c := by
    refine fun c => ⟨fun ⟨value, hc⟩ => ?_, fun ⟨value, hc⟩ => ⟨value, hkeep hc⟩⟩
    rcases hold hc with ⟨_, hb⟩ | hc
    · cases hb
    · exact ⟨value, hc⟩
  obtain ⟨heq, -⟩ := bind_eq pool cell target
  have horder : (pool.bind cell target).order = pool.order := by rw [heq]
  have hvalue : (pool.bind cell target).byValue = pool.byValue := by rw [heq]
  have hcontent : (pool.bind cell target).byContent = pool.byContent := by rw [heq]
  refine ⟨hkeep h.zero, fun c => by rw [horder, howns, h.mem_order], by rw [horder]; exact h.sorted,
    fun c value hc hne => ?_, fun c t hc => ?_, fun c value hc => ?_, fun c kind name hc => ?_,
    fun value c hc => hkeep (h.byValue_eq value c (hvalue ▸ hc)),
    fun content c hc => (howns c).2 (h.byContent_owns content c (hcontent ▸ hc))⟩
  · rcases hold hc with ⟨-, hb⟩ | hc
    · cases hb
    · exact h.value_ne_zero c value hc hne
  · rcases hold hc with ⟨-, hb⟩ | hc
    · obtain rfl := Binding.alias.inj hb
      exact (howns t).2 htarget
    · exact (howns t).2 (h.alias_owns c t hc)
  · rcases hold hc with ⟨-, hb⟩ | hc
    · cases hb
    · exact h.refs_lt c value hc
  · rcases hold hc with ⟨-, hb⟩ | hc
    · cases hb
    · exact h.name_lt c kind name hc

end Pool

end JvmAssembler
