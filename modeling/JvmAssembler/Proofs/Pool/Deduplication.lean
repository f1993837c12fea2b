import JvmAssembler.Proofs.Pool.History
import JvmAssembler.Proofs.Pool.KeepsContent

/-!
# One entry for each content

In a `Faithful` pool what is found is right: a constant is found by the cell that owns it, and a content by a cell that
has it. In a `Deduplicated` pool all contents are found as well, so that no two cells own equal entries
(`Deduplicated.sameValue_iff`). What happens to a faithful pool continues it (`Continues`): it remembers what it has,
and its tables know the entries that are added, so that a constant that is asked for again is found again
(`Deduplicated.find?_mono`).
-/

namespace JvmAssembler

theorem Constant.eq_zero_of_content? {value : Constant Cell} {f : Cell → Option Content}
    (h : value.content? f = some (.leaf .zero)) : value = .zero := by
  have hshape : value.shape = .zero := by
    unfold content? at h
    split at h
    · exact Content.leaf.inj (Option.some.inj h)
    · obtain ⟨inner, -, heq⟩ := Option.map_eq_some_iff.1 h
      cases heq
    · simp only [Option.bind_eq_bind, Option.bind_eq_some_iff, Option.pure_def, Option.some.injEq, reduceCtorEq,
        and_false, exists_false] at h
  cases value with
  | zero => rfl
  | _ => cases hshape

namespace Pool

variable {pool pool' pool'' : Pool} {references : List Reference}

/-- What the tables of a pool know is right, and they know the constants of all entries. -/
structure Faithful (pool : Pool) : Prop extends WellBound pool where
  byValue_of_owned : ∀ (cell : Cell) (value : Constant Cell), cell ≠ .zero →
    pool.binding? cell = some (.owned value) → pool.byValue[value]? = some cell
  content?_of_byContent : ∀ (content : Content) (cell : Cell), pool.byContent[content]? = some cell →
    pool.content? cell = some content

/-- The tables of a pool know all of its entries. -/
structure Deduplicated (pool : Pool) : Prop extends Faithful pool where
  byContent_of_content? : ∀ (cell : Cell) (content : Content), cell ≠ .zero → pool.Owns cell →
    pool.content? cell = some content → pool.byContent[content]? = some cell

/-- What a pool has can be found in another one in the same places. -/
structure Remembers (pool pool' : Pool) : Prop where
  size_le : pool.slots.size ≤ pool'.slots.size
  content : KeepsContent pool pool'
  byValue : ∀ (value : Constant Cell) (cell : Cell), pool.byValue[value]? = some cell →
    pool'.byValue[value]? = some cell
  byContent : ∀ (content : Content) (cell : Cell), pool.byContent[content]? = some cell →
    pool'.byContent[content]? = some cell

theorem Remembers.refl (pool : Pool) : Remembers pool pool :=
  ⟨Nat.le_refl _, fun _ _ => rfl, fun _ _ h => h, fun _ _ h => h⟩

theorem Remembers.trans (h : Remembers pool pool') (h' : Remembers pool' pool'') : Remembers pool pool'' where
  size_le := Nat.le_trans h.size_le h'.size_le
  content cell hcell := (h'.content cell (Nat.lt_of_lt_of_le hcell h.size_le)).trans (h.content cell hcell)
  byValue value cell hcell := h'.byValue value cell (h.byValue value cell hcell)
  byContent content cell hcell := h'.byContent content cell (h.byContent content cell hcell)

theorem content?_of_owned {cell : Cell} {value : Constant Cell} (h : pool.binding? cell = some (.owned value)) :
    pool.content? cell = pool.contentOf? value := by
  have hmeaning : pool.meaning? cell = some value := by rw [meaning?, canonical_of_owns ⟨value, h⟩, h]
  rw [content?_eq, hmeaning, Option.bind_some]

theorem find_of_byValue {value : Constant Cell} {cell : Cell} (h : pool.byValue[value]? = some cell) :
    pool.find value = .ok (some cell) := by
  rw [find, h]

/-- What is found to be equal to a constant has its content. -/
theorem Faithful.content?_find? (h : pool.Faithful) {value : Constant Cell} {cell : Cell}
    (hfind : pool.find? value = some cell) : pool.content? cell = pool.contentOf? value := by
  rw [find?_eq] at hfind
  split at hfind
  · rename_i found hvalue
    obtain rfl := Option.some.inj hfind
    exact content?_of_owned (h.byValue_eq value _ hvalue)
  · obtain ⟨content, hcontent, hcell⟩ := Option.bind_eq_some_iff.1 hfind
    rw [hcontent, h.content?_of_byContent content cell hcell]

namespace Deduplicated

/-- No two cells own equal entries. -/
theorem eq_of_content? (h : pool.Deduplicated) {a b : Cell} (ha : pool.Owns a) (hb : pool.Owns b) {content : Content}
    (hx : pool.content? a = some content) (hy : pool.content? b = some content) : a = b := by
  have hzero : pool.content? .zero = some (.leaf .zero) := content?_of_owned h.zero
  -- The zero constant is the only one with its content.
  have hother : ∀ c, c ≠ Cell.zero → pool.Owns c → pool.content? c ≠ some (.leaf .zero) := by
    rintro c hc ⟨value, hvalue⟩ hcontent
    rw [content?_of_owned hvalue, contentOf?_eq] at hcontent
    exact h.value_ne_zero c value hvalue hc (Constant.eq_zero_of_content? hcontent)
  by_cases ha0 : a = .zero
  · subst ha0
    rw [hzero] at hx
    by_contra hne
    exact hother b (fun hb0 => hne hb0.symm) hb (hy.trans hx.symm)
  · by_cases hb0 : b = .zero
    · subst hb0
      rw [hzero] at hy
      exact absurd (hx.trans hy.symm) (hother a ha0 ha)
    · have hfound := h.byContent_of_content? a content ha0 ha hx
      rw [h.byContent_of_content? b content hb0 hb hy] at hfound
      exact (Option.some.inj hfound).symm

/-- Cells that own entries are equal by value only if they are the same. -/
theorem sameValue_eq (h : pool.Deduplicated) (hends : ∀ cell, pool.Ends cell) {a b : Cell} (ha : pool.Owns a)
    (hb : pool.Owns b) : pool.sameValue a b = .ok (decide (a = b)) := by
  rw [sameValue_of_ends (hends _) (hends _), canonical_of_owns ha, canonical_of_owns hb]
  by_cases heq : a = b
  · simp [heq]
  · cases hx : pool.content? a with
    | none => simp [heq]
    | some x =>
      have hne : some x ≠ pool.content? b := fun hy => heq (h.eq_of_content? ha hb hx hy.symm)
      simp [heq, hne]

/-- A constant that a pool has is found again later. -/
theorem find?_mono (h' : pool'.Deduplicated) (hrem : Remembers pool pool') {value : Constant Cell}
    (hzero : value ≠ .zero) (hrefs : ∀ ref ∈ value.refs, ref.id < pool.slots.size) {cell : Cell}
    (hfind : pool.find? value = some cell) : pool'.find? value = some cell := by
  have hcontentOf : pool'.contentOf? value = pool.contentOf? value := by
    rw [contentOf?_eq, contentOf?_eq]
    exact Constant.content?_congr fun ref href => hrem.content.content? (hrefs ref href)
  rw [find?_eq] at hfind ⊢
  split at hfind
  · rename_i found hvalue
    rw [hrem.byValue value found hvalue]
    exact hfind
  · obtain ⟨content, hcontent, hcell⟩ := Option.bind_eq_some_iff.1 hfind
    have hknown := hrem.byContent content cell hcell
    -- If the constant itself has become known since, then by the cell with its content.
    cases hvalue : pool'.byValue[value]? with
    | none =>
      simp only [hcontentOf, hcontent, Option.bind_some]
      exact hknown
    | some other =>
      have howned := h'.byValue_eq value other hvalue
      have hother : other ≠ .zero := by
        rintro rfl
        rw [h'.zero] at howned
        exact hzero (Binding.owned.inj (Option.some.inj howned)).symm
      have hsame : pool'.content? other = some content := by rw [content?_of_owned howned, hcontentOf, hcontent]
      rw [h'.byContent_of_content? other content hother ⟨value, howned⟩ hsame] at hknown
      exact hknown

end Deduplicated

/-! ### Later pools -/

/-- A faithful pool that remembers what another one has, and whose tables know the entries that were added. -/
structure Continues (pool pool' : Pool) : Prop extends Remembers pool pool' where
  faithful : pool'.Faithful
  recorded : ∀ (cell : Cell) (content : Content), pool'.Owns cell → ¬ pool.Owns cell →
    pool'.content? cell = some content → pool'.byContent[content]? = some cell

/-- The tables know an entry if it is new, or if they knew it before. -/
theorem Continues.byContent_of_content? (h : Continues pool pool') {cell : Cell} {content : Content}
    (hold : pool.Owns cell → pool.content? cell = some content → pool.byContent[content]? = some cell)
    (howns : pool'.Owns cell) (hcontent : pool'.content? cell = some content) :
    pool'.byContent[content]? = some cell := by
  by_cases hbefore : pool.Owns cell
  · obtain ⟨value, hvalue⟩ := hbefore
    rw [h.content.content? (lt_of_binding? hvalue)] at hcontent
    exact h.byContent content cell (hold ⟨value, hvalue⟩ hcontent)
  · exact h.recorded cell content howns hbefore hcontent

theorem Continues.trans (h : Continues pool pool') (h' : Continues pool' pool'') : Continues pool pool'' where
  toRemembers := h.toRemembers.trans h'.toRemembers
  faithful := h'.faithful
  recorded cell content howns hnot hcontent :=
    h'.byContent_of_content? (fun hmid => h.recorded cell content hmid hnot) howns hcontent

theorem Deduplicated.continues (h : pool.Deduplicated) (hcontinues : Continues pool pool') : pool'.Deduplicated where
  toFaithful := hcontinues.faithful
  byContent_of_content? cell content hne howns hcontent :=
    hcontinues.byContent_of_content? (h.byContent_of_content? cell content hne) howns hcontent

private theorem owns_empty {cell : Cell} (h : Pool.empty.Owns cell) : cell = .zero := by
  obtain ⟨id⟩ := cell
  obtain ⟨value, hvalue⟩ := h
  have hlt : id < 1 := lt_of_binding? hvalue
  obtain rfl : id = 0 := by omega
  rfl

theorem Faithful.empty : Faithful Pool.empty where
  toWellBound := .empty
  byValue_of_owned cell value hne hcell := absurd (owns_empty ⟨value, hcell⟩) hne
  content?_of_byContent content cell hcell := by simp [Pool.empty] at hcell

theorem Deduplicated.empty : Deduplicated Pool.empty where
  toFaithful := .empty
  byContent_of_content? _ _ hne howns _ := absurd (owns_empty howns) hne

namespace Faithful

/-- Changes that leave the tables, the entries and what is known of their contents as they are. -/
theorem of_keepsKnown (h : pool.Faithful) (hwell : pool'.WellBound) (hvalue : pool'.byValue = pool.byValue)
    (hcontent : pool'.byContent = pool.byContent)
    (howned : ∀ cell value, pool'.binding? cell = some (.owned value) → pool.binding? cell = some (.owned value))
    (hkeep : KeepsKnown pool pool') : pool'.Faithful where
  toWellBound := hwell
  byValue_of_owned cell value hne hcell := by
    rw [hvalue]
    exact h.byValue_of_owned cell value hne (howned cell value hcell)
  content?_of_byContent content cell hcell := by
    rw [hcontent] at hcell
    exact hkeep cell content (h.content?_of_byContent content cell hcell)

/-- Changes that leave the contents as they are. -/
theorem of_keepsContent (h : pool.Faithful) (hwell : pool'.WellBound) (hsize : pool.slots.size ≤ pool'.slots.size)
    (hvalue : pool'.byValue = pool.byValue) (hcontent : pool'.byContent = pool.byContent)
    (howned : ∀ cell value, pool'.binding? cell = some (.owned value) → pool.binding? cell = some (.owned value))
    (hkeep : KeepsContent pool pool') : Continues pool pool' where
  size_le := hsize
  content := hkeep
  byValue value cell hcell := by rw [hvalue, hcell]
  byContent content cell hcell := by rw [hcontent, hcell]
  faithful := h.of_keepsKnown hwell hvalue hcontent howned hkeep.known
  recorded cell content howns hnot _ := by
    obtain ⟨value, hcell⟩ := howns
    exact absurd ⟨value, howned cell value hcell⟩ hnot

/-- Ranks, indices, bootstrap methods and the layout have no part in it. -/
theorem congr (h : pool.Faithful) (hbinding : ∀ cell, pool'.binding? cell = pool.binding? cell)
    (hsize : pool'.slots.size = pool.slots.size) (horder : pool'.order = pool.order)
    (hvalue : pool'.byValue = pool.byValue) (hcontent : pool'.byContent = pool.byContent) : Continues pool pool' := by
  have hwell := h.toWellBound.congr hbinding horder hvalue hcontent
  exact h.of_keepsContent hwell (by omega) hvalue hcontent (fun cell value hcell => by rw [← hbinding, hcell])
    (h.keepsContent hwell fun cell _ => hbinding cell)

theorem refl (h : pool.Faithful) : Continues pool pool := h.congr (fun _ => rfl) rfl rfl rfl rfl

theorem setRank (h : pool.Faithful) (cell : Cell) (rank : Rank) : Continues pool (pool.setRank cell rank) :=
  h.congr (binding?_setRank pool cell rank) (size_slots_setRank pool cell rank) rfl rfl rfl

theorem pushSlot (h : pool.Faithful) {binding : Binding} (howned : ∀ value, binding ≠ .owned value)
    (halias : ∀ target, binding ≠ .alias target)
    (hname : ∀ kind name, binding = .promised kind name → name.id < pool.slots.size) :
    Continues pool (pool.pushSlot binding) := by
  have hwell := h.toWellBound.pushSlot howned halias hname
  refine h.of_keepsContent hwell (by rw [size_slots_pushSlot]; omega) rfl rfl (fun cell value hcell => ?_)
    (h.keepsContent hwell fun cell hcell => by rw [binding?_pushSlot, if_neg (by omega)])
  rcases cases_of_pushSlot hcell with ⟨-, hb⟩ | hcell
  · exact absurd hb.symm (howned value)
  · exact hcell

end Faithful

/-! ### New entries -/

theorem byValue_addEntry_self (pool : Pool) (value : Constant Cell) :
    (pool.addEntry value).byValue[value]? = some ⟨pool.slots.size⟩ := by
  have hinsert : (pool.addEntry value).byValue = pool.byValue.insert value ⟨pool.slots.size⟩ := rfl
  rw [hinsert, Std.HashMap.getElem?_insert_self]

theorem byValue_addEntry_of_ne {value v : Constant Cell} (hne : v ≠ value) :
    (pool.addEntry value).byValue[v]? = pool.byValue[v]? := by
  have hinsert : (pool.addEntry value).byValue = pool.byValue.insert value ⟨pool.slots.size⟩ := rfl
  rw [hinsert, Std.HashMap.getElem?_insert, if_neg]
  simpa using fun heq : value = v => hne heq.symm

private theorem byContent_addEntry_self {value : Constant Cell} {content : Content}
    (h : pool.contentOf? value = some content) :
    (pool.addEntry value).byContent[content]? = some ⟨pool.slots.size⟩ := by
  have hinsert : (pool.addEntry value).byContent = pool.byContent.insert content ⟨pool.slots.size⟩ := by
    rw [addEntry]
    simp only [h]
  rw [hinsert, Std.HashMap.getElem?_insert_self]

private theorem byContent_addEntry_of_ne {value : Constant Cell} {content : Content}
    (h : pool.contentOf? value ≠ some content) :
    (pool.addEntry value).byContent[content]? = pool.byContent[content]? := by
  rw [addEntry]
  cases hcontent : pool.contentOf? value with
  | none => rfl
  | some found =>
    have hne : found ≠ content := fun heq => h (heq ▸ hcontent)
    simp only [Std.HashMap.getElem?_insert]
    rw [if_neg (by simpa using hne)]

theorem WellBound.keepsContent_addEntry (h : pool.WellBound) {value : Constant Cell} (hzero : value ≠ .zero)
    (hrefs : ∀ ref ∈ value.refs, ref.id < pool.slots.size) : KeepsContent pool (pool.addEntry value) :=
  h.keepsContent (h.addEntry hzero hrefs) fun cell hcell => by rw [binding?_addEntry, if_neg (by omega)]

/-- What a new entry contains is what its constant contains. -/
theorem WellBound.content?_addEntry (h : pool.WellBound) {value : Constant Cell} (hzero : value ≠ .zero)
    (hrefs : ∀ ref ∈ value.refs, ref.id < pool.slots.size) :
    (pool.addEntry value).content? ⟨pool.slots.size⟩ = pool.contentOf? value := by
  have howned : (pool.addEntry value).binding? ⟨pool.slots.size⟩ = some (.owned value) := by
    rw [binding?_addEntry, if_pos rfl]
  rw [content?_of_owned howned, contentOf?_eq, contentOf?_eq]
  exact Constant.content?_congr fun ref href => (h.keepsContent_addEntry hzero hrefs).content? (hrefs ref href)

/-- A constant that the pool does not have may become an entry. -/
theorem Faithful.addEntry (h : pool.Faithful) {value : Constant Cell} (hzero : value ≠ .zero)
    (hrefs : ∀ ref ∈ value.refs, ref.id < pool.slots.size) (hfind : pool.find? value = none) :
    Continues pool (pool.addEntry value) := by
  have hkeep := h.keepsContent_addEntry hzero hrefs
  have hself := h.content?_addEntry hzero hrefs
  -- Neither the constant nor its content was known before.
  rw [find?_eq] at hfind
  cases hvalue : pool.byValue[value]? with
  | some cell =>
    rw [hvalue] at hfind
    cases hfind
  | none =>
    simp only [hvalue] at hfind
    have hcontent : ∀ content, pool.contentOf? value = some content → pool.byContent[content]? = none := by
      intro content hcontent
      rwa [hcontent, Option.bind_some] at hfind
    have hrem : Remembers pool (pool.addEntry value) := by
      refine ⟨by rw [size_slots_addEntry]; omega, hkeep, fun v cell hcell => ?_, fun content cell hcell => ?_⟩
      · rw [byValue_addEntry_of_ne, hcell]
        rintro rfl
        rw [hvalue] at hcell
        cases hcell
      · rw [byContent_addEntry_of_ne, hcell]
        intro hc
        rw [hcontent content hc] at hcell
        cases hcell
    refine ⟨hrem, ⟨h.toWellBound.addEntry hzero hrefs, fun cell v hne hcell => ?_, fun content cell hcell => ?_⟩,
      fun cell content howns hnot hc => ?_⟩
    · rcases cases_of_pushSlot hcell with ⟨hid, hv⟩ | hcell
      · obtain ⟨id⟩ := cell
        obtain rfl : id = pool.slots.size := hid
        obtain rfl := Binding.owned.inj hv
        exact byValue_addEntry_self pool v
      · exact hrem.byValue v cell (h.byValue_of_owned cell v hne hcell)
    · rcases cases_of_byContent_addEntry hcell with ⟨hc, rfl⟩ | hcell
      · rw [hself, hc]
      · exact hkeep.known cell content (h.content?_of_byContent content cell hcell)
    · obtain ⟨v, hcell⟩ := howns
      rcases cases_of_pushSlot hcell with ⟨hid, hv⟩ | hcell
      · obtain ⟨id⟩ := cell
        obtain rfl : id = pool.slots.size := hid
        rw [hself] at hc
        exact byContent_addEntry_self hc
      · exact absurd ⟨v, hcell⟩ hnot

end Pool

end JvmAssembler
