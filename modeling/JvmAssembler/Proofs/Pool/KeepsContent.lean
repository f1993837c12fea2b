import JvmAssembler.Proofs.Pool.Endless

/-!
# Contents that stay

`KeepsContent` says that a change of the pool leaves all contents as they are: what is known, what is not known yet, and
what is looked for without an end. Contents stay when cells are added, and when a cell is bound to another one that is
searched in the same way. `KeepsKnown` says that at least what is known stays.
-/

namespace JvmAssembler.Pool

variable {pool pool' : Pool} {cell : Cell}

/-- The cells of a pool contain in another pool what they contain in this one. -/
def KeepsContent (pool pool' : Pool) : Prop :=
  ∀ cell : Cell, cell.id < pool.slots.size → pool'.content cell = pool.content cell

/-- What is known of the cells of a pool is known of them in another pool. -/
def KeepsKnown (pool pool' : Pool) : Prop :=
  ∀ cell content, pool.content? cell = some content → pool'.content? cell = some content

/-- What a cell stands for may become known, but does not change. -/
theorem keepsKnown_of_meaning
    (h : ∀ cell value, pool.meaning? cell = some value → pool'.meaning? cell = some value) :
    KeepsKnown pool pool' := by
  have hwithin : ∀ fuel cell content, pool.knownWithin fuel cell = some content →
      pool'.knownWithin fuel cell = some content := by
    intro fuel
    induction fuel with
    | zero =>
      intro cell content hcell
      cases hcell
    | succ fuel ih =>
      intro cell content hcell
      rw [knownWithin_succ] at hcell ⊢
      obtain ⟨value, hvalue, hcontent⟩ := Option.bind_eq_some_iff.1 hcell
      rw [h cell value hvalue, Option.bind_some]
      exact Constant.content?_mono hcontent fun ref part _ href => ih ref part href
  intro cell content hcell
  obtain ⟨fuel, hfuel⟩ := content?_eq_some_iff.1 hcell
  exact content?_eq_some_iff.2 ⟨fuel, hwithin fuel cell content hfuel⟩

theorem KeepsContent.content? (h : KeepsContent pool pool') (hcell : cell.id < pool.slots.size) :
    pool'.content? cell = pool.content? cell :=
  congrArg Search.found? (h cell hcell)

theorem KeepsContent.known (h : KeepsContent pool pool') : KeepsKnown pool pool' :=
  fun _ _ hcell => (h.content? (lt_of_content? hcell)).trans hcell

theorem KeepsContent.contentOf (h : KeepsContent pool pool') {value : Constant Cell}
    (hrefs : ∀ ref ∈ value.refs, ref.id < pool.slots.size) : pool'.contentOf value = pool.contentOf value :=
  Constant.content_congr fun ref href => h ref (hrefs ref href)

/-- Searches that take the same course at every depth have the same result. -/
theorem content_eq_of_contentWithin {a b : Cell}
    (h : ∀ fuel, pool'.contentWithin fuel a = pool.contentWithin fuel b) : pool'.content a = pool.content b := by
  have hdeep := h (pool'.slots.size + 1)
  cases hcontent : pool'.content a with
  | ok found =>
    rw [contentWithin_eq_ok (hdeep.symm.trans hcontent)]
  | error e =>
    obtain rfl := contentWithin_error hcontent
    exact ((content_eq_endless_iff.1 hcontent).contentWithin_eq (pool.slots.size + 1)).symm.trans (h _)

/-- Contents stay when no cell comes to stand for something else. -/
theorem WellBound.keepsContent (h : pool.WellBound) (h' : pool'.WellBound)
    (hkeep : ∀ cell : Cell, cell.id < pool.slots.size → pool'.binding? cell = pool.binding? cell) :
    KeepsContent pool pool' := by
  have hmeaning : ∀ cell : Cell, cell.id < pool.slots.size → pool'.meaning? cell = pool.meaning? cell :=
    fun cell hcell => h.meaning?_congr h' (hkeep cell hcell) (hkeep _ (h.canonical_lt hcell))
  have hwithin : ∀ fuel, ∀ cell : Cell, cell.id < pool.slots.size →
      pool'.contentWithin fuel cell = pool.contentWithin fuel cell := by
    intro fuel
    induction fuel with
    | zero => exact fun _ _ => rfl
    | succ fuel ih =>
      intro cell hcell
      rw [contentWithin_succ, contentWithin_succ, hmeaning cell hcell]
      cases hvalue : pool.meaning? cell with
      | none => rfl
      | some value => exact Constant.content_congr fun ref href => ih ref (h.refs_meaning_lt hvalue href)
  exact fun cell hcell => content_eq_of_contentWithin fun fuel => hwithin fuel cell hcell

/-- Contents stay when a cell is bound to one that is searched in the same way. -/
theorem WellBound.keepsContent_bind (h : pool.WellBound) {target : Cell} (hcell : ¬ pool.Owns cell)
    (htarget : pool.Owns target) (hbound : ∃ binding, pool.binding? cell = some binding)
    (hsame : ∀ fuel, pool.contentWithin fuel target = pool.contentWithin fuel cell) :
    KeepsContent pool (pool.bind cell target) := by
  have hmeaning := h.meaning?_bind hcell htarget hbound
  have hwithin : ∀ fuel c, (pool.bind cell target).contentWithin fuel c = pool.contentWithin fuel c := by
    intro fuel
    induction fuel with
    | zero => exact fun _ => rfl
    | succ fuel ih =>
      intro c
      have hinner : (pool.bind cell target).contentWithin fuel = pool.contentWithin fuel := funext ih
      rw [contentWithin_succ, hinner, hmeaning, ← contentWithin_succ]
      by_cases hc : c = cell
      · rw [if_pos hc, hc, hsame]
      · rw [if_neg hc]
  exact fun c _ => content_eq_of_contentWithin fun fuel => hwithin fuel c

end JvmAssembler.Pool
