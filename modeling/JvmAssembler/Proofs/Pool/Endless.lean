import JvmAssembler.Proofs.Pool.Content
import Mathlib.Data.Fintype.Pigeonhole
import Mathlib.Logic.Relation

/-!
# Searches without an end

To find what a cell contains, the pool looks into the references of the constant that the cell stands for, one after
the other, and into a reference only if it is known what those before it contain (`Demands`). The search for the content
of a cell never ends exactly if it comes to a cell whose content is needed to find its own content
(`content_eq_endless_iff`). So it does not matter to what depth references are followed, as long as it is deeper than
the number of cells, and `content_eq` says what the content of a cell is without such a limit.
-/

namespace JvmAssembler.Pool

variable {pool : Pool} {fuel : Nat} {cell : Cell} {content : Content}

/-- To find what the first cell contains, it is looked what the second contains. -/
def Demands (pool : Pool) (outer inner : Cell) : Prop :=
  ∃ value before after, pool.meaning? outer = some value ∧ value.refs = before ++ inner :: after ∧
    ∀ ref ∈ before, ∃ content, pool.content? ref = some content

/-- To find what the cell contains, it is looked what a cell contains that has to be looked into for its own content. -/
def Endless (pool : Pool) (cell : Cell) : Prop :=
  ∃ inner, Relation.ReflTransGen pool.Demands cell inner ∧ Relation.TransGen pool.Demands inner inner

theorem Demands.congr {outer outer' inner : Cell} (h : pool.Demands outer inner)
    (heq : pool.canonical outer' = pool.canonical outer) : pool.Demands outer' inner := by
  obtain ⟨value, before, after, hvalue, hrest⟩ := h
  refine ⟨value, before, after, ?_, hrest⟩
  rw [meaning?, heq, ← hvalue, meaning?]

/-- A search without an end goes on without an end. -/
theorem Endless.exists_demands (h : pool.Endless cell) : ∃ inner, pool.Demands cell inner ∧ pool.Endless inner := by
  obtain ⟨loop, hpath, hcycle⟩ := h
  rcases Relation.ReflTransGen.cases_head hpath with rfl | ⟨inner, hstep, hrest⟩
  · obtain ⟨inner, hstep, hback⟩ := Relation.TransGen.head'_iff.1 hcycle
    exact ⟨inner, hstep, cell, hback, hcycle⟩
  · exact ⟨inner, hstep, loop, hrest, hcycle⟩

/-! ### The depth of a search -/

theorem contentWithin_mono {found : Option Content} (h : pool.contentWithin fuel cell = .ok found) {fuel' : Nat}
    (hle : fuel ≤ fuel') : pool.contentWithin fuel' cell = .ok found := by
  induction fuel generalizing cell found fuel' with
  | zero => cases h
  | succ fuel ih =>
    obtain ⟨more, rfl⟩ : ∃ more, fuel' = more + 1 := ⟨fuel' - 1, by omega⟩
    rw [contentWithin_succ] at h ⊢
    cases hvalue : pool.meaning? cell with
    | none => rwa [hvalue] at h
    | some value =>
      rw [hvalue] at h
      exact Constant.content_ok_mono h fun ref found hfound => ih hfound (by omega)

/-- What is known is not found before it is looked deep enough. -/
theorem contentWithin_of_content? (h : pool.content? cell = some content) (fuel : Nat) :
    pool.contentWithin fuel cell = if content.depth ≤ fuel then .ok (some content) else .error .endless := by
  split
  · rename_i hdepth
    exact Search.found?_eq_some_iff.1 (knownWithin_eq_some_iff.2 ⟨h, hdepth⟩)
  · rename_i hdepth
    cases hfound : pool.contentWithin fuel cell with
    | error e => rw [contentWithin_error hfound]
    | ok found =>
      have hle := contentWithin_mono hfound (Nat.le_max_left fuel (pool.slots.size + 1))
      have hle' := contentWithin_mono (Search.found?_eq_some_iff.1 h) (Nat.le_max_right fuel (pool.slots.size + 1))
      obtain rfl := Except.ok.inj (hle.symm.trans hle')
      exact absurd (depth_le_fuel (Search.found?_eq_some_iff.2 hfound)) hdepth

/-- A search to some depth that fails has looked that deep. -/
private theorem exists_path (h : pool.contentWithin fuel cell = .error .endless) :
    ∃ path : Nat → Cell, path 0 = cell ∧ ∀ i < fuel, pool.Demands (path i) (path (i + 1)) := by
  induction fuel generalizing cell with
  | zero => exact ⟨fun _ => cell, rfl, by simp⟩
  | succ fuel ih =>
    rw [contentWithin_succ] at h
    cases hvalue : pool.meaning? cell with
    | none =>
      rw [hvalue] at h
      cases h
    | some value =>
      rw [hvalue] at h
      obtain ⟨before, inner, after, hrefs, hbefore, hinner⟩ := Constant.content_eq_error_iff.1 h
      obtain ⟨path, hstart, hpath⟩ := ih hinner
      have hknown : ∀ ref ∈ before, ∃ content, pool.content? ref = some content := by
        intro ref href
        obtain ⟨x, hx⟩ := hbefore ref href
        exact ⟨x, content?_eq_some_iff.2 ⟨fuel, Search.found?_eq_some_iff.2 hx⟩⟩
      refine ⟨fun i => if i = 0 then cell else path (i - 1), rfl, fun i hi => ?_⟩
      rcases i with _ | i
      · simpa [hstart] using ⟨value, before, after, hvalue, hrefs, hknown⟩
      · simpa using hpath i (by omega)

private theorem reflTransGen_path {path : Nat → Cell} {n : Nat}
    (h : ∀ i < n, pool.Demands (path i) (path (i + 1))) {i j : Nat} (hij : i ≤ j) (hj : j ≤ n) :
    Relation.ReflTransGen pool.Demands (path i) (path j) := by
  induction j, hij using Nat.le_induction with
  | base => exact .refl
  | succ j hij ih => exact (ih (by omega)).tail (h j (by omega))

/-- If it is looked deeper than there are cells, then it is looked twice into what the same cell contains. -/
private theorem endless_of_contentWithin (h : pool.contentWithin (pool.slots.size + 1) cell = .error .endless) :
    pool.Endless cell := by
  obtain ⟨path, rfl, hpath⟩ := exists_path h
  have howner : ∀ i : Fin (pool.slots.size + 1), (pool.canonical (path i)).id < pool.slots.size := by
    intro i
    obtain ⟨value, -, -, hvalue, -⟩ := hpath i i.isLt
    exact canonical_lt_of_meaning? hvalue
  obtain ⟨i, j, hne, hsame⟩ := Fintype.exists_ne_map_eq_of_card_lt
    (fun i : Fin (pool.slots.size + 1) => (⟨(pool.canonical (path i)).id, howner i⟩ : Fin pool.slots.size)) (by simp)
  wlog hlt : i < j generalizing i j
  · exact this j i hne.symm hsame.symm (lt_of_le_of_ne (not_lt.1 hlt) hne.symm)
  have hcanonical : pool.canonical (path j) = pool.canonical (path i) := by
    have hid : (pool.canonical (path i)).id = (pool.canonical (path j)).id := congrArg Fin.val hsame
    cases hi : pool.canonical (path i)
    cases hj : pool.canonical (path j)
    simp_all
  have hlt' : (i : Nat) + 1 ≤ j := hlt
  have hj := j.isLt
  exact ⟨path (i + 1), reflTransGen_path hpath (Nat.zero_le _) (by omega),
    .tail' (reflTransGen_path hpath hlt' (by omega)) ((hpath i i.isLt).congr hcanonical)⟩

/-- A search without an end does not end at any depth. -/
theorem Endless.contentWithin_eq (h : pool.Endless cell) (fuel : Nat) :
    pool.contentWithin fuel cell = .error .endless := by
  induction fuel generalizing cell with
  | zero => rfl
  | succ fuel ih =>
    obtain ⟨inner, ⟨value, before, after, hvalue, hrefs, hbefore⟩, hinner⟩ := h.exists_demands
    rw [contentWithin_succ, hvalue]
    refine Constant.content_eq_error_iff.2 ?_
    -- It does not get past the first reference that is deeper than it looks.
    by_cases hdeep : ∀ ref ∈ before, ∃ x, pool.contentWithin fuel ref = .ok (some x)
    · exact ⟨before, inner, after, hrefs, hdeep, ih hinner⟩
    · have hone : before.length ≤ 1 := by
        have := value.length_refs_le
        rw [hrefs, List.length_append, List.length_cons] at this
        omega
      rcases before with _ | ⟨first, _ | ⟨second, rest⟩⟩
      · exact absurd (by simp) hdeep
      · obtain ⟨content, hcontent⟩ := hbefore first (by simp)
        have hfirst := contentWithin_of_content? hcontent fuel
        by_cases hdepth : content.depth ≤ fuel
        · exact absurd (by simp [hfirst, hdepth]) hdeep
        · rw [if_neg hdepth] at hfirst
          exact ⟨[], first, inner :: after, hrefs, by simp, hfirst⟩
      · simp at hone

/-- The search for the content of a cell never ends exactly if it comes to a cell whose own content it needs. -/
theorem content_eq_endless_iff : pool.content cell = .error .endless ↔ pool.Endless cell :=
  ⟨endless_of_contentWithin, fun h => h.contentWithin_eq _⟩

theorem contentWithin_eq_ok {found : Option Content} (h : pool.contentWithin fuel cell = .ok found) :
    pool.content cell = .ok found := by
  cases hcontent : pool.content cell with
  | ok found' =>
    have hle := contentWithin_mono h (Nat.le_max_left fuel (pool.slots.size + 1))
    have hle' := contentWithin_mono hcontent (Nat.le_max_right fuel (pool.slots.size + 1))
    exact hle'.symm.trans hle
  | error e =>
    obtain rfl := contentWithin_error hcontent
    rw [(content_eq_endless_iff.1 hcontent).contentWithin_eq] at h
    cases h

/-- What a cell contains is what the constant contains that the cell stands for. -/
theorem content_eq (pool : Pool) (cell : Cell) :
    pool.content cell = (pool.meaning? cell).elim (.ok none) pool.contentOf := by
  have hsucc := contentWithin_succ pool (pool.slots.size + 1) cell
  cases hcontent : pool.content cell with
  | ok found => exact (contentWithin_mono hcontent (Nat.le_succ _)).symm.trans hsucc
  | error e =>
    obtain rfl := contentWithin_error hcontent
    exact ((content_eq_endless_iff.1 hcontent).contentWithin_eq _).symm.trans hsucc

/-! ### Searches that come to an end -/

/-- The search for the content of a cell comes to an end. -/
def Ends (pool : Pool) (cell : Cell) : Prop := ∃ found, pool.content cell = .ok found

theorem Ends.content_eq (h : pool.Ends cell) : pool.content cell = .ok (pool.content? cell) := by
  obtain ⟨found, hfound⟩ := h
  rw [content?, hfound]
  rfl

theorem ends_iff : pool.Ends cell ↔ pool.content cell ≠ .error .endless := by
  rw [Ends]
  cases hcontent : pool.content cell with
  | ok found => simp
  | error e => simp [contentWithin_error hcontent]

/-- Whether two cells are equal by value, if it is found out what they contain. -/
theorem sameValue_of_ends {a b : Cell} (ha : pool.Ends (pool.canonical a)) (hb : pool.Ends (pool.canonical b)) :
    pool.sameValue a b = .ok (pool.canonical a = pool.canonical b ||
      (pool.content? (pool.canonical a)).isSome &&
        pool.content? (pool.canonical a) = pool.content? (pool.canonical b)) := by
  rw [sameValue]
  by_cases heq : pool.canonical a = pool.canonical b
  · simp [heq]
  · simp only [heq, ↓reduceIte, decide_false, Bool.false_or, ha.content_eq, hb.content_eq]
    rfl

/-- Where all searches come to an end, so does the search for an equal entry. -/
theorem find_of_ends (h : ∀ cell, pool.Ends cell) (value : Constant Cell) :
    pool.find value = .ok (pool.find? value) := by
  cases hfind : pool.find value with
  | ok found => rw [find?_of_find hfind]
  | error e =>
    obtain ⟨-, -, hcontent⟩ := find_eq_error hfind
    obtain ⟨-, ref, -, -, -, href⟩ := Constant.content_eq_error_iff.1 hcontent
    exact absurd href (ends_iff.1 (h ref))

theorem ends_iff_not_endless : pool.Ends cell ↔ ¬ pool.Endless cell := by
  rw [ends_iff, ne_eq, content_eq_endless_iff]

end JvmAssembler.Pool
