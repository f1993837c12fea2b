import JvmAssembler.Proofs.Pool.Resolve
import Mathlib.Data.Fintype.Card

/-!
# The contents of cells

What a cell contains is computed to a limited depth. The limit never matters to what is known: the cells on the way down
to the innermost part have contents of different depths, so that there are no more of them than cells (`depth_le_size`).
Hence `content?_eq`, which says what a cell contains without a limit: the constant that the cell stands for, and in
it what the references contain.
-/

namespace JvmAssembler

namespace Content

/-- How deep a content is nested. -/
def depth : Content → Nat
  | leaf _ => 1
  | unary _ inner => inner.depth + 1
  | binary _ first second => max first.depth second.depth + 1

/-- The contents directly inside of a content. -/
def parts : Content → List Content
  | leaf _ => []
  | unary _ inner => [inner]
  | binary _ first second => [first, second]

theorem depth_le_succ_iff {content : Content} {n : Nat} :
    content.depth ≤ n + 1 ↔ ∀ part ∈ content.parts, part.depth ≤ n := by
  cases content <;> simp [depth, parts]

theorem depth_pos (content : Content) : 0 < content.depth := by
  cases content <;> simp [depth]

theorem exists_part {content : Content} {d : Nat} (h : d + 1 < content.depth) :
    ∃ part ∈ content.parts, d < part.depth := by
  by_contra hnone
  push Not at hnone
  have := depth_le_succ_iff.2 hnone
  omega

end Content

namespace Constant

/-- The content of a constant, given what is known of its references. -/
def content? (value : Constant Cell) (inner : Cell → Option Content) : Option Content :=
  match value.refs with
  | [] => some (.leaf value.shape)
  | [a] => (inner a).map (.unary value.shape ·)
  | a :: b :: _ => do return .binary value.shape (← inner a) (← inner b)

theorem found?_content (value : Constant Cell) (inner : Cell → Search Content) :
    (value.content inner).found? = value.content? fun ref => (inner ref).found? := by
  unfold content content?
  rcases value.refs with _ | ⟨a, _ | ⟨b, rest⟩⟩
  · rfl
  · simp only [Search.found?_andThen, Option.map_eq_bind]
    rfl
  · simp only [Search.found?_andThen]
    rfl

variable {f g : Cell → Option Content} {value : Constant Cell} {content : Content}

theorem content?_congr (h : ∀ ref ∈ value.refs, f ref = g ref) : value.content? f = value.content? g := by
  unfold content?
  split
  · rfl
  · rename_i a hrefs
    rw [h a (by simp [hrefs])]
  · rename_i a b rest hrefs
    rw [h a (by simp [hrefs]), h b (by simp [hrefs])]

/-- What a constant contains is what its references contain. -/
theorem exists_ref_of_part (h : value.content? f = some content) {part : Content} (hpart : part ∈ content.parts) :
    ∃ ref ∈ value.refs, f ref = some part := by
  unfold content? at h
  split at h
  · obtain rfl := Option.some.inj h
    cases hpart
  · rename_i a hrefs
    obtain ⟨inner, hinner, rfl⟩ := Option.map_eq_some_iff.1 h
    obtain rfl := List.mem_singleton.1 hpart
    exact ⟨a, by simp [hrefs], hinner⟩
  · rename_i a b rest hrefs
    simp only [Option.bind_eq_bind, Option.bind_eq_some_iff, Option.pure_def, Option.some.injEq] at h
    obtain ⟨first, hfirst, second, hsecond, rfl⟩ := h
    rcases List.mem_cons.1 hpart with rfl | hpart
    · exact ⟨a, by simp [hrefs], hfirst⟩
    · obtain rfl := List.mem_singleton.1 hpart
      exact ⟨b, by simp [hrefs], hsecond⟩

/-- Each reference of a constant contains a part of what the constant contains. -/
theorem exists_part_of_ref (h : value.content? f = some content) {ref : Cell} (href : ref ∈ value.refs) :
    ∃ part ∈ content.parts, f ref = some part := by
  have htwo : value.refs.length ≤ 2 := by cases value <;> simp [refs]
  unfold content? at h
  split at h
  · rename_i hrefs
    rw [hrefs] at href
    cases href
  · rename_i a hrefs
    obtain ⟨inner, hinner, rfl⟩ := Option.map_eq_some_iff.1 h
    rw [hrefs] at href
    obtain rfl := List.mem_singleton.1 href
    exact ⟨inner, by simp [Content.parts], hinner⟩
  · rename_i a b rest hrefs
    simp only [Option.bind_eq_bind, Option.bind_eq_some_iff, Option.pure_def, Option.some.injEq] at h
    obtain ⟨first, hfirst, second, hsecond, rfl⟩ := h
    have hrest : rest = [] := by
      rw [hrefs, List.length_cons, List.length_cons] at htwo
      exact List.length_eq_zero_iff.1 (by omega)
    rw [hrefs, hrest] at href
    rcases List.mem_cons.1 href with rfl | href
    · exact ⟨first, by simp [Content.parts], hfirst⟩
    · obtain rfl := List.mem_singleton.1 href
      exact ⟨second, by simp [Content.parts], hsecond⟩

/-- A constant contains something if all of its references do. -/
theorem exists_content? (h : ∀ ref ∈ value.refs, ∃ part, f ref = some part) :
    ∃ content, value.content? f = some content := by
  unfold content?
  split
  · exact ⟨_, rfl⟩
  · rename_i a hrefs
    obtain ⟨part, hpart⟩ := h a (by simp [hrefs])
    exact ⟨_, by rw [hpart]; rfl⟩
  · rename_i a b rest hrefs
    obtain ⟨first, hfirst⟩ := h a (by simp [hrefs])
    obtain ⟨second, hsecond⟩ := h b (by simp [hrefs])
    exact ⟨_, by rw [hfirst, hsecond]; rfl⟩

/-- Only the parts of the content have to be known again. -/
theorem content?_mono (h : value.content? f = some content)
    (hg : ∀ ref part, part ∈ content.parts → f ref = some part → g ref = some part) :
    value.content? g = some content := by
  unfold content? at h ⊢
  split at h
  · exact h
  · rename_i a hrefs
    obtain ⟨inner, hinner, rfl⟩ := Option.map_eq_some_iff.1 h
    rw [hg a inner (by simp [Content.parts]) hinner]
    rfl
  · rename_i a b rest hrefs
    simp only [Option.bind_eq_bind, Option.bind_eq_some_iff, Option.pure_def, Option.some.injEq] at h
    obtain ⟨first, hfirst, second, hsecond, rfl⟩ := h
    rw [hg a first (by simp [Content.parts]) hfirst, hg b second (by simp [Content.parts]) hsecond]
    rfl

end Constant

namespace Pool

variable {pool pool' : Pool} {fuel : Nat} {cell : Cell} {content : Content}

/-- The constant that a cell stands for, whether or not the pool has it yet. -/
def meaning? (pool : Pool) (cell : Cell) : Option (Constant Cell) :=
  match pool.binding? (pool.canonical cell) with
  | some (.owned value) => some value
  | some (.promised kind name) => some (.wrapper kind name)
  | _ => none

theorem contentWithin_succ (pool : Pool) (fuel : Nat) (cell : Cell) :
    pool.contentWithin (fuel + 1) cell =
      (pool.meaning? cell).elim (.ok none) fun value => value.content (pool.contentWithin fuel) := by
  rw [contentWithin, meaning?, binding?]
  cases pool.slot? (pool.canonical cell) with
  | none => rfl
  | some slot =>
    obtain ⟨binding, index, rank⟩ := slot
    cases binding <;> rfl

/-- What is known of the content of a cell, to a depth of less than `fuel`. -/
def knownWithin (pool : Pool) (fuel : Nat) (cell : Cell) : Option Content := (pool.contentWithin fuel cell).found?

theorem knownWithin_succ (pool : Pool) (fuel : Nat) (cell : Cell) :
    pool.knownWithin (fuel + 1) cell =
      (pool.meaning? cell).bind fun value => value.content? (pool.knownWithin fuel) := by
  rw [knownWithin, contentWithin_succ]
  cases pool.meaning? cell with
  | none => rfl
  | some value => exact value.found?_content _

theorem contentOf?_eq (pool : Pool) (value : Constant Cell) : pool.contentOf? value = value.content? pool.content? :=
  value.found?_content _

/-! ### The limit of the depth -/

theorem depth_le_fuel (h : pool.knownWithin fuel cell = some content) : content.depth ≤ fuel := by
  induction fuel generalizing cell content with
  | zero => cases h
  | succ fuel ih =>
    rw [knownWithin_succ] at h
    obtain ⟨value, -, hcontent⟩ := Option.bind_eq_some_iff.1 h
    refine Content.depth_le_succ_iff.2 fun part hpart => ?_
    obtain ⟨ref, -, href⟩ := Constant.exists_ref_of_part hcontent hpart
    exact ih href

theorem knownWithin_of_depth_le (h : pool.knownWithin fuel cell = some content) {fuel' : Nat}
    (hdepth : content.depth ≤ fuel') : pool.knownWithin fuel' cell = some content := by
  induction fuel generalizing cell content fuel' with
  | zero => cases h
  | succ fuel ih =>
    cases fuel' with
    | zero =>
      have := content.depth_pos
      omega
    | succ fuel' =>
      rw [knownWithin_succ] at h ⊢
      obtain ⟨value, hvalue, hcontent⟩ := Option.bind_eq_some_iff.1 h
      rw [hvalue, Option.bind_some]
      refine Constant.content?_mono hcontent fun ref part hpart href => ih href ?_
      exact Content.depth_le_succ_iff.1 hdepth part hpart

/-- On the way down there are contents of every smaller depth. -/
private theorem exists_of_depth (h : pool.knownWithin fuel cell = some content) {d : Nat} (hd : d < content.depth) :
    ∃ inner fuel' part, pool.knownWithin fuel' inner = some part ∧ part.depth = d + 1 := by
  induction fuel generalizing cell content with
  | zero => cases h
  | succ fuel ih =>
    by_cases hlast : content.depth = d + 1
    · exact ⟨cell, fuel + 1, content, h, hlast⟩
    · obtain ⟨part, hpart, hlt⟩ := Content.exists_part (show d + 1 < content.depth by omega)
      rw [knownWithin_succ] at h
      obtain ⟨value, -, hcontent⟩ := Option.bind_eq_some_iff.1 h
      obtain ⟨ref, -, href⟩ := Constant.exists_ref_of_part hcontent hpart
      exact ih href hlt

/-- A cell that stands for a constant stands for a cell of the pool. -/
theorem canonical_lt_of_meaning? {value : Constant Cell} (h : pool.meaning? cell = some value) :
    (pool.canonical cell).id < pool.slots.size := by
  cases hbinding : pool.binding? (pool.canonical cell) with
  | none =>
    rw [meaning?, hbinding] at h
    cases h
  | some binding => exact lt_of_binding? hbinding

private theorem canonical_lt (h : pool.knownWithin fuel cell = some content) :
    (pool.canonical cell).id < pool.slots.size := by
  cases fuel with
  | zero => cases h
  | succ fuel =>
    rw [knownWithin_succ] at h
    obtain ⟨value, hvalue, -⟩ := Option.bind_eq_some_iff.1 h
    exact canonical_lt_of_meaning? hvalue

theorem contentWithin_congr {a b : Cell} (h : pool.canonical a = pool.canonical b) (fuel : Nat) :
    pool.contentWithin fuel a = pool.contentWithin fuel b := by
  cases fuel with
  | zero => rfl
  | succ fuel => rw [contentWithin_succ, contentWithin_succ, meaning?, meaning?, h]

/-- No content is deeper than the number of cells. -/
theorem depth_le_size (h : pool.knownWithin fuel cell = some content) : content.depth ≤ pool.slots.size := by
  have hall : ∀ d : Fin content.depth, ∃ inner, (∃ fuel' part, pool.knownWithin fuel' inner = some part ∧
      part.depth = d.val + 1) := fun d => exists_of_depth h d.isLt
  choose inner hinner using hall
  choose fuels parts hparts hdepths using hinner
  -- Cells that stand for the same have contents of the same depth, so cells of different depths differ.
  let owner : Fin content.depth → Fin pool.slots.size :=
    fun d => ⟨(pool.canonical (inner d)).id, canonical_lt (hparts d)⟩
  have hinjective : Function.Injective owner := by
    intro d d' heq
    have hid : (pool.canonical (inner d)).id = (pool.canonical (inner d')).id := congrArg Fin.val heq
    have hcanonical : pool.canonical (inner d) = pool.canonical (inner d') := by
      cases hc : pool.canonical (inner d)
      cases hc' : pool.canonical (inner d')
      simp_all
    have hpart := knownWithin_of_depth_le (hparts d) (Nat.le_max_left _ (parts d').depth)
    have hpart' := knownWithin_of_depth_le (hparts d') (Nat.le_max_right (parts d).depth _)
    rw [knownWithin, contentWithin_congr hcanonical, ← knownWithin, hpart'] at hpart
    have hsame : parts d' = parts d := Option.some.inj hpart
    have hd := hdepths d
    have hd' := hdepths d'
    rw [hsame] at hd'
    exact Fin.ext (by omega)
  simpa using Fintype.card_le_of_injective owner hinjective

theorem content?_eq_some_iff : pool.content? cell = some content ↔ ∃ fuel, pool.knownWithin fuel cell = some content :=
  ⟨fun h => ⟨_, h⟩, fun ⟨_, h⟩ => knownWithin_of_depth_le h (Nat.le_succ_of_le (depth_le_size h))⟩

theorem knownWithin_eq_some_iff :
    pool.knownWithin fuel cell = some content ↔ pool.content? cell = some content ∧ content.depth ≤ fuel :=
  ⟨fun h => ⟨content?_eq_some_iff.2 ⟨fuel, h⟩, depth_le_fuel h⟩, fun h => knownWithin_of_depth_le h.1 h.2⟩

/-- What a cell contains is what the constant contains that the cell stands for. -/
theorem content?_eq (pool : Pool) (cell : Cell) : pool.content? cell = (pool.meaning? cell).bind pool.contentOf? := by
  ext content
  constructor
  · intro h
    obtain ⟨fuel, hfuel⟩ := content?_eq_some_iff.1 h
    cases fuel with
    | zero => cases hfuel
    | succ fuel =>
      rw [knownWithin_succ] at hfuel
      obtain ⟨value, hvalue, hcontent⟩ := Option.bind_eq_some_iff.1 hfuel
      rw [hvalue, Option.bind_some, contentOf?_eq]
      exact Constant.content?_mono hcontent fun ref part _ href => content?_eq_some_iff.2 ⟨fuel, href⟩
  · intro h
    refine content?_eq_some_iff.2 ⟨pool.slots.size + 1 + 1, ?_⟩
    rw [knownWithin_succ]
    simp only [contentOf?_eq] at h
    exact h

theorem content_canonical {a b : Cell} (h : pool.canonical a = pool.canonical b) : pool.content a = pool.content b :=
  contentWithin_congr h _

theorem content?_canonical {a b : Cell} (h : pool.canonical a = pool.canonical b) :
    pool.content? a = pool.content? b :=
  congrArg Search.found? (content_canonical h)

theorem meaning?_of_indexed {index : UInt16} {position : Nat}
    (h : pool.binding? cell = some (.indexed index position)) : pool.meaning? cell = none := by
  have hself : pool.canonical cell = cell := canonical_of_not_alias (by simp [h])
  rw [meaning?, hself, h]

theorem meaning?_of_owned {value : Constant Cell} (h : pool.binding? cell = some (.owned value)) :
    pool.meaning? cell = some value := by
  rw [meaning?, canonical_of_owns ⟨value, h⟩, h]

theorem meaning?_of_promised {kind : Wrapper} {name : Cell} (h : pool.binding? cell = some (.promised kind name)) :
    pool.meaning? cell = some (.wrapper kind name) := by
  have hself : pool.canonical cell = cell := canonical_of_not_alias (by simp [h])
  rw [meaning?, hself, h]

theorem lt_of_meaning? {value : Constant Cell} (h : pool.meaning? cell = some value) : cell.id < pool.slots.size := by
  by_contra hout
  have hbinding : pool.binding? cell = none := binding?_eq_none_iff.2 (by omega)
  have hcanonical : pool.canonical cell = cell := canonical_of_not_alias (by simp [hbinding])
  rw [meaning?, hcanonical, hbinding] at h
  cases h

theorem lt_of_content? (h : pool.content? cell = some content) : cell.id < pool.slots.size := by
  rw [content?_eq] at h
  obtain ⟨value, hvalue, -⟩ := Option.bind_eq_some_iff.1 h
  exact lt_of_meaning? hvalue

/-! ### What cells stand for -/

theorem WellBound.canonical_lt (h : pool.WellBound) (hcell : cell.id < pool.slots.size) :
    (pool.canonical cell).id < pool.slots.size := by
  rcases h.canonical_cases cell with hself | ⟨value, hvalue⟩
  · rwa [hself]
  · exact lt_of_binding? hvalue

theorem WellBound.canonical_canonical (h : pool.WellBound) (cell : Cell) :
    pool.canonical (pool.canonical cell) = pool.canonical cell := by
  rcases h.canonical_cases cell with hself | howns
  · rw [hself, hself]
  · exact canonical_of_owns howns

theorem WellBound.canonical_congr (h : pool.WellBound) (h' : pool'.WellBound)
    (hcell : pool'.binding? cell = pool.binding? cell) : pool'.canonical cell = pool.canonical cell := by
  by_cases halias : ∃ target, pool.binding? cell = some (.alias target)
  · obtain ⟨target, htarget⟩ := halias
    rw [canonical_of_alias h htarget, canonical_of_alias h' (hcell.trans htarget)]
  · rw [canonical_of_not_alias fun target ht => halias ⟨target, ht⟩,
      canonical_of_not_alias fun target ht => halias ⟨target, hcell.symm.trans ht⟩]

/-- A constant that a cell stands for refers to cells before the one that owns it, or promises it. -/
theorem WellBound.refs_lt_canonical (h : pool.WellBound) {value : Constant Cell}
    (hvalue : pool.meaning? cell = some value) {ref : Cell} (href : ref ∈ value.refs) :
    ref.id < (pool.canonical cell).id := by
  rw [meaning?] at hvalue
  split at hvalue
  · rename_i v hbinding
    obtain rfl := Option.some.inj hvalue
    exact h.refs_lt _ _ hbinding ref href
  · rename_i kind name hbinding
    obtain rfl := Option.some.inj hvalue
    obtain rfl := List.mem_singleton.1 href
    exact h.name_lt _ _ _ hbinding
  · cases hvalue

/-- A constant that a cell stands for refers to cells of the pool. -/
theorem WellBound.refs_meaning_lt (h : pool.WellBound) {value : Constant Cell}
    (hvalue : pool.meaning? cell = some value) {ref : Cell} (href : ref ∈ value.refs) :
    ref.id < pool.slots.size := by
  have hlt := h.refs_lt_canonical hvalue href
  have howner := h.canonical_lt (lt_of_meaning? hvalue)
  omega

theorem WellBound.meaning?_congr (h : pool.WellBound) (h' : pool'.WellBound)
    (hcell : pool'.binding? cell = pool.binding? cell)
    (howner : pool'.binding? (pool.canonical cell) = pool.binding? (pool.canonical cell)) :
    pool'.meaning? cell = pool.meaning? cell := by
  rw [meaning?, meaning?, h.canonical_congr h' hcell, howner]

/-- What a promised cell stands for once it is bound. -/
theorem WellBound.canonical_bind (h : pool.WellBound) {target : Cell} (hcell : ¬ pool.Owns cell)
    (htarget : pool.Owns target) (c : Cell) (hc : c ≠ cell) :
    (pool.bind cell target).canonical c = pool.canonical c ∧ (pool.canonical c ≠ cell) := by
  refine ⟨h.canonical_congr (h.bind hcell htarget) (binding?_bind_of_ne hcell htarget hc), ?_⟩
  rcases h.canonical_cases c with hself | howns
  · rwa [hself]
  · rintro rfl
    exact hcell howns

/-- A cell that is bound stands for what the other cell stands for. -/
theorem WellBound.meaning?_bind (h : pool.WellBound) {target : Cell} (hcell : ¬ pool.Owns cell)
    (htarget : pool.Owns target) (hbound : ∃ binding, pool.binding? cell = some binding) (c : Cell) :
    (pool.bind cell target).meaning? c = pool.meaning? (if c = cell then target else c) := by
  have hwell := h.bind hcell htarget
  by_cases hc : c = cell
  · subst hc
    obtain ⟨binding, hbinding⟩ := hbound
    have halias := binding?_bind_self hbinding hcell htarget
    have hne : target ≠ c := fun heq => hcell (heq ▸ htarget)
    rw [if_pos rfl, meaning?, meaning?, canonical_of_alias hwell halias, canonical_of_owns htarget,
      binding?_bind_of_ne hcell htarget hne]
  · obtain ⟨hcanonical, hnot⟩ := h.canonical_bind hcell htarget c hc
    rw [if_neg hc, meaning?, meaning?, hcanonical, binding?_bind_of_ne hcell htarget hnot]

end Pool

end JvmAssembler
