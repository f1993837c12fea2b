import JvmAssembler.Proofs.Pool.OpenStep

/-!
# No cell is inside of itself

A cell stands for a constant that the pool has, or for a promised one, and the constant refers to other cells (`Nests`).
The numbers of the cells do not tell what is inside of what: a promise may be bound to an entry that was added after
cells that refer to the promise. But a promise is bound only to an entry that is nested as deep as the promise
(`IsHeight.find?_eq`), so that every cell has a height, and keeps it (`Layered.openStep`). Binding references may close
a cycle; before that, or without references, no cell is inside of itself, and every search for a content comes to an
end (`Layered.ends`).
-/

namespace JvmAssembler

namespace Constant

variable {value : Constant Cell} {f g : Cell → Nat}

/-- How deep a constant is nested, given how deep its references are. -/
def height (value : Constant Cell) (inner : Cell → Nat) : Nat := (value.refs.map inner).foldr max 0 + 1

theorem height_congr (h : ∀ ref ∈ value.refs, f ref = g ref) : value.height f = value.height g := by
  rw [height, height, List.map_congr_left h]

theorem height_le_succ_iff {n : Nat} : value.height f ≤ n + 1 ↔ ∀ ref ∈ value.refs, f ref ≤ n := by
  rw [height, Nat.add_le_add_iff_right]
  induction value.refs with
  | nil => simp
  | cons ref refs ih => simp [ih]

theorem lt_height {ref : Cell} (h : ref ∈ value.refs) : f ref < value.height f :=
  Nat.lt_succ_of_le (height_le_succ_iff.1 (Nat.le_refl _) ref h)

/-- A constant is nested as deep as what it contains. -/
theorem height_eq_depth {contents : Cell → Option Content} {content : Content}
    (h : value.content? contents = some content)
    (hdepth : ∀ ref part, contents ref = some part → f ref = part.depth) : value.height f = content.depth := by
  have hiff : ∀ n, value.height f ≤ n + 1 ↔ content.depth ≤ n + 1 := by
    intro n
    rw [height_le_succ_iff, Content.depth_le_succ_iff]
    constructor
    · intro hrefs part hpart
      obtain ⟨ref, href, hsome⟩ := exists_ref_of_part h hpart
      rw [← hdepth ref part hsome]
      exact hrefs ref href
    · intro hparts ref href
      obtain ⟨part, hpart, hsome⟩ := exists_part_of_ref h href
      rw [hdepth ref part hsome]
      exact hparts part hpart
  have hpos := content.depth_pos
  have hle := (hiff (content.depth - 1)).2 (by omega)
  have hge := (hiff (value.height f - 1)).1 (by omega)
  have hpos' : 0 < value.height f := Nat.succ_pos _
  omega

end Constant

namespace Pool

variable {pool pool' : Pool} {references : List Reference} {cell : Cell} {value : Constant Cell} {height : Cell → Nat}

/-- The first cell stands for a constant, or promises one, that refers to the second. -/
def Nests (pool : Pool) (outer inner : Cell) : Prop := ∃ value, pool.meaning? outer = some value ∧ inner ∈ value.refs

/-- How deep cells are nested. A cell that stands for an explicit index is not nested. -/
def IsHeight (pool : Pool) (height : Cell → Nat) : Prop :=
  ∀ cell, height cell = (pool.meaning? cell).elim 0 fun value => value.height height

/-- Every cell has a height. -/
def Layered (pool : Pool) : Prop := ∃ height, pool.IsHeight height

namespace IsHeight

theorem eq_of_meaning? (h : pool.IsHeight height) (hvalue : pool.meaning? cell = some value) :
    height cell = value.height height := by
  rw [h cell, hvalue, Option.elim_some]

theorem lt_of_nests (h : pool.IsHeight height) {outer inner : Cell} (hnests : pool.Nests outer inner) :
    height inner < height outer := by
  obtain ⟨value, hvalue, hinner⟩ := hnests
  rw [h.eq_of_meaning? hvalue]
  exact Constant.lt_height hinner

theorem eq_depth (h : pool.IsHeight height) {content : Content} (hcell : pool.content? cell = some content) :
    height cell = content.depth := by
  obtain ⟨fuel, hfuel⟩ := content?_eq_some_iff.1 hcell
  clear hcell
  induction fuel generalizing cell content with
  | zero => cases hfuel
  | succ fuel ih =>
    rw [knownWithin_succ] at hfuel
    obtain ⟨value, hvalue, hcontent⟩ := Option.bind_eq_some_iff.1 hfuel
    rw [h.eq_of_meaning? hvalue]
    exact Constant.height_eq_depth hcontent fun ref part => ih

/-- What is found for a promise is nested as deep as the promise. -/
theorem find?_eq (h : pool.IsHeight height) (hfaithful : pool.Faithful) {target name : Cell} {kind : Wrapper}
    (hcell : pool.binding? cell = some (.promised kind name))
    (hfind : pool.find? (.wrapper kind (pool.canonical name)) = some target) : height target = height cell := by
  have hcontentOf := hfaithful.contentOf?_wrapper hcell
  rw [JvmAssembler.Pool.find?_eq] at hfind
  split at hfind
  · rename_i found hvalue
    obtain rfl := Option.some.inj hfind
    -- The constant itself is found, and its name is nested as deep as the name of the promise.
    have howned := hfaithful.byValue_eq _ _ hvalue
    have hfound : pool.meaning? found = some (.wrapper kind (pool.canonical name)) := by
      rw [meaning?, canonical_of_owns ⟨_, howned⟩, howned]
    have hpromise : pool.meaning? cell = some (.wrapper kind name) := by
      have hself : pool.canonical cell = cell := canonical_of_not_alias (by simp [hcell])
      rw [meaning?, hself, hcell]
    have hname : height (pool.canonical name) = height name := by
      rw [h (pool.canonical name), h name, meaning?, meaning?, hfaithful.canonical_canonical]
    rw [h.eq_of_meaning? hfound, h.eq_of_meaning? hpromise]
    simp [Constant.height, Constant.refs, hname]
  · obtain ⟨content, hcontent, hfound⟩ := Option.bind_eq_some_iff.1 hfind
    rw [h.eq_depth (hfaithful.content?_of_byContent content target hfound),
      h.eq_depth (hcontentOf.symm.trans hcontent)]

end IsHeight

/-! ### Heights stay -/

/-- Heights, where the cell with the number `next` is as high as what it stands for. -/
def extendHeight (pool : Pool) (next : Nat) (height : Cell → Nat) (cell : Cell) : Nat :=
  if cell.id = next then (pool.meaning? cell).elim 0 fun value => value.height height else height cell

theorem meaning?_eq_none (h : pool.slots.size ≤ cell.id) : pool.meaning? cell = none := by
  cases hvalue : pool.meaning? cell with
  | none => rfl
  | some value =>
    have := lt_of_meaning? hvalue
    omega

namespace Layered

theorem empty : Pool.empty.Layered := by
  refine ⟨fun cell => if cell.id = 0 then 1 else 0, fun cell => ?_⟩
  obtain ⟨id⟩ := cell
  cases id with
  | zero => rfl
  | succ id =>
    rw [meaning?_eq_none (show Pool.empty.slots.size ≤ id + 1 from Nat.succ_le_succ (Nat.zero_le id))]
    rfl

theorem congr (h : pool.Layered) (hwell : pool.WellBound) (hwell' : pool'.WellBound)
    (hbinding : ∀ cell, pool'.binding? cell = pool.binding? cell) : pool'.Layered := by
  obtain ⟨height, hheight⟩ := h
  refine ⟨height, fun cell => ?_⟩
  rw [hwell.meaning?_congr hwell' (hbinding cell) (hbinding _), ← hheight]

/-- A new cell refers to earlier ones, so that its height can be told from theirs. -/
theorem grow (h : pool.Layered) (hwell : pool.WellBound) (hwell' : pool'.WellBound) {binding : Binding}
    (hsize : pool'.slots.size = pool.slots.size + 1)
    (hbinding : ∀ cell, pool'.binding? cell = if cell.id = pool.slots.size then some binding else pool.binding? cell)
    (halias : ∀ target, binding ≠ .alias target) : pool'.Layered := by
  obtain ⟨height, hheight⟩ := h
  have hrefs : ∀ value : Constant Cell, (∀ ref ∈ value.refs, ref.id < pool.slots.size) →
      value.height (pool'.extendHeight pool.slots.size height) = value.height height := by
    refine fun value hlt => Constant.height_congr fun ref href => if_neg ?_
    have := hlt ref href
    omega
  refine ⟨pool'.extendHeight pool.slots.size height, fun cell => ?_⟩
  rw [extendHeight]
  rcases Nat.lt_trichotomy cell.id pool.slots.size with hlt | heq | hgt
  · have hmeaning := hwell.meaning?_congr hwell' (show pool'.binding? cell = pool.binding? cell by
      rw [hbinding, if_neg (by omega)]) (by
        have := hwell.canonical_lt hlt
        rw [hbinding, if_neg (by omega)])
    rw [if_neg (by omega), hheight, hmeaning]
    cases hvalue : pool.meaning? cell with
    | none => rfl
    | some value => exact (hrefs value fun ref href => hwell.refs_meaning_lt hvalue href).symm
  · rw [if_pos heq]
    cases hvalue : pool'.meaning? cell with
    | none => rfl
    | some value =>
      have hself : pool'.canonical cell = cell := by
        refine canonical_of_not_alias fun target htarget => halias target ?_
        rw [hbinding, if_pos heq] at htarget
        exact Option.some.inj htarget
      refine (hrefs value fun ref href => ?_).symm
      have hlt := hwell'.refs_lt_canonical hvalue href
      rwa [hself, heq] at hlt
  · rw [if_neg (by omega), hheight, meaning?_eq_none (by omega), meaning?_eq_none (by omega)]
    rfl

/-- Whatever an operation does before indices are given out, every cell has a height. -/
theorem openStep (h : pool.Layered) (hfaithful : pool.Faithful) (hstep : OpenStep pool pool') : pool'.Layered := by
  have hwell := hfaithful.toWellBound
  have hwell' := (hfaithful.openStep hstep).faithful.toWellBound
  cases hstep with
  | @push binding howned halias hname =>
    exact h.grow hwell hwell' (size_slots_pushSlot pool binding) (binding?_pushSlot pool binding) halias
  | @add value hzero hrefs hfind =>
    exact h.grow hwell hwell' (size_slots_addEntry pool value) (binding?_addEntry pool value) (by simp)
  | bind hstep =>
    cases hstep with
    | add hcell =>
      exact h.grow hwell hwell' (size_slots_addEntry pool _) (binding?_addEntry pool _) (by simp)
    | @bind cell target kind name hcell _ hfind =>
      obtain ⟨height, hheight⟩ := h
      -- The same heights do: the cell gets the meaning of an entry that is as high as the cell was.
      refine ⟨height, fun c => ?_⟩
      rw [hwell.meaning?_bind (by simp [Owns, hcell]) (hwell.find?_owns (find?_of_find hfind)) ⟨_, hcell⟩, ← hheight]
      split
      · rename_i heq
        rw [heq, hheight.find?_eq hfaithful hcell (find?_of_find hfind)]
      · rfl
  | rank cell rank => exact h.congr hwell hwell' (binding?_setRank pool cell rank)
  | tables => exact h.congr hwell hwell' fun _ => rfl

theorem openSteps (h : pool.Layered) (hfaithful : pool.Faithful) (hsteps : OpenSteps pool pool') : pool'.Layered := by
  induction hsteps with
  | refl => exact h
  | tail hsteps hstep ih => exact ih.openStep (hfaithful.openSteps hsteps).faithful hstep

theorem bindSteps (h : pool.Layered) (hfaithful : pool.Faithful) (hsteps : Relation.ReflTransGen BindStep pool pool') :
    pool'.Layered :=
  h.openSteps hfaithful (hsteps.lift id fun _ _ => .bind)

theorem acyclic (h : pool.Layered) (cell : Cell) : ¬ Relation.TransGen pool.Nests cell cell := by
  obtain ⟨height, hheight⟩ := h
  have hlt : ∀ {outer inner}, Relation.TransGen pool.Nests outer inner → height inner < height outer := by
    intro outer inner hpath
    induction hpath with
    | single hstep => exact hheight.lt_of_nests hstep
    | tail _ hstep ih => exact Nat.lt_trans (hheight.lt_of_nests hstep) ih
  exact fun hcycle => Nat.lt_irrefl _ (hlt hcycle)

/-- Where no cell is inside of itself, every search for a content comes to an end. -/
theorem ends (h : pool.Layered) (cell : Cell) : pool.Ends cell := by
  rw [ends_iff_not_endless]
  rintro ⟨inner, -, hcycle⟩
  refine h.acyclic inner (hcycle.lift id ?_)
  rintro outer ref ⟨value, before, after, hvalue, hrefs, -⟩
  exact ⟨value, hvalue, by simp [hrefs]⟩

/-- What one operation keeps, if it gives out no indices or there are no references to bind. -/
theorem apply (h : pool.Layered) (hfaithful : pool.Faithful) (hvalid : pool.Valid references) {op : PoolOp}
    (hcells : ∀ cell ∈ op.cells, cell.id < pool.slots.size) (hop : op.isFinalize = false ∨ references = []) :
    (op.apply pool).Layered := by
  cases hfinalize : op.isFinalize with
  | false => exact h.openSteps hfaithful (hvalid.openSteps hcells hfinalize)
  | true =>
    obtain rfl : references = [] := by simpa [hfinalize] using hop
    cases op with
    | finalize warnings =>
      obtain ⟨bound, hsteps, hbinding, -⟩ := hvalid.exists_bound_of_unbound hvalid.unbound_eq_nil warnings
      exact (h.bindSteps hfaithful hsteps).congr (hfaithful.bindSteps hsteps).faithful.toWellBound
        (hvalid.apply hcells).wellBound hbinding
    | _ => cases hfinalize

theorem leads (h : pool.Layered) (hfaithful : pool.Faithful) (hvalid : pool.Valid references) {ops : List PoolOp}
    (hleads : Leads pool ops pool')
    (hops : (∀ op ∈ ops, op.isFinalize = false) ∨ references = [] ∧ ∀ op ∈ ops, op.isReference = false) :
    pool'.Layered :=
  (hleads.keeps (motive := fun mid => mid.Faithful ∧ mid.Layered) hvalid hops ⟨hfaithful, h⟩
    fun hvalid hcells hop ⟨hmid, hlayered⟩ =>
      ⟨(hmid.apply hvalid hcells hop).faithful, hlayered.apply hmid hvalid hcells hop⟩).2

end Layered

/-- Operations that give out no indices, successfully or not, lead from the empty pool to a pool. -/
def NeverFinalized (pool : Pool) : Prop := ∃ ops, Leads .empty ops pool ∧ ∀ op ∈ ops, op.isFinalize = false

theorem NeverFinalized.layered (h : pool.NeverFinalized) : pool.Layered := by
  obtain ⟨ops, hleads, hops⟩ := h
  exact Layered.empty.openSteps .empty (hleads.openSteps Valid.empty hops)

end Pool

end JvmAssembler
