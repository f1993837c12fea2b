import JvmAssembler.Proofs.Pool.Height
import JvmAssembler.Proofs.Pool.Promise
import Mathlib.Data.List.Chain
import Mathlib.Data.List.Perm.Subperm
import Mathlib.Logic.Function.Iterate

/-!
# Recursions that end

Before references are bound, or without references, no cell is inside of itself, so that cells are nested in each other
no deeper than there are cells. Then all recursions of the pool end.

A recursion is given here by its body, in which the answers to the calls inside of it are a parameter. So
`body^[n] answer` makes calls up to a depth of `n`, and takes the answers to deeper ones from `answer`. If its result is
the same whatever the answers are, then the recursion ends before it gets that deep.
-/

namespace JvmAssembler

namespace Pool

variable {pool pool' : Pool} {references : List Reference} {cell : Cell} {value : Constant Cell}

/-- Without references, every cell has a height in a finalized pool as well. -/
theorem Reached.layered (h : Reached pool references) (hnone : references = []) : pool.Layered := by
  induction h with
  | empty => exact .empty
  | step op hreached hcells ih =>
    obtain ⟨rfl, -⟩ := List.append_eq_nil_iff.1 hnone
    exact (ih rfl).apply hreached.faithful hreached.valid hcells (.inr rfl)

/-!
### The bodies

The pool follows aliases, finds contents and resolves cells by these bodies, with an answer of its own where the fuel
runs out (`follow_eq_iterate`, `contentWithin_eq_iterate`, `resolveWithin_eq_iterate`).
-/

/-- Follows an alias, and then whatever `next` follows. -/
def followVia (pool : Pool) (next : Cell → Cell) (cell : Cell) : Cell :=
  match pool.slot? cell with
  | some { binding := .alias target, .. } => next target
  | _ => cell

/-- What a cell contains, if `inner` tells what the cells inside of it contain. -/
def contentVia (pool : Pool) (inner : Cell → Search Content) (cell : Cell) : Search Content :=
  (pool.meaning? cell).elim (.ok none) fun value => value.content inner

/-- What cells contain, to a depth of as many cells as the pool has; `answer` tells what deeper ones contain. -/
def contentFrom (pool : Pool) (answer : Cell → Search Content) : Cell → Search Content :=
  pool.contentVia^[pool.slots.size] answer

/-- Whether two cells are equal by value, if `content` tells what they contain. -/
def sameVia (pool : Pool) (content : Cell → Search Content) (a b : Cell) : Except AssemblyError Bool :=
  let a := pool.canonical a
  let b := pool.canonical b
  if a = b then .ok true
  else do
    let x ← content a
    let y ← content b
    return x.isSome && x = y

/-- The cell that owns an entry equal to a constant, if `content` tells what cells contain. -/
def findVia (pool : Pool) (content : Cell → Search Content) (value : Constant Cell) : Search Cell :=
  match pool.byValue[value]? with
  | some cell => .ok (some cell)
  | none => (value.content content).andThen fun content => .ok pool.byContent[content]?

/-- Resolves a cell, if `inner` resolves the name of a promise and `content` tells what the cells of a pool contain. -/
def resolveVia (content : Pool → Cell → Search Content) (inner : Cell → PoolM Cell) (cell : Cell) : PoolM Cell :=
  fun pool =>
    let owner := pool.canonical cell
    match pool.slot? owner with
    | none => .error (.unresolvedConstant owner) pool
    | some { binding := .owned _, .. } | some { binding := .alias _, .. } => .ok owner pool
    | some { binding := .indexed _ _, .. } =>
      if pool.isFinalized then .error (.unresolvedConstant owner) pool else .ok owner pool
    | some { binding := .promised kind name, .. } =>
      match inner name pool with
      | .error e pool => .error e pool
      | .ok name pool =>
        match pool.findVia (content pool) (.wrapper kind name) with
        | .error e => .error e pool
        | .ok (some target) => .ok target (pool.bind owner target)
        | .ok none =>
          if pool.isFinalized then .error (.unresolvedConstant owner) pool
          else
            let target : Cell := ⟨pool.slots.size⟩
            .ok target ((pool.addEntry (.wrapper kind name)).bind owner target)

theorem follow_eq_iterate (pool : Pool) (fuel : Nat) : pool.follow fuel = pool.followVia^[fuel] id := by
  induction fuel with
  | zero => rfl
  | succ fuel ih =>
    rw [Function.iterate_succ_apply', ← ih]
    rfl

theorem contentWithin_eq_iterate (pool : Pool) (fuel : Nat) :
    pool.contentWithin fuel = pool.contentVia^[fuel] fun _ => .error .endless := by
  induction fuel with
  | zero => rfl
  | succ fuel ih =>
    rw [Function.iterate_succ_apply', ← ih]
    exact funext (contentWithin_succ pool fuel)

theorem resolveWithin_succ (fuel : Nat) : resolveWithin (fuel + 1) = resolveVia content (resolveWithin fuel) := rfl

theorem resolveWithin_eq_iterate (fuel : Nat) :
    resolveWithin fuel = (resolveVia content)^[fuel] fun _ => throw .endless := by
  induction fuel with
  | zero => rfl
  | succ fuel ih => rw [Function.iterate_succ_apply', ← ih, resolveWithin_succ]

/-- An alias leads to an entry, so that a second call finds no alias. -/
theorem WellBound.followVia_eq (h : pool.WellBound) (answer : Cell → Cell) (cell : Cell) :
    pool.followVia^[2] answer cell = pool.canonical cell := by
  have htwo : pool.followVia^[2] answer = pool.followVia (pool.followVia answer) := rfl
  have hstop : ∀ {next : Cell → Cell} {c : Cell}, (∀ target, pool.binding? c ≠ some (.alias target)) →
      pool.followVia next c = c := by
    intro next c hc
    rw [followVia]
    split
    · rename_i hslot
      exact absurd (by rw [binding?, hslot]; rfl) (hc _)
    · rfl
  rw [htwo]
  by_cases halias : ∃ target, pool.binding? cell = some (.alias target)
  · obtain ⟨target, htarget⟩ := halias
    obtain ⟨rank, hslot⟩ := slot?_eq_of_binding? htarget
    obtain ⟨value, hvalue⟩ := h.alias_owns cell target htarget
    rw [canonical_of_alias h htarget, followVia, hslot]
    exact hstop (by simp [hvalue])
  · have hnot : ∀ target, pool.binding? cell ≠ some (.alias target) := fun target ht => halias ⟨target, ht⟩
    rw [canonical_of_not_alias hnot, hstop hnot]

/-! ### Contents -/

/-- If the answers to calls at some depth matter, then cells are nested that deep. -/
theorem exists_chain_of_ne {f g : Cell → Search Content} {n : Nat}
    (h : pool.contentVia^[n] f cell ≠ pool.contentVia^[n] g cell) :
    ∃ cells : List Cell, cells.length = n ∧ (cell :: cells).IsChain pool.Nests := by
  induction n generalizing cell with
  | zero => exact ⟨[], rfl, .singleton cell⟩
  | succ n ih =>
    rw [Function.iterate_succ_apply', Function.iterate_succ_apply', contentVia, contentVia] at h
    cases hvalue : pool.meaning? cell with
    | none => simp [hvalue] at h
    | some value =>
      rw [hvalue, Option.elim_some, Option.elim_some] at h
      obtain ⟨ref, href, hne⟩ : ∃ ref ∈ value.refs, pool.contentVia^[n] f ref ≠ pool.contentVia^[n] g ref := by
        by_contra hall
        push Not at hall
        exact h (Constant.content_congr hall)
      obtain ⟨cells, hlength, hchain⟩ := ih hne
      exact ⟨ref :: cells, by rw [List.length_cons, hlength], .cons_cons ⟨value, hvalue, href⟩ hchain⟩

/-- Without cycles, cells that are nested in each other are different, so that there are not more of them than cells. -/
theorem WellBound.length_lt_of_chain (h : pool.WellBound) (hacyclic : ∀ cell, ¬ Relation.TransGen pool.Nests cell cell)
    (hcell : cell.id < pool.slots.size) {cells : List Cell} (hchain : (cell :: cells).IsChain pool.Nests) :
    cells.length < pool.slots.size := by
  have hpairwise : (cell :: cells).Pairwise (Relation.TransGen pool.Nests) :=
    (hchain.imp fun _ _ => Relation.TransGen.single).pairwise
  have hnodup : ((cell :: cells).map Cell.id).Nodup := by
    rw [List.Nodup, List.pairwise_map]
    refine hpairwise.imp ?_
    rintro ⟨i⟩ ⟨j⟩ hpath heq
    obtain rfl : i = j := heq
    exact hacyclic ⟨i⟩ hpath
  have hrange : (cell :: cells).map Cell.id ⊆ List.range pool.slots.size := by
    intro id hid
    obtain ⟨c, hc, rfl⟩ := List.mem_map.1 hid
    rw [List.mem_range]
    rcases List.mem_cons.1 hc with rfl | hc
    · exact hcell
    · obtain ⟨_, -, value, hvalue, hinner⟩ := Relation.TransGen.tail'_iff.1 ((List.pairwise_cons.1 hpairwise).1 c hc)
      exact h.refs_meaning_lt hvalue hinner
  have hlength := (hnodup.subperm hrange).length_le
  rw [List.length_map, List.length_cons, List.length_range] at hlength
  exact hlength

theorem WellBound.contentFrom_eq (h : pool.WellBound) (hlayered : pool.Layered) (answer : Cell → Search Content)
    (hcell : cell.id < pool.slots.size) : pool.contentFrom answer cell = pool.content cell := by
  rw [content, contentWithin_eq_iterate, Function.iterate_succ_apply]
  by_contra hne
  obtain ⟨cells, hlength, hchain⟩ := exists_chain_of_ne hne
  have hlt := h.length_lt_of_chain hlayered.acyclic hcell hchain
  omega

theorem WellBound.contentOf_via (h : pool.WellBound) (hlayered : pool.Layered) (answer : Cell → Search Content)
    (hrefs : ∀ ref ∈ value.refs, ref.id < pool.slots.size) :
    value.content (pool.contentFrom answer) = pool.contentOf value :=
  Constant.content_congr fun ref href => h.contentFrom_eq hlayered answer (hrefs ref href)

/-! ### Resolving -/

/-- What resolving a cell comes to depends on the cells inside only if the cell is promised. -/
theorem resolveVia_congr {content content' : Pool → Cell → Search Content} {inner inner' : Cell → PoolM Cell}
    (h : ∀ kind name, pool.binding? (pool.canonical cell) = some (.promised kind name) → ∃ owner named,
      inner name pool = .ok owner named ∧ inner' name pool = .ok owner named ∧
        named.findVia (content named) (.wrapper kind owner) = named.findVia (content' named) (.wrapper kind owner)) :
    resolveVia content inner cell pool = resolveVia content' inner' cell pool := by
  rw [resolveVia, resolveVia]
  cases hslot : pool.slot? (pool.canonical cell) with
  | none => rfl
  | some slot =>
    obtain ⟨binding, index, rank⟩ := slot
    rcases binding with value | target | ⟨i, position⟩ | ⟨kind, name⟩
    · rfl
    · rfl
    · rfl
    · have hbinding : pool.binding? (pool.canonical cell) = some (.promised kind name) := by
        rw [binding?, hslot]
        rfl
      obtain ⟨owner, named, hinner, hinner', hfind⟩ := h kind name hbinding
      simp only [hinner, hinner', hfind]

/-- In an open pool names come before the promises of their wrappers, and the pools on the way are as good as the
first. -/
theorem Faithful.resolveVia_eq (h : pool.Faithful) (hlayered : pool.Layered) (hopen : pool.layout = none)
    (unknown : Cell → Search Content) (answer : Cell → PoolM Cell) {n : Nat} (hcell : cell.id < pool.slots.size)
    (hn : cell.id < n) :
    (resolveVia fun pool => pool.contentFrom unknown)^[n] answer cell pool = resolveWithin n cell pool := by
  induction n generalizing cell with
  | zero => omega
  | succ n ih =>
    rw [Function.iterate_succ_apply', resolveWithin_succ]
    refine resolveVia_congr fun kind name hbinding => ?_
    have hself : pool.canonical cell = cell :=
      (h.toWellBound.canonical_cases cell).resolve_right (by simp [Owns, hbinding])
    rw [hself] at hbinding
    have hlt := h.name_lt cell kind name hbinding
    have hname : name.id < pool.slots.size := by omega
    have hfuel : name.id < n := by omega
    have hreturns : ∀ e left, resolveWithin n name pool ≠ .error e left := fun e left herror =>
      (h.resolveWithin_literal hopen hname hfuel).2 e left herror (.inl (hlayered.ends name))
    obtain ⟨owner, named, hrun, hresolves⟩ :=
      (resolveWithin_spec h.toWellBound hopen hname hfuel).resolve_right (by simp [hreturns])
    -- Resolving the name binds promises, which leaves every cell its height, so that contents are still found.
    have hsteps := (resolveWithin_bindSteps h.toWellBound hopen hname hfuel).1
    rw [hrun, PoolOp.left_ok] at hsteps
    refine ⟨owner, named, (ih hname (by omega)).trans hrun, hrun, ?_⟩
    rw [findVia, findVia, hresolves.wellBound.contentOf_via (hlayered.bindSteps h hsteps)]
    · rfl
    · intro ref href
      obtain rfl := List.mem_singleton.1 href
      exact hresolves.target_lt

/-- In a finalized pool, resolving a cell makes no further calls. -/
theorem resolveVia_of_owns (h : pool.Owns (pool.canonical cell)) (content : Pool → Cell → Search Content)
    (inner : Cell → PoolM Cell) : resolveVia content inner cell pool = .ok (pool.canonical cell) pool := by
  obtain ⟨value, hvalue⟩ := h
  obtain ⟨rank, hslot⟩ := slot?_eq_of_binding? hvalue
  rw [resolveVia]
  simp only [hslot]

theorem Reached.resolveVia_eq (h : Reached pool references) (hlayered : pool.Layered) (unknown : Cell → Search Content)
    (answer : Cell → PoolM Cell) (hcell : cell.id < pool.slots.size) :
    (resolveVia fun pool => pool.contentFrom unknown)^[pool.slots.size + 1] answer cell pool = resolve cell pool := by
  cases hlayout : pool.layout with
  | none => exact h.faithful.resolveVia_eq hlayered hlayout unknown answer hcell (by omega)
  | some table =>
    have howns := (h.valid.settled table hlayout).canonical_owns h.valid.wellBound hcell
    rw [Function.iterate_succ_apply', resolveVia_of_owns howns, resolve_of_owns howns]

theorem Reached.resolve_of_layered (h : Reached pool references) (hlayered : pool.Layered)
    (hcell : cell.id < pool.slots.size) : ∃ target pool', resolve cell pool = .ok target pool' := by
  cases hlayout : pool.layout with
  | none =>
    obtain ⟨target, pool', hrun, -⟩ := h.faithful.resolve_of_ends hlayout hcell (hlayered.ends cell)
    exact ⟨target, pool', hrun⟩
  | some table => exact ⟨_, _, h.valid.resolve_of_settled hlayout hcell⟩

/-! ### The result -/

/-- Whatever operations lead to a pool: an alias leads to a cell that owns a constant, so that there is no second one to
follow. If no operation was to give out indices, or no cell of an explicit index was handed out, then no cell is inside
of itself. What a cell or a constant contains, and whether two cells are equal by value, is then found out, without
looking at cells that are nested deeper than the pool has cells; and a cell is resolved without resolving cells that are
nested deeper. -/
theorem recursions_end (h : Reached pool references) :
    (∀ cell target, pool.binding? cell = some (.alias target) → pool.Owns target) ∧
    (∀ answer cell, pool.followVia^[2] answer cell = pool.canonical cell) ∧
    (pool.NeverFinalized ∨ references = [] →
      (∀ cell, ¬ Relation.TransGen pool.Nests cell cell) ∧
      (∀ cell, pool.Ends cell) ∧
      (∀ a b, ∃ same, pool.sameValue a b = .ok same) ∧
      (∀ cell : Cell, cell.id < pool.slots.size → ∃ target pool', resolve cell pool = .ok target pool') ∧
      ∀ unknown : Cell → Search Content,
        (∀ cell : Cell, cell.id < pool.slots.size → pool.contentFrom unknown cell = pool.content cell) ∧
        (∀ value : Constant Cell, (∀ ref ∈ value.refs, ref.id < pool.slots.size) →
          value.content (pool.contentFrom unknown) = pool.contentOf value) ∧
        (∀ a b : Cell, a.id < pool.slots.size → b.id < pool.slots.size →
          pool.sameVia (pool.contentFrom unknown) a b = pool.sameValue a b) ∧
        ∀ (answer : Cell → PoolM Cell) (cell : Cell), cell.id < pool.slots.size →
          (resolveVia fun pool => pool.contentFrom unknown)^[pool.slots.size + 1] answer cell pool =
            resolve cell pool) := by
  have hwell := h.valid.wellBound
  refine ⟨hwell.alias_owns, hwell.followVia_eq, fun hcase => ?_⟩
  have hlayered : pool.Layered := hcase.elim NeverFinalized.layered h.layered
  refine ⟨hlayered.acyclic, hlayered.ends, fun a b => ⟨_, sameValue_of_ends (hlayered.ends _) (hlayered.ends _)⟩,
    fun cell => h.resolve_of_layered hlayered, fun unknown => ⟨fun cell => hwell.contentFrom_eq hlayered unknown,
    fun value => hwell.contentOf_via hlayered unknown, fun a b ha hb => ?_,
    fun answer cell => h.resolveVia_eq hlayered unknown answer⟩⟩
  rw [sameVia, hwell.contentFrom_eq hlayered unknown (hwell.canonical_lt ha),
    hwell.contentFrom_eq hlayered unknown (hwell.canonical_lt hb)]
  rfl

/-- A pool with a text, a promise of its class, and a string that refers to the promise. -/
def promisedInside : Pool :=
  ((Pool.empty.addEntry (.utf8 "A")).pushSlot (.promised .classInfo ⟨1⟩)).addEntry (.wrapper .stringInfo ⟨2⟩)

theorem reached_promisedInside : Reached promisedInside [] := by
  have hutf8 : Reached (Pool.empty.addEntry (.utf8 "A")) [] :=
    Reached.empty.addEntry rfl (find_empty rfl) (by simp) (by simp [Constant.refs])
  have hpromise : Reached ((Pool.empty.addEntry (.utf8 "A")).pushSlot (.promised .classInfo ⟨1⟩)) [] :=
    hutf8.step (.promise .classInfo ⟨1⟩) (by simp [PoolOp.cells, Pool.empty])
  refine hpromise.addEntry rfl ?_ (by simp) (by simp [Constant.refs, Pool.empty])
  have hcontent : ((Pool.empty.addEntry (.utf8 "A")).pushSlot (.promised .classInfo ⟨1⟩)).contentOf
      (.wrapper .stringInfo ⟨2⟩) =
        .ok (some (.unary (.wrapper .stringInfo ()) (.unary (.wrapper .classInfo ()) (.leaf (.utf8 "A"))))) := rfl
  have hvalue : ((Pool.empty.addEntry (.utf8 "A")).pushSlot (.promised .classInfo ⟨1⟩)).byValue =
      Std.HashMap.insert ∅ (.utf8 "A") ⟨1⟩ := rfl
  have htable : ((Pool.empty.addEntry (.utf8 "A")).pushSlot (.promised .classInfo ⟨1⟩)).byContent =
      Std.HashMap.insert ∅ (.leaf (.utf8 "A")) ⟨1⟩ := rfl
  exact find_eq_none (by rw [hvalue]; simp) hcontent (by rw [htable]; simp)

/-- The pool after the promise is bound to a class that is added behind the string. -/
def boundInside : Pool := (PoolOp.resolve ⟨2⟩).apply promisedInside

theorem boundInside_eq : boundInside = (promisedInside.addEntry (.wrapper .classInfo ⟨1⟩)).bind ⟨2⟩ ⟨4⟩ := by
  have hpromised : promisedInside.binding? ⟨2⟩ = some (.promised .classInfo ⟨1⟩) := rfl
  have hname : resolveWithin 4 ⟨1⟩ promisedInside = .ok ⟨1⟩ promisedInside := rfl
  have hopen : promisedInside.isFinalized = false := rfl
  have hcontent : promisedInside.contentOf (.wrapper .classInfo ⟨1⟩) =
      .ok (some (.unary (.wrapper .classInfo ()) (.leaf (.utf8 "A")))) := rfl
  have hvalue : promisedInside.byValue =
      (Std.HashMap.insert ∅ (.utf8 "A") ⟨1⟩).insert (.wrapper .stringInfo ⟨2⟩) ⟨3⟩ := rfl
  have htable : promisedInside.byContent = (Std.HashMap.insert ∅ (.leaf (.utf8 "A")) ⟨1⟩).insert
      (.unary (.wrapper .stringInfo ()) (.unary (.wrapper .classInfo ()) (.leaf (.utf8 "A")))) ⟨3⟩ := rfl
  have hfind : promisedInside.find (.wrapper .classInfo ⟨1⟩) = .ok none :=
    find_eq_none (by simp [hvalue]) hcontent (by simp [htable])
  have hsize : promisedInside.slots.size + 1 = 4 + 1 := rfl
  rw [boundInside, PoolOp.apply, resolve, hsize, resolveWithin_of_promised hpromised]
  simp only [hname, hfind, hopen, Bool.false_eq_true, ↓reduceIte]
  rfl

/-- The string refers to a cell that stands for a later one, and is still found to contain the class. -/
theorem recursions_end_boundInside :
    Reached boundInside [] ∧ boundInside.binding? ⟨2⟩ = some (.alias ⟨4⟩) ∧ boundInside.Nests ⟨3⟩ ⟨2⟩ ∧
      ¬ Relation.TransGen boundInside.Nests ⟨3⟩ ⟨3⟩ ∧
      ∀ unknown, boundInside.contentFrom unknown ⟨3⟩ =
        .ok (some (.unary (.wrapper .stringInfo ()) (.unary (.wrapper .classInfo ()) (.leaf (.utf8 "A"))))) := by
  have hreached : Reached boundInside [] :=
    reached_promisedInside.step (.resolve ⟨2⟩) (by simp [PoolOp.cells, promisedInside, Pool.empty])
  have hbinding : boundInside.binding? ⟨2⟩ = some (.alias ⟨4⟩) := boundInside_eq ▸ rfl
  have hmeaning : boundInside.meaning? ⟨3⟩ = some (.wrapper .stringInfo ⟨2⟩) := boundInside_eq ▸ rfl
  have hsize : boundInside.slots.size = 5 := boundInside_eq ▸ rfl
  have hcontent : boundInside.content ⟨3⟩ =
      .ok (some (.unary (.wrapper .stringInfo ()) (.unary (.wrapper .classInfo ()) (.leaf (.utf8 "A"))))) :=
    boundInside_eq ▸ rfl
  obtain ⟨-, -, hends⟩ := recursions_end hreached
  obtain ⟨hacyclic, -, -, -, hcontents⟩ := hends (.inr rfl)
  refine ⟨hreached, hbinding, ⟨_, hmeaning, by simp [Constant.refs]⟩, hacyclic ⟨3⟩, fun unknown => ?_⟩
  rw [(hcontents unknown).1 ⟨3⟩ (by simp [hsize]), hcontent]

end Pool

end JvmAssembler
