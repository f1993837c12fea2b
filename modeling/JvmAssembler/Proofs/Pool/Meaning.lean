import JvmAssembler.Proofs.Pool.Decision
import JvmAssembler.Proofs.Pool.Stability
import Mathlib.Data.List.Perm.Basic

/-!
# Resolving keeps what cells mean

A cell that is resolved stands for an entry from then on, and for the same one. Resolving adds no content that was not
in the pool before (`AddsNoContent`): the wrapper that is added for a promise contains what the promise contained. So,
if there are no references, the entries of the finalized pool are the contents of the cells that were handed out,
whether or not some of the cells were resolved first (`perm_contents`).
-/

namespace JvmAssembler.Pool

variable {pool pool' bound bound' : Pool} {references : List Reference} {ops : List PoolOp} {cell target : Cell}

/-! ### Aliases lead to entries -/

/-- No cell is an alias of the zero cell. -/
def AvoidsZero (pool : Pool) : Prop := ∀ cell target, pool.binding? cell = some (.alias target) → target ≠ .zero

theorem WellBound.content?_zero (h : pool.WellBound) : pool.content? .zero = some (.leaf .zero) :=
  content?_of_owned h.zero

/-- What is found for a constant other than zero is not the zero cell. -/
theorem Faithful.find?_ne_zero (h : pool.Faithful) {value : Constant Cell} (hvalue : value ≠ .zero)
    (hfind : pool.find? value = some target) : target ≠ .zero := by
  rintro rfl
  have hcontent := h.content?_find? hfind
  rw [h.content?_zero, contentOf?_eq] at hcontent
  exact hvalue (Constant.eq_zero_of_content? hcontent.symm)

namespace AvoidsZero

theorem empty : Pool.empty.AvoidsZero := by
  rintro ⟨id⟩ target h
  have hlt : id < 1 := lt_of_binding? h
  obtain rfl : id = 0 := by omega
  cases h

theorem congr (h : pool.AvoidsZero) (hbinding : ∀ cell, pool'.binding? cell = pool.binding? cell) :
    pool'.AvoidsZero :=
  fun cell target hcell => h cell target (hbinding cell ▸ hcell)

theorem pushSlot (h : pool.AvoidsZero) {binding : Binding} (hbinding : ∀ target, binding ≠ .alias target) :
    (pool.pushSlot binding).AvoidsZero := by
  intro cell target hcell
  rcases cases_of_pushSlot hcell with ⟨-, hnew⟩ | hcell
  · exact absurd hnew.symm (hbinding target)
  · exact h cell target hcell

theorem addEntry (h : pool.AvoidsZero) (value : Constant Cell) : (pool.addEntry value).AvoidsZero := by
  intro cell target hcell
  rcases cases_of_pushSlot hcell with ⟨-, hnew⟩ | hcell
  · cases hnew
  · exact h cell target hcell

theorem bindStep (h : pool.AvoidsZero) (hfaithful : pool.Faithful) (hstep : BindStep pool pool') :
    pool'.AvoidsZero := by
  cases hstep with
  | add => exact h.addEntry _
  | @bind cell target kind name hcell _ hfind =>
    have hfind := find?_of_find hfind
    have htarget := hfaithful.find?_owns hfind
    intro c t hc
    rcases cases_of_bind (not_owns_of_isPending hcell rfl) htarget hc with ⟨-, halias⟩ | hc
    · obtain rfl := Binding.alias.inj halias
      exact hfaithful.find?_ne_zero (by simp) hfind
    · exact h c t hc

theorem openSteps (h : pool.AvoidsZero) (hfaithful : pool.Faithful) (hsteps : OpenSteps pool pool') :
    pool'.AvoidsZero := by
  induction hsteps with
  | refl => exact h
  | @tail mid last hsteps hstep ih =>
    have hmid := (hfaithful.openSteps hsteps).faithful
    cases hstep with
    | push _ halias _ => exact ih.pushSlot halias
    | add => exact ih.addEntry _
    | bind hstep => exact ih.bindStep hmid hstep
    | rank cell rank => exact ih.congr (binding?_setRank mid cell rank)
    | tables => exact ih.congr fun _ => rfl

end AvoidsZero

/-- A pool stays open until indices are given out. -/
theorem layout_of_openSteps (hsteps : OpenSteps pool pool') : pool'.layout = pool.layout := by
  induction hsteps with
  | refl => rfl
  | tail _ hstep ih =>
    rw [← ih]
    cases hstep with
    | bind hstep =>
      cases hstep with
      | add => rfl
      | @bind cell target _ _ _ _ _ => rw [(bind_eq _ cell target).1]
    | _ => rfl

/-! ### What a resolved cell stands for -/

/-- A cell that is resolved and is not of an explicit index is bound. -/
theorem Resolves.decided (h : Resolves pool cell target pool') (hcell : cell.id < pool.slots.size)
    (hindexed : ∀ index position, pool.binding? cell ≠ some (.indexed index position)) :
    ∃ binding, pool'.binding? cell = some binding ∧ binding.isPending = false := by
  have hsize := h.extends_.size_le
  obtain ⟨binding, hbinding⟩ := exists_binding? (show cell.id < pool'.slots.size by omega)
  refine ⟨binding, hbinding, ?_⟩
  rcases binding with value | other | ⟨index, position⟩ | ⟨kind, name⟩
  · rfl
  · rfl
  · exact absurd (h.extends_.indexed_iff.1 hbinding) (hindexed index position)
  · exact absurd hbinding (h.bound kind name)

/-- What a bound cell stands for owns an entry, unless the cell is the zero cell. -/
theorem WellBound.canonical_mem_order (h : pool.WellBound) (hzero : pool.AvoidsZero) {binding : Binding}
    (hcell : pool.binding? cell = some binding) (hdecided : binding.isPending = false) (hne : cell ≠ .zero) :
    pool.canonical cell ∈ pool.order.toList := by
  rcases binding with value | target | ⟨index, position⟩ | ⟨kind, name⟩
  · have howns : pool.Owns cell := ⟨value, hcell⟩
    rw [canonical_of_owns howns]
    exact (h.mem_order cell).2 ⟨hne, howns⟩
  · rw [canonical_of_alias h hcell]
    exact (h.mem_order target).2 ⟨hzero cell target hcell, h.alias_owns cell target hcell⟩
  · cases hdecided
  · cases hdecided

/-- A bound cell stands for the same entry ever after, and resolving it again does nothing. -/
theorem Valid.stands (h : pool.Valid references) (hnumbered : pool.Numbered) {binding : Binding}
    (hcell : pool.binding? cell = some binding) (hdecided : binding.isPending = false)
    (howns : pool.Owns (pool.canonical cell)) {more : List PoolOp} {later : Pool} (hlater : Leads pool more later) :
    later.canonical cell = pool.canonical cell ∧ later.get? cell = pool.get? (pool.canonical cell) ∧
      Pool.resolve cell later = .ok (pool.canonical cell) later := by
  obtain ⟨added, hvalid, -⟩ := hlater.valid h
  have hstays := (hlater.stays h hnumbered).1
  have hcanonical : later.canonical cell = pool.canonical cell :=
    h.wellBound.canonical_congr hvalid.wellBound (by rw [hstays.binding cell binding hcell hdecided, hcell])
  obtain ⟨value, hvalue⟩ := howns
  have hvalue' : later.binding? (later.canonical cell) = some (.owned value) := by
    rw [hcanonical]
    exact hstays.binding _ _ hvalue rfl
  refine ⟨hcanonical, ?_, ?_⟩
  · rw [get?_eq, hvalue', get?_of_owned hvalue]
  · rw [resolve_of_owns ⟨value, hvalue'⟩, hcanonical]

/-! ### Contents that are known -/

/-- It is known what each cell contains. -/
def Known (pool : Pool) : Prop :=
  ∀ cell : Cell, cell.id < pool.slots.size → ∃ content, pool.content? cell = some content

theorem Known.empty : Pool.empty.Known := by
  rintro ⟨id⟩ hlt
  have hone : id < 1 := hlt
  obtain rfl : id = 0 := by omega
  exact ⟨_, WellBound.empty.content?_zero⟩

/-- What new cells contain is known if they refer to cells of which it is known. -/
theorem Known.of_refs (h : pool.Known) (hkeep : KeepsContent pool pool')
    (hnew : ∀ cell : Cell, pool.slots.size ≤ cell.id → cell.id < pool'.slots.size →
      ∃ value, pool'.meaning? cell = some value ∧ ∀ ref ∈ value.refs, ref.id < pool.slots.size) : pool'.Known := by
  intro cell hcell
  by_cases hold : cell.id < pool.slots.size
  · rw [hkeep.content? hold]
    exact h cell hold
  · obtain ⟨value, hvalue, hrefs⟩ := hnew cell (by omega) hcell
    rw [content?_eq, hvalue, Option.bind_some, contentOf?_eq]
    refine Constant.exists_content? fun ref href => ?_
    rw [hkeep.content? (hrefs ref href)]
    exact h ref (hrefs ref href)

/-- The cells of the second pool contain nothing but what those of the first contain. -/
def AddsNoContent (pool pool' : Pool) : Prop :=
  ∀ cell : Cell, cell.id < pool'.slots.size →
    ∃ old : Cell, old.id < pool.slots.size ∧ pool'.content? cell = pool.content? old

theorem Faithful.addsNoContent_bindStep (h : pool.Faithful) (hstep : BindStep pool pool') :
    AddsNoContent pool pool' := by
  have hkeep := (h.bindStep hstep).content
  intro cell hcell
  by_cases hold : cell.id < pool.slots.size
  · exact ⟨cell, hold, hkeep.content? hold⟩
  · cases hstep with
    | @add promised kind name hpromised _ hfind =>
      -- The added wrapper contains what the promise contains.
      have hnew : cell = ⟨pool.slots.size⟩ := by
        obtain ⟨id⟩ := cell
        rw [size_slots_addEntry] at hcell
        simp only [Cell.mk.injEq] at *
        omega
      have hcontent := h.content?_addEntry (by simp) (h.refs_wrapper_lt hpromised)
      refine ⟨promised, lt_of_binding? hpromised, ?_⟩
      rw [hnew, hcontent, h.contentOf?_wrapper hpromised]
    | @bind promised target kind name hpromised =>
      obtain ⟨-, hsize⟩ := bind_eq pool promised target
      omega

theorem Faithful.addsNoContent (h : pool.Faithful) (hsteps : Relation.ReflTransGen BindStep pool pool') :
    AddsNoContent pool pool' := by
  induction hsteps with
  | refl => exact fun cell hcell => ⟨cell, hcell, rfl⟩
  | tail hsteps hstep ih =>
    intro cell hcell
    obtain ⟨mid, hmid, hcontent⟩ := (h.bindSteps hsteps).faithful.addsNoContent_bindStep hstep cell hcell
    obtain ⟨old, hold, hcontent'⟩ := ih mid hmid
    exact ⟨old, hold, hcontent.trans hcontent'⟩

theorem Known.addsNoContent (h : pool.Known) (hadds : AddsNoContent pool pool') : pool'.Known := by
  intro cell hcell
  obtain ⟨old, hold, hcontent⟩ := hadds cell hcell
  rw [hcontent]
  exact h old hold

/-- A cell of an explicit index stays one until indices are given out. -/
theorem WellBound.indexed_openStep (h : pool.WellBound) (hstep : OpenStep pool pool') {index : UInt16} {position : Nat}
    (hcell : pool.binding? cell = some (.indexed index position)) :
    pool'.binding? cell = some (.indexed index position) := by
  cases hstep with
  | push => exact binding?_pushSlot_of_some hcell
  | add => exact binding?_pushSlot_of_some hcell
  | bind hstep =>
    cases hstep with
    | add => exact binding?_pushSlot_of_some hcell
    | @bind promised target kind name hpromised _ hfind =>
      have htarget := h.find?_owns (find?_of_find hfind)
      have hcne : cell ≠ promised := by
        rintro rfl
        rw [hpromised] at hcell
        cases hcell
      rw [binding?_bind_of_ne (not_owns_of_isPending hpromised rfl) htarget hcne, hcell]
  | rank c rank => rw [binding?_setRank, hcell]
  | tables => exact hcell

/-- Without explicit indices it is known what each cell contains. -/
theorem Known.openStep (h : pool.Known) (hfaithful : pool.Faithful) (hstep : OpenStep pool pool')
    (hnone : ∀ cell index position, pool'.binding? cell ≠ some (.indexed index position)) : pool'.Known := by
  have hkeep := (hfaithful.openStep hstep).content
  cases hstep with
  | @push binding howned halias hname =>
    refine h.of_refs hkeep fun cell hge hlt => ?_
    have hcell : (pool.pushSlot binding).binding? cell = some binding := by
      rw [size_slots_pushSlot] at hlt
      rw [binding?_pushSlot, if_pos (by omega)]
    have hcanonical : (pool.pushSlot binding).canonical cell = cell :=
      canonical_of_not_alias fun target htarget => halias target (Option.some.inj (hcell.symm.trans htarget))
    rcases binding with value | target | ⟨index, position⟩ | ⟨kind, name⟩
    · exact absurd rfl (howned value)
    · exact absurd rfl (halias target)
    · exact absurd hcell (hnone cell index position)
    · refine ⟨.wrapper kind name, by rw [meaning?, hcanonical, hcell], fun ref href => ?_⟩
      obtain rfl := List.mem_singleton.1 href
      exact hname kind ref rfl
  | @add value hzero hrefs hfind =>
    refine h.of_refs hkeep fun cell hge hlt => ?_
    have hcell : (pool.addEntry value).binding? cell = some (.owned value) := by
      rw [size_slots_addEntry] at hlt
      rw [binding?_addEntry, if_pos (by omega)]
    exact ⟨value, by rw [meaning?, canonical_of_owns ⟨value, hcell⟩, hcell], hrefs⟩
  | bind hstep => exact h.addsNoContent (hfaithful.addsNoContent_bindStep hstep)
  | rank c rank =>
    refine h.of_refs hkeep fun cell hge hlt => ?_
    rw [size_slots_setRank] at hlt
    omega
  | tables =>
    refine h.of_refs hkeep fun cell hge hlt => ?_
    have hsame : cell.id < pool.slots.size := hlt
    omega

theorem known_of_openSteps (hsteps : OpenSteps .empty pool)
    (hnone : ∀ cell index position, pool.binding? cell ≠ some (.indexed index position)) : pool.Known := by
  induction hsteps with
  | refl => exact .empty
  | tail hsteps hstep ih =>
    have hmid := (Faithful.empty.openSteps hsteps).faithful
    refine Known.openStep (ih fun cell index position hcell => ?_) hmid hstep hnone
    exact hnone cell index position (hmid.indexed_openStep hstep hcell)

/-- Where it is known what cells contain, no search goes on without an end. -/
theorem Known.ends (h : pool.Known) (hcell : cell.id < pool.slots.size) : pool.Ends cell := by
  obtain ⟨content, hcontent⟩ := h cell hcell
  exact ⟨some content, Search.found?_eq_some_iff.1 hcontent⟩

/-- Where contents are known, they tell whether cells are equal by value. -/
theorem Known.sameValue_eq (h : pool.Known) (hwell : pool.WellBound) {a b : Cell} (ha : a.id < pool.slots.size)
    (hb : b.id < pool.slots.size) : pool.sameValue a b = .ok (decide (pool.content? a = pool.content? b)) := by
  have hself : ∀ c, pool.content? (pool.canonical c) = pool.content? c :=
    fun c => content?_canonical (hwell.canonical_canonical c)
  obtain ⟨x, hx⟩ := h a ha
  rw [sameValue_of_ends (h.ends (hwell.canonical_lt ha)) (h.ends (hwell.canonical_lt hb)), hself, hself, hx]
  by_cases heq : pool.canonical a = pool.canonical b
  · simp [heq, ← hx, content?_canonical heq]
  · simp [heq]

/-! ### The contents of the entries -/

/-- The contents of the entries, in order. -/
def contents (pool : Pool) : List (Option Content) := pool.order.toList.map pool.content?

theorem Deduplicated.nodup_contents (h : pool.Deduplicated) (hknown : pool.Known) : pool.contents.Nodup := by
  have horder : pool.order.toList.Nodup := h.sorted.imp fun hlt heq => by
    subst heq
    omega
  refine List.Nodup.map_on (fun a ha b hb heq => ?_) horder
  obtain ⟨hane, haowns⟩ := (h.mem_order a).1 ha
  obtain ⟨hbne, hbowns⟩ := (h.mem_order b).1 hb
  obtain ⟨value, hvalue⟩ := haowns
  obtain ⟨content, hcontent⟩ := hknown a (lt_of_binding? hvalue)
  have hfirst := h.byContent_of_content? a content hane ⟨value, hvalue⟩ hcontent
  have hsecond := h.byContent_of_content? b content hbne hbowns (heq.symm.trans hcontent)
  exact Option.some.inj (hfirst.symm.trans hsecond)

/-- Once all cells are bound, the entries contain what the cells contain. -/
theorem WellBound.mem_contents_iff (h : pool.WellBound)
    (hdecided : ∀ cell binding, pool.binding? cell = some binding → binding.isPending = false) {x : Option Content} :
    x ∈ pool.contents ↔ x ≠ some (.leaf .zero) ∧ ∃ cell : Cell, cell.id < pool.slots.size ∧ pool.content? cell = x := by
  rw [contents, List.mem_map]
  constructor
  · rintro ⟨cell, hcell, rfl⟩
    obtain ⟨hne, value, hvalue⟩ := (h.mem_order cell).1 hcell
    refine ⟨fun hzero => ?_, cell, lt_of_binding? hvalue, rfl⟩
    rw [content?_of_owned hvalue, contentOf?_eq] at hzero
    exact h.value_ne_zero cell value hvalue hne (Constant.eq_zero_of_content? hzero)
  · rintro ⟨hne, cell, hcell, rfl⟩
    have hself : pool.content? (pool.canonical cell) = pool.content? cell :=
      content?_canonical (h.canonical_canonical cell)
    refine ⟨pool.canonical cell, (h.mem_order _).2 ⟨fun hzero => ?_, ?_⟩, hself⟩
    · rw [hzero, h.content?_zero] at hself
      exact hne hself.symm
    · obtain ⟨binding, hbinding⟩ := exists_binding? (h.canonical_lt hcell)
      have hpending := hdecided _ _ hbinding
      rcases binding with value | target | ⟨index, position⟩ | ⟨kind, name⟩
      · exact ⟨value, hbinding⟩
      · rw [← h.canonical_canonical, canonical_of_alias h hbinding]
        exact h.alias_owns _ target hbinding
      · cases hpending
      · cases hpending

/-- Two ways to bind the promises of a pool give the same entries up to their order. -/
theorem Deduplicated.perm_contents (h : pool.Deduplicated) (hknown : pool.Known)
    (hbound : Relation.ReflTransGen BindStep pool bound) (hbound' : Relation.ReflTransGen BindStep pool bound')
    (hdecided : ∀ cell binding, bound.binding? cell = some binding → binding.isPending = false)
    (hdecided' : ∀ cell binding, bound'.binding? cell = some binding → binding.isPending = false) :
    bound'.contents.Perm bound.contents := by
  have hkept : ∀ {later : Pool}, Relation.ReflTransGen BindStep pool later →
      (∀ cell binding, later.binding? cell = some binding → binding.isPending = false) →
      later.contents.Nodup ∧ ∀ x, x ∈ later.contents ↔
        x ≠ some (.leaf .zero) ∧ ∃ cell : Cell, cell.id < pool.slots.size ∧ pool.content? cell = x := by
    intro later hsteps hlater
    have hcontinues := h.bindSteps hsteps
    have hadds := h.addsNoContent hsteps
    have hdedup := h.continues hcontinues
    have hknown' := hknown.addsNoContent hadds
    refine ⟨hdedup.nodup_contents hknown', fun x => ?_⟩
    rw [hdedup.mem_contents_iff hlater]
    refine and_congr_right fun _ => ⟨?_, ?_⟩
    · rintro ⟨cell, hcell, hx⟩
      obtain ⟨old, hold, hcontent⟩ := hadds cell hcell
      exact ⟨old, hold, hcontent.symm.trans hx⟩
    · rintro ⟨cell, hcell, hx⟩
      have hsize := hcontinues.size_le
      exact ⟨cell, by omega, (hcontinues.content.content? hcell).trans hx⟩
  obtain ⟨hnodup, hmem⟩ := hkept hbound hdecided
  obtain ⟨hnodup', hmem'⟩ := hkept hbound' hdecided'
  refine (List.perm_ext_iff_of_nodup hnodup' hnodup).2 fun x => ?_
  rw [hmem', hmem]

/-! ### Finalizing afterwards -/

theorem WellBound.contents_congr (h : pool.WellBound) (h' : pool'.WellBound) (horder : pool'.order = pool.order)
    (hbinding : ∀ cell, pool'.binding? cell = pool.binding? cell) : pool'.contents = pool.contents := by
  rw [contents, contents, horder]
  refine List.map_congr_left fun cell hcell => ?_
  obtain ⟨-, value, hvalue⟩ := (h.mem_order cell).1 hcell
  exact (h.keepsContent h' fun c _ => hbinding c).content? (lt_of_binding? hvalue)

/-- Without references, a pool is left with the entries that it has once its promises are bound, and it depends on
their constants whether it can be finalized. -/
theorem Known.finalize_contents (hknown : pool.Known) (hfaithful : pool.Faithful) (h : pool.Valid [])
    (hopen : pool.layout = none) (warnings : Array Warning) :
    ∃ bound, Relation.ReflTransGen BindStep pool bound ∧ bound.WellBound ∧ Extends pool bound ∧
      (∀ cell binding, bound.binding? cell = some binding → binding.isPending = false) ∧
      ((PoolOp.finalize warnings).apply pool).contents = bound.contents ∧
      ∀ e, (∃ s, Pool.finalize ⟨pool, warnings⟩ = .error e s) ↔
        obstacle? bound.constants pool.bootstraps.size [] = some e := by
  have hfinal : pool.isFinalized = false := by rw [isFinalized, hopen]; rfl
  obtain ⟨bound, hrun, hwell, hextends, hpromised⟩ := hfaithful.bindPromises_of_ends hopen fun _ => hknown.ends
  have hsteps := bindPromises_bindSteps h.wellBound hopen
  have hresult := Pool.finalize_spec hfinal hrun hwell warnings
  have hcompletes := finalize_completes hfinal hrun hwell hpromised warnings
  have hunbound : bound.unbound = [] := (h.extends_ hopen hwell hextends).unbound_eq_nil
  have hindexed : ∀ cell index position, bound.binding? cell ≠ some (.indexed index position) := by
    intro cell index position hcell
    have hmem : (⟨cell, index, position⟩ : Reference) ∈ bound.unbound := mem_unbound_iff.2 hcell
    rw [hunbound] at hmem
    cases hmem
  have hdecided : ∀ cell binding, bound.binding? cell = some binding → binding.isPending = false := by
    intro cell binding hcell
    rcases binding with value | target | ⟨index, position⟩ | ⟨kind, name⟩
    · rfl
    · rfl
    · exact absurd hcell (hindexed cell index position)
    · exact absurd hcell (hpromised cell kind name)
  rw [hrun] at hsteps
  refine ⟨bound, hsteps, hwell, hextends, hdecided,
    hwell.contents_congr hcompletes.after hcompletes.order fun cell => hcompletes.binding?_eq (hindexed cell), ?_⟩
  rw [hunbound, hextends.bootstraps] at hresult
  intro e
  cases hobstacle : obstacle? bound.constants pool.bootstraps.size [] with
  | some e' =>
    rw [hobstacle] at hresult
    obtain ⟨start, s, hfinalize, -⟩ := hresult
    simp [hfinalize]
  | none =>
    rw [hobstacle] at hresult
    obtain ⟨final, hfinalize, -⟩ := hresult
    simp [hfinalize]

private theorem total_width_wrappers {added : List (Constant Cell)}
    (hadded : ∀ value ∈ added, ∃ kind name, value = .wrapper kind name) :
    total Constant.width added = added.length := by
  induction added with
  | nil => rfl
  | cons value added ih =>
    obtain ⟨kind, name, rfl⟩ := hadded value (by simp)
    have hwidth : (Constant.wrapper kind name).width = 1 := rfl
    rw [total_cons, hwidth, ih fun v hv => hadded v (by simp [hv]), List.length_cons, Nat.add_comm]

/-- Of wrappers behind other constants it matters only how many there are. -/
theorem obstacle?_append_wrappers {values added : List (Constant Cell)}
    (hadded : ∀ value ∈ added, ∃ kind name, value = .wrapper kind name) (bootstraps : Nat) :
    obstacle? (values ++ added) bootstraps [] =
      if indexLimit < 1 + (total Constant.width values + added.length) then
        some (.poolOverflow (total Constant.width values + added.length))
      else (values.findSome? (undefinedIn bootstraps)).map .undefinedBootstrap := by
  have hdefined : added.findSome? (undefinedIn bootstraps) = none := by
    refine List.findSome?_eq_none_iff.2 fun value hvalue => ?_
    obtain ⟨kind, name, rfl⟩ := hadded value hvalue
    rfl
  rw [obstacle?, total_append, total_width_wrappers hadded, List.findSome?_append, hdefined, Option.or_none]
  split
  · rfl
  · cases values.findSome? (undefinedIn bootstraps) <;> rfl

theorem WellBound.length_constants (h : pool.WellBound) : pool.constants.length = pool.contents.length := by
  have hgeneral : ∀ cells : List Cell, (∀ cell ∈ cells, cell ∈ pool.order.toList) →
      (cells.filterMap pool.get?).length = (cells.map pool.content?).length := by
    intro cells
    induction cells with
    | nil => exact fun _ => rfl
    | cons cell cells ih =>
      intro hcells
      obtain ⟨value, hget, -⟩ := h.get?_of_mem_order (hcells cell (by simp))
      have hrest := ih fun c hc => hcells c (by simp [hc])
      rw [List.filterMap_cons_some hget, List.map_cons, List.length_cons, List.length_cons, hrest]
  exact hgeneral pool.order.toList fun _ hc => hc

/-- Two ways to bind the promises of a pool meet the same obstacle. -/
theorem WellBound.obstacle?_eq (h : pool.WellBound) (hwell : bound.WellBound) (hwell' : bound'.WellBound)
    (hextends : Extends pool bound) (hextends' : Extends pool bound') (hperm : bound'.contents.Perm bound.contents)
    (bootstraps : Nat) : obstacle? bound'.constants bootstraps [] = obstacle? bound.constants bootstraps [] := by
  obtain ⟨added, hadded, hwrappers⟩ := hextends.constants h hwell
  obtain ⟨added', hadded', hwrappers'⟩ := hextends'.constants h hwell'
  have hlength : added'.length = added.length := by
    have hsame := hperm.length_eq
    rw [← hwell.length_constants, ← hwell'.length_constants, hadded, hadded', List.length_append,
      List.length_append] at hsame
    omega
  rw [hadded, hadded', obstacle?_append_wrappers hwrappers, obstacle?_append_wrappers hwrappers', hlength]

/-- Without references, finalizing comes to the same whether or not promises were bound before. -/
theorem Deduplicated.finalize_of_bindSteps (h : pool.Deduplicated) (hknown : pool.Known) (hvalid : pool.Valid [])
    (hvalid' : pool'.Valid []) (hopen : pool.layout = none) (hsteps : Relation.ReflTransGen BindStep pool pool')
    (hextends : Extends pool pool') (warnings : Array Warning) :
    (∀ e, (∃ s, Pool.finalize ⟨pool', warnings⟩ = .error e s) ↔ ∃ s, Pool.finalize ⟨pool, warnings⟩ = .error e s) ∧
      none ∉ ((PoolOp.finalize warnings).apply pool).contents ∧
      ((PoolOp.finalize warnings).apply pool').contents.Perm ((PoolOp.finalize warnings).apply pool).contents := by
  have hopen' : pool'.layout = none := hextends.layout.trans hopen
  have hknown' := hknown.addsNoContent (h.addsNoContent hsteps)
  have hfaithful' := (h.bindSteps hsteps).faithful
  obtain ⟨bound, hbound, hwell, hext, hdecided, hcontents, herror⟩ :=
    hknown.finalize_contents h.toFaithful hvalid hopen warnings
  obtain ⟨bound', hbound', hwell', hext', hdecided', hcontents', herror'⟩ :=
    hknown'.finalize_contents hfaithful' hvalid' hopen' warnings
  have hperm := h.perm_contents hknown hbound (hsteps.trans hbound') hdecided hdecided'
  have hobstacle := hvalid.wellBound.obstacle?_eq hwell hwell' hext (hextends.trans hext') hperm
  refine ⟨fun e => ?_, ?_, ?_⟩
  · rw [herror', herror, hextends.bootstraps, hobstacle]
  · rw [hcontents, hwell.mem_contents_iff hdecided]
    rintro ⟨-, cell, hcell, hnone⟩
    obtain ⟨content, hcontent⟩ := hknown.addsNoContent (h.addsNoContent hbound) cell hcell
    rw [hcontent] at hnone
    cases hnone
  · rw [hcontents, hcontents']
    exact hperm

/-! ### The result -/

/-- In a pool that was never finalized every cell can be resolved. If the cell is neither the zero cell nor one of an
explicit index, it stands for an entry from then on, and for the same one. Entries keep their places and values. If no
cell of an explicit index was ever asked for, resolving does not change which cells are equal by value, nor whether
the pool can be finalized, nor what the entries of the finalized pool contain. -/
theorem resolve_keeps (h : Leads .empty ops pool) (hops : ∀ op ∈ ops, op.isFinalize = false) (cell : Cell)
    (hcell : cell.id < pool.slots.size) :
    ∃ target pool', resolve cell pool = .ok target pool' ∧
      (cell ≠ .zero → (∀ index position, pool.binding? cell ≠ some (.indexed index position)) →
        target ∈ pool'.order.toList ∧ ∀ more later, Leads pool' more later →
          later.canonical cell = target ∧ later.get? cell = pool'.get? target ∧
            resolve cell later = .ok target later) ∧
      (∃ added, pool'.order.toList = pool.order.toList ++ added) ∧
      (∀ owner ∈ pool.order.toList, pool'.get? owner = pool.get? owner) ∧
      ((∀ op ∈ ops, op.isReference = false) →
        (∀ a b : Cell, a.id < pool.slots.size → b.id < pool.slots.size →
          ∃ same, pool.sameValue a b = .ok same ∧ pool'.sameValue a b = .ok same) ∧
        ∀ warnings,
          (∀ e, (∃ s, finalize ⟨pool', warnings⟩ = .error e s) ↔ ∃ s, finalize ⟨pool, warnings⟩ = .error e s) ∧
          none ∉ ((PoolOp.finalize warnings).apply pool).contents ∧
          ((PoolOp.finalize warnings).apply pool').contents.Perm ((PoolOp.finalize warnings).apply pool).contents) := by
  obtain ⟨references, hvalid, hnone⟩ := h.valid Valid.empty
  rw [List.nil_append] at hvalid
  have hopenSteps := h.openSteps Valid.empty hops
  have hdedup := (Deduplicated.empty.leads Valid.empty h (.inl hops)).1
  have hopen : pool.layout = none := layout_of_openSteps hopenSteps
  have hends := (Layered.empty.openSteps .empty hopenSteps).ends
  obtain ⟨target, pool', hrun, hresolves⟩ := hdedup.resolve_of_ends hopen hcell (hends cell)
  have hsteps := (resolveWithin_bindSteps hvalid.wellBound hopen hcell (Nat.lt_succ_of_lt hcell)).1
  rw [← resolve, hrun, PoolOp.left_ok] at hsteps
  have hextends := hresolves.extends_
  have hvalid' := hvalid.extends_ hopen hresolves.wellBound hextends
  refine ⟨target, pool', hrun, fun hne hindexed => ?_, hextends.order, fun owner howner => ?_, fun hreferences => ?_⟩
  · have hzero := AvoidsZero.empty.openSteps .empty (hopenSteps.trans (hsteps.lift id fun _ _ => .bind))
    have hnumbered := ((changes_of_bindSteps hsteps hvalid.wellBound).stays hvalid.wellBound
      (h.stays Valid.empty Numbered.empty).2).2
    obtain ⟨binding, hbinding, hdecided⟩ := hresolves.decided hcell hindexed
    have hmem := hresolves.wellBound.canonical_mem_order hzero hbinding hdecided hne
    have howns := ((hresolves.wellBound.mem_order _).1 hmem).2
    rw [← hresolves.canonical]
    exact ⟨hmem, fun more later hlater => hvalid'.stands hnumbered hbinding hdecided howns hlater⟩
  · obtain ⟨value, hget, hvalue⟩ := hvalid.wellBound.get?_of_mem_order howner
    rw [hget, get?_of_owned (hextends.keep owner _ hvalue (by simp))]
  · rw [hnone hreferences] at hvalid hvalid'
    have hknown : pool.Known := by
      refine known_of_openSteps hopenSteps fun c index position hc => ?_
      have hmem : (⟨c, index, position⟩ : Reference) ∈ pool.unbound := mem_unbound_iff.2 hc
      cases hvalid.unbound_subset _ hmem
    have hcontinues := hdedup.bindSteps hsteps
    refine ⟨fun a b ha hb => ?_, hdedup.finalize_of_bindSteps hknown hvalid hvalid' hopen hsteps hextends⟩
    have hknown' := hknown.addsNoContent (hdedup.addsNoContent hsteps)
    have hsize := hcontinues.size_le
    have hcontent : ∀ c : Cell, c.id < pool.slots.size → pool'.content? c = pool.content? c :=
      fun c hc => hcontinues.content.content? hc
    refine ⟨_, hknown.sameValue_eq hvalid.wellBound ha hb, ?_⟩
    rw [hknown'.sameValue_eq hresolves.wellBound (by omega) (by omega), hcontent a ha, hcontent b hb]

theorem resolve_keeps_promisedTwice :
    ∃ target pool', resolve ⟨3⟩ promisedTwice = .ok target pool' ∧ target ∈ pool'.order.toList ∧
      resolve ⟨3⟩ pool' = .ok target pool' ∧
      (∃ same, promisedTwice.sameValue ⟨2⟩ ⟨3⟩ = .ok same ∧ pool'.sameValue ⟨2⟩ ⟨3⟩ = .ok same) ∧
      ((PoolOp.finalize #[]).apply pool').contents.Perm ((PoolOp.finalize #[]).apply promisedTwice).contents := by
  have hsize : promisedTwice.slots.size = 4 := rfl
  have hpromised : promisedTwice.binding? ⟨3⟩ = some (.promised .classInfo ⟨1⟩) := rfl
  obtain ⟨target, pool', hrun, hstands, -, -, hsame⟩ :=
    resolve_keeps leads_promisedTwice (by simp [PoolOp.isFinalize]) ⟨3⟩ (by simp [hsize])
  obtain ⟨hmem, hlater⟩ := hstands (by simp [Cell.zero]) (by simp [hpromised])
  obtain ⟨hvalues, hfinalize⟩ := hsame (by simp [PoolOp.isReference])
  exact ⟨target, pool', hrun, hmem, (hlater [] pool' .refl).2.2, hvalues ⟨2⟩ ⟨3⟩ (by simp [hsize]) (by simp [hsize]),
    (hfinalize #[]).2.2⟩

end JvmAssembler.Pool
