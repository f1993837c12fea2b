import JvmAssembler.Proofs.Pool.Finalize

/-!
# Pools that operations lead to

`Reached pool references` says that some sequence of operations leads from the empty pool to `pool`, and that
`references` are the references that were handed out on the way. Operations may fail, and may be given any cells
that the pool has handed out; asking for a constant by its text is a sequence of `intern`s. `Valid` holds of every
such pool (`Reached.valid`): one lemma for each operation, and one induction over the sequence.
-/

namespace JvmAssembler

/-- An operation on a pool. -/
inductive PoolOp where
  | intern (value : Constant Cell)
  | reference (index : UInt16) (position : Nat)
  | promise (tag : Tag) (name : Cell)
  | resolve (cell : Cell)
  | setRank (cell : Cell) (rank : Rank)
  | bootstrap (handle : Cell) (arguments : List Cell)
  | finalize (warnings : Array Warning)

namespace PoolOp

/-- The cells that an operation is given. -/
def cells : PoolOp → List Cell
  | intern value => value.refs
  | reference _ _ | finalize _ => []
  | promise _ cell | resolve cell | setRank cell _ => [cell]
  | bootstrap handle arguments => handle :: arguments

/-- The state that is left behind, by a failure as well. -/
def left {ε σ α : Type} : EStateM.Result ε σ α → σ
  | .ok _ s | .error _ s => s

@[simp] theorem left_ok {ε σ α : Type} (a : α) (s : σ) : left (.ok a s : EStateM.Result ε σ α) = s := rfl

@[simp] theorem left_error {ε σ α : Type} (e : ε) (s : σ) : left (.error e s : EStateM.Result ε σ α) = s := rfl

/-- The pool after an operation. -/
def apply (pool : Pool) : PoolOp → Pool
  | intern value => left (Pool.intern value pool)
  | reference index position => left (Pool.reference index position pool)
  | promise tag name => left (Pool.promise tag name pool)
  | resolve cell => left (Pool.resolve cell pool)
  | setRank cell rank => pool.setRank cell rank
  | bootstrap handle arguments => left (Pool.bootstrap handle arguments pool)
  | finalize warnings => (left (Pool.finalize ⟨pool, warnings⟩)).state

/-- The reference that an operation hands out. -/
def references (pool : Pool) : PoolOp → List Reference
  | reference index position => if pool.isFinalized then [] else [⟨⟨pool.slots.size⟩, index, position⟩]
  | _ => []

end PoolOp

namespace Pool

/-- Operations lead from the empty pool to a pool, and hand out references. -/
inductive Reached : Pool → List Reference → Prop where
  | empty : Reached Pool.empty []
  | step {pool : Pool} {references : List Reference} (op : PoolOp) : Reached pool references →
      (∀ cell ∈ op.cells, cell.id < pool.slots.size) → Reached (op.apply pool) (references ++ op.references pool)

variable {pool pool' : Pool} {references : List Reference}

/-- What holds once a pool has its indices. -/
structure Settled (pool : Pool) (table : OffsetTable Cell) : Prop where
  table_eq : table = pool.numbering
  next_le : table.next ≤ indexLimit
  number : ∀ index cell, (index, cell) ∈ pool.places → pool.number? cell = some index
  bound : ∀ cell binding, pool.binding? cell = some binding → pool.Owns cell ∨ ∃ target, binding = .alias target
  bootstraps : ∀ value ∈ pool.constants, undefinedIn pool.bootstraps.size value = none

theorem Settled.canonical_owns {table : OffsetTable Cell} (h : pool.Settled table) (hwell : pool.WellBound)
    {cell : Cell} (hcell : cell.id < pool.slots.size) : pool.Owns (pool.canonical cell) := by
  obtain ⟨binding, hbinding⟩ := exists_binding? hcell
  rcases h.bound cell binding hbinding with howns | ⟨target, rfl⟩
  · rwa [canonical_of_owns howns]
  · rw [canonical_of_alias hwell hbinding]
    exact hwell.alias_owns cell target hbinding

/-- What holds of a pool, given the references that were handed out: they are in the order of their cells, and
each of them is unbound or leads to the entry with its index. -/
structure Valid (pool : Pool) (references : List Reference) : Prop where
  wellBound : pool.WellBound
  zero_number : pool.number? .zero = some 0
  sorted : references.Pairwise (·.cell.id < ·.cell.id)
  unbound_subset : ∀ reference ∈ pool.unbound, reference ∈ references
  bound : ∀ reference ∈ references, reference ∈ pool.unbound ∨ ∃ target,
    pool.binding? reference.cell = some (.alias target) ∧ target? pool.numbering reference.index = some target
  settled : ∀ table, pool.layout = some table → pool.Settled table

theorem target?_numbering {index : UInt16} {target : Cell} :
    target? pool.numbering index = some target ↔
      index = 0 ∧ target = .zero ∨ index ≠ 0 ∧ (index.toNat, target) ∈ pool.places := by
  rw [target?]
  by_cases hzero : index = 0
  · simp [hzero, eq_comm]
  · simp [hzero, value?_lookup_numbering]

private theorem target?_mono (hplaces : ∃ more, pool'.places = pool.places ++ more) {index : UInt16} {target : Cell}
    (h : target? pool.numbering index = some target) : target? pool'.numbering index = some target := by
  obtain ⟨more, hmore⟩ := hplaces
  rw [target?_numbering] at h ⊢
  rcases h with hzero | ⟨hne, hmem⟩
  · exact .inl hzero
  · exact .inr ⟨hne, hmore ▸ List.mem_append_left _ hmem⟩

/-- References stay valid while entries and promises come and go. -/
theorem Valid.of_open (h : pool.Valid references) (hopen : pool'.layout = none) (hwell : pool'.WellBound)
    (hzero : pool'.number? .zero = some 0)
    (hindexed : ∀ cell index position, pool'.binding? cell = some (.indexed index position) ↔
      pool.binding? cell = some (.indexed index position))
    (halias : ∀ cell target, pool.binding? cell = some (.alias target) → pool'.binding? cell = some (.alias target))
    (hplaces : ∃ more, pool'.places = pool.places ++ more) : pool'.Valid references := by
  have hunbound : ∀ reference, reference ∈ pool'.unbound ↔ reference ∈ pool.unbound := fun reference => by
    rw [mem_unbound_iff, mem_unbound_iff, hindexed]
  refine ⟨hwell, hzero, h.sorted, fun reference hr => h.unbound_subset reference ((hunbound reference).1 hr),
    fun reference hr => ?_, fun table htable => ?_⟩
  · rcases h.bound reference hr with hr | ⟨target, hcell, ht⟩
    · exact .inl ((hunbound reference).2 hr)
    · exact .inr ⟨target, halias _ _ hcell, target?_mono hplaces ht⟩
  · rw [hopen] at htable
    cases htable

theorem Valid.unbound_eq_nil (h : pool.Valid []) : pool.unbound = [] :=
  List.eq_nil_iff_forall_not_mem.2 fun reference hr => by cases h.unbound_subset reference hr

theorem Valid.cell_lt (h : pool.Valid references) {reference : Reference} (hr : reference ∈ references) :
    reference.cell.id < pool.slots.size := by
  rcases h.bound reference hr with hr | ⟨target, hcell, -⟩
  · exact lt_of_binding? (mem_unbound_iff.1 hr)
  · exact lt_of_binding? hcell

/-! ### The operations one by one -/

theorem Valid.empty : Pool.empty.Valid [] where
  wellBound := .empty
  zero_number := rfl
  sorted := .nil
  unbound_subset reference h := by cases h
  bound reference h := by cases h
  settled table h := by cases h

/-- Ranks have no part in what is valid. -/
theorem Valid.setRank (h : pool.Valid references) (cell : Cell) (rank : Rank) :
    (pool.setRank cell rank).Valid references := by
  have hbinding := binding?_setRank pool cell rank
  have hkeep : ∀ c value, pool.binding? c = some (.owned value) →
      (pool.setRank cell rank).binding? c = some (.owned value) := fun c value hc => by rw [hbinding, hc]
  have hunbound : ∀ r, r ∈ (pool.setRank cell rank).unbound ↔ r ∈ pool.unbound := fun r => by
    rw [mem_unbound_iff, mem_unbound_iff, hbinding]
  have hnumbering : (pool.setRank cell rank).numbering = pool.numbering := h.wellBound.numbering_congr rfl hkeep
  refine ⟨h.wellBound.setRank cell rank, by rw [number?_setRank, h.zero_number], h.sorted,
    fun r hr => h.unbound_subset r ((hunbound r).1 hr), fun r hr => ?_, fun table htable => ?_⟩
  · rw [hunbound, hbinding, hnumbering]
    exact h.bound r hr
  · have hsettled := h.settled table htable
    refine ⟨hnumbering ▸ hsettled.table_eq, hsettled.next_le, fun index c hc => ?_, fun c binding hc => ?_, ?_⟩
    · rw [number?_setRank]
      exact hsettled.number index c (places_congr hnumbering ▸ hc)
    · rw [Owns, hbinding]
      exact hsettled.bound c binding (hbinding c ▸ hc)
    · have hconstants : (pool.setRank cell rank).constants = pool.constants := h.wellBound.constants_congr rfl hkeep
      rw [hconstants]
      exact hsettled.bootstraps

theorem Valid.addEntry (h : pool.Valid references) (hopen : pool.layout = none) {value : Constant Cell}
    (hzero : value ≠ .zero) (hrefs : ∀ ref ∈ value.refs, ref.id < pool.slots.size) :
    (pool.addEntry value).Valid references := by
  refine h.of_open hopen (h.wellBound.addEntry hzero hrefs) ?_
    (fun cell index position => ⟨fun hcell => ?_, fun hcell => ?_⟩)
    (fun cell target hcell => binding?_pushSlot_of_some hcell)
    (h.wellBound.places_append (order_addEntry pool value) fun cell v hcell => binding?_pushSlot_of_some hcell)
  · rw [number?_addEntry, h.zero_number]
  · rcases cases_of_pushSlot hcell with ⟨-, hnew⟩ | hcell
    · cases hnew
    · exact hcell
  · exact binding?_pushSlot_of_some hcell

/-- Asking for a constant adds it or leaves the pool as it is. -/
theorem left_intern_cases (value : Constant Cell) (pool : Pool) :
    PoolOp.left (Pool.intern value pool) = pool ∨
      value ≠ .zero ∧ pool.find value = .ok none ∧ pool.isFinalized = false ∧
        PoolOp.left (Pool.intern value pool) = pool.addEntry value := by
  rcases intern_cases value pool with ⟨-, heq⟩ | ⟨cell, -, -, heq⟩ | ⟨hzero, hfind, hopen, heq⟩ | ⟨e, heq⟩ <;> rw [heq]
  · exact .inl rfl
  · exact .inl rfl
  · exact .inr ⟨hzero, hfind, hopen, rfl⟩
  · exact .inl rfl

theorem Valid.intern (h : pool.Valid references) {value : Constant Cell}
    (hrefs : ∀ ref ∈ value.refs, ref.id < pool.slots.size) :
    (PoolOp.left (Pool.intern value pool)).Valid references := by
  rcases left_intern_cases value pool with heq | ⟨hzero, -, hfinal, heq⟩ <;> rw [heq]
  · exact h
  · exact h.addEntry (layout_eq_none hfinal) hzero hrefs

theorem Valid.promise (h : pool.Valid references) {tag : Tag} {name : Cell} (hname : name.id < pool.slots.size) :
    (PoolOp.left (Pool.promise tag name pool)).Valid references := by
  rw [Pool.promise]
  cases tag.wrapper? with
  | none => exact h
  | some kind =>
    cases hfinal : pool.isFinalized with
    | true => exact h
    | false =>
      have hwell : (pool.pushSlot (.promised kind name)).WellBound := by
        refine h.wellBound.pushSlot nofun nofun fun k n heq => ?_
        obtain ⟨-, rfl⟩ := Binding.promised.inj heq
        exact hname
      show (pool.pushSlot (.promised kind name)).Valid references
      refine h.of_open (layout_eq_none hfinal) hwell ?_ (fun cell index position => ⟨fun hcell => ?_, fun hcell => ?_⟩)
        (fun cell target hcell => binding?_pushSlot_of_some hcell)
        (h.wellBound.places_append (List.append_nil _).symm fun cell v hcell => binding?_pushSlot_of_some hcell)
      · rw [number?_pushSlot, h.zero_number]
      · rcases cases_of_pushSlot hcell with ⟨-, hnew⟩ | hcell
        · cases hnew
        · exact hcell
      · exact binding?_pushSlot_of_some hcell

theorem Valid.reference (h : pool.Valid references) (index : UInt16) (position : Nat) :
    (PoolOp.left (Pool.reference index position pool)).Valid
      (references ++ PoolOp.references pool (.reference index position)) := by
  rw [Pool.reference, PoolOp.references]
  cases hfinal : pool.isFinalized with
  | true =>
    simp only [↓reduceIte, List.append_nil]
    exact h
  | false =>
    simp only [Bool.false_eq_true, ↓reduceIte]
    show (pool.pushSlot (.indexed index position)).Valid _
    have hplaces : ∃ more, (pool.pushSlot (.indexed index position)).places = pool.places ++ more :=
      h.wellBound.places_append (List.append_nil _).symm fun cell v hcell => binding?_pushSlot_of_some hcell
    refine ⟨h.wellBound.pushSlot nofun nofun nofun, by rw [number?_pushSlot, h.zero_number], ?_, fun r hr => ?_,
      fun r hr => ?_, fun table htable => ?_⟩
    · refine List.pairwise_append.2 ⟨h.sorted, List.pairwise_singleton _ _, fun r hr new hnew => ?_⟩
      obtain rfl := List.mem_singleton.1 hnew
      exact h.cell_lt hr
    · rcases cases_of_pushSlot (mem_unbound_iff.1 hr) with ⟨hid, heq⟩ | hold
      · obtain ⟨⟨id⟩, i, p⟩ := r
        obtain ⟨rfl, rfl⟩ := Binding.indexed.inj heq
        obtain rfl : id = pool.slots.size := hid
        exact List.mem_append_right _ (List.mem_singleton.2 rfl)
      · exact List.mem_append_left _ (h.unbound_subset r (mem_unbound_iff.2 hold))
    · rcases List.mem_append.1 hr with hr | hr
      · rcases h.bound r hr with hr | ⟨target, hcell, ht⟩
        · exact .inl (mem_unbound_iff.2 (binding?_pushSlot_of_some (mem_unbound_iff.1 hr)))
        · exact .inr ⟨target, binding?_pushSlot_of_some hcell, target?_mono hplaces ht⟩
      · obtain rfl := List.mem_singleton.1 hr
        refine .inl (mem_unbound_iff.2 ?_)
        rw [binding?_pushSlot, if_pos rfl]
    · have hopen : (pool.pushSlot (.indexed index position)).layout = none := layout_eq_none hfinal
      rw [hopen] at htable
      cases htable

/-- What a pool is extended by leaves its unbound references as they are. -/
theorem Extends.indexed_iff (hextends : Extends pool pool') {cell : Cell} {index : UInt16} {position : Nat} :
    pool'.binding? cell = some (.indexed index position) ↔ pool.binding? cell = some (.indexed index position) := by
  refine ⟨fun hcell => ?_, fun hcell => hextends.keep cell _ hcell nofun⟩
  -- An unbound reference cannot have been anything else before.
  cases hbefore : pool.binding? cell with
  | none =>
    obtain ⟨kind, name, heq⟩ := hextends.fresh cell _ hbefore hcell
    cases heq
  | some binding =>
    cases binding with
    | promised kind name =>
      rcases hextends.promised cell kind name hbefore with hafter | ⟨target, hafter⟩ <;>
        · rw [hcell] at hafter
          cases hafter
    | _ => rw [← hextends.keep cell _ hbefore nofun, hcell]

theorem Valid.extends_ (h : pool.Valid references) (hopen : pool.layout = none) (hwell : pool'.WellBound)
    (hextends : Extends pool pool') : pool'.Valid references := by
  obtain ⟨added, hadded⟩ := hextends.order
  exact h.of_open (hextends.layout.trans hopen) hwell (by rw [hextends.number, h.zero_number])
    (fun _ _ _ => hextends.indexed_iff) (fun cell target hcell => hextends.keep cell _ hcell nofun)
    (h.wellBound.places_append hadded fun cell value hcell => hextends.keep cell _ hcell nofun)

/-- In a finalized pool a cell stands for an entry already. -/
theorem Valid.resolve_of_settled {table : OffsetTable Cell} (h : pool.Valid references)
    (hlayout : pool.layout = some table) {cell : Cell} (hcell : cell.id < pool.slots.size) :
    Pool.resolve cell pool = .ok (pool.canonical cell) pool :=
  resolve_of_owns ((h.settled table hlayout).canonical_owns h.wellBound hcell)

theorem Valid.resolve (h : pool.Valid references) {cell : Cell} (hcell : cell.id < pool.slots.size) :
    (PoolOp.left (Pool.resolve cell pool)).Valid references := by
  cases hlayout : pool.layout with
  | none =>
    rcases resolve_spec h.wellBound hlayout hcell with ⟨target, pool', hrun, hresolves⟩ | ⟨pool', hrun, hwell, hextends⟩
    · rw [hrun]
      exact h.extends_ hlayout hresolves.wellBound hresolves.extends_
    · rw [hrun]
      exact h.extends_ hlayout hwell hextends
  | some table =>
    rw [h.resolve_of_settled hlayout hcell]
    exact h

theorem Valid.bootstrap (h : pool.Valid references) (handle : Cell) (arguments : List Cell) :
    (PoolOp.left (Pool.bootstrap handle arguments pool)).Valid references := by
  rw [Pool.bootstrap]
  simp only
  cases pool.bootstrapIndex[(⟨handle, arguments⟩ : Bootstrap)]? with
  | some index => exact h
  | none =>
    cases hfinal : pool.isFinalized with
    | true => exact h
    | false =>
      by_cases hcount : pool.bootstraps.size < Bytes.capacity 2
      · simp only [Bool.false_eq_true, ↓reduceIte, hcount]
        have hlayout := layout_eq_none hfinal
        exact h.of_open hlayout (h.wellBound.congr (fun _ => rfl) rfl rfl rfl) h.zero_number (fun _ _ _ => Iff.rfl)
          (fun _ _ hc => hc) ⟨[], (List.append_nil _).symm⟩
      · simp only [Bool.false_eq_true, ↓reduceIte, hcount]
        exact h

theorem Valid.assignIndices (h : pool.Valid references) (hopen : pool.layout = none) :
    (pool.assignIndices pool.numbering).Valid references := by
  have hplaces := places_congr h.wellBound.numbering_assignIndices
  have hzero : Cell.zero ∉ pool.order.toList := fun hmem => ((h.wellBound.mem_order .zero).1 hmem).1 rfl
  refine h.of_open hopen h.wellBound.assignIndices ?_ (fun cell index position => by rw [binding?_assignIndices])
    (fun cell target hcell => by rw [binding?_assignIndices, hcell]) ⟨[], by rw [hplaces, List.append_nil]⟩
  rw [number?_assignIndices_of_notMem hzero, h.zero_number]

/-- References stay valid while they are bound. -/
theorem Valid.points (h : pool.Valid references) (hopen : pool.layout = none)
    (hpoints : Points pool.numbering pool pool') : pool'.Valid references := by
  have horder : pool'.order.toList = pool.order.toList ++ [] := by rw [hpoints.order, List.append_nil]
  have hplaces := h.wellBound.places_append horder fun cell value hcell => hpoints.owned hcell
  refine ⟨hpoints.wellBound, by rw [hpoints.number, h.zero_number], h.sorted, fun r hr => ?_, fun r hr => ?_,
    fun table htable => ?_⟩
  · rcases hpoints.binding r.cell with hkeep | ⟨index, position, target, -, -, halias⟩
    · exact h.unbound_subset r (mem_unbound_iff.2 (hkeep ▸ mem_unbound_iff.1 hr))
    · rw [mem_unbound_iff, halias] at hr
      cases hr
  · rcases h.bound r hr with hr | ⟨target, hcell, ht⟩
    · rcases hpoints.binding r.cell with hkeep | ⟨index, position, target, hindexed, ht, halias⟩
      · exact .inl (mem_unbound_iff.2 (hkeep.trans (mem_unbound_iff.1 hr)))
      · rw [mem_unbound_iff.1 hr] at hindexed
        obtain ⟨rfl, rfl⟩ := Binding.indexed.inj (Option.some.inj hindexed)
        exact .inr ⟨target, halias, target?_mono hplaces ht⟩
    · rcases hpoints.binding r.cell with hkeep | ⟨index, position, target, hindexed, -⟩
      · exact .inr ⟨target, hkeep.trans hcell, target?_mono hplaces ht⟩
      · rw [hcell] at hindexed
        cases hindexed
  · rw [hpoints.layout, hopen] at htable
    cases htable

/-- What a pool has come to once nothing stood in the way. -/
theorem settled_of_points {bound final : Pool} (hwell : bound.WellBound)
    (hpromised : ∀ cell kind name, bound.binding? cell ≠ some (.promised kind name))
    (hobstacle : obstacle? bound.constants bound.bootstraps.size bound.unbound = none)
    (hpoints : Points bound.numbering (bound.assignIndices bound.numbering) final) (hunbound : final.unbound = []) :
    Settled { final with layout := some bound.numbering } bound.numbering := by
  have hkeep : ∀ cell value, bound.binding? cell = some (.owned value) → final.binding? cell = some (.owned value) :=
    fun cell value hcell => hpoints.owned (by rw [binding?_assignIndices, hcell])
  have hnumbering : final.numbering = bound.numbering := hwell.numbering_congr hpoints.order hkeep
  obtain ⟨hlimit, hdefined, -⟩ := obstacle?_eq_none_iff.1 hobstacle
  refine ⟨hnumbering.symm, ?_, fun index cell hplace => ?_, fun cell binding hcell => ?_, fun value hvalue => ?_⟩
  · rw [hwell.numbering_next]
    exact hlimit
  · have hplace' : (index, cell) ∈ bound.places := places_congr hnumbering ▸ hplace
    exact (hpoints.number cell).trans (hwell.number?_assignIndices hplace')
  · rcases binding with value | target | ⟨index, position⟩ | ⟨kind, name⟩
    · exact .inl ⟨value, hcell⟩
    · exact .inr ⟨target, rfl⟩
    · have hmem : (⟨cell, index, position⟩ : Reference) ∈ final.unbound := mem_unbound_iff.2 hcell
      rw [hunbound] at hmem
      cases hmem
    · rcases hpoints.binding cell with hsame | ⟨_, _, _, -, -, halias⟩
      · rw [binding?_assignIndices] at hsame
        exact absurd (hsame.symm.trans hcell) (hpromised cell kind name)
      · have hcell' : final.binding? cell = some (.promised kind name) := hcell
        rw [halias] at hcell'
        cases hcell'
  · rw [hwell.constants_eq hpoints] at hvalue
    have hsize : final.bootstraps = bound.bootstraps := hpoints.bootstraps
    show undefinedIn final.bootstraps.size value = none
    rw [hsize]
    exact hdefined value hvalue

theorem Valid.finalize (h : pool.Valid references) (warnings : Array Warning) :
    (PoolOp.left (Pool.finalize ⟨pool, warnings⟩)).state.Valid references := by
  cases hfinal : pool.isFinalized with
  | true =>
    have hrun : Pool.finalize ⟨pool, warnings⟩ = .ok () ⟨pool, warnings⟩ := by
      simp only [Pool.finalize, hfinal, ↓reduceIte]
    rw [hrun]
    exact h
  | false =>
    have hopen := layout_eq_none hfinal
    rcases bindPromises_spec h.wellBound hopen with ⟨bound, hbound, hwell, hextends, hpromised⟩ |
      ⟨left, hleft, hwell, hextends⟩
    swap
    · rw [finalize_of_endless hfinal hleft]
      exact h.extends_ hopen hwell hextends
    have hresult := finalize_spec hfinal hbound hwell warnings
    have hopen' : bound.layout = none := hextends.layout.trans hopen
    have hbound := h.extends_ hopen hwell hextends
    have hassigned := hbound.assignIndices hopen'
    have hnumbering := hwell.numbering_assignIndices
    cases hobstacle : obstacle? bound.constants bound.bootstraps.size bound.unbound with
    | some e =>
      rw [hobstacle] at hresult
      obtain ⟨start, s', hrun, rfl | ⟨-, rfl⟩, hpoints⟩ := hresult
      · rw [hrun]
        exact hbound.points hopen' hpoints
      · rw [hrun]
        exact hassigned.points hopen' (by rw [hnumbering]; exact hpoints)
    | none =>
      rw [hobstacle] at hresult
      obtain ⟨final, hrun, hpoints, hunbound⟩ := hresult
      have hvalid : final.Valid references := hassigned.points hopen' (by rw [hnumbering]; exact hpoints)
      rw [hrun]
      refine ⟨hvalid.wellBound.congr (fun _ => rfl) rfl rfl rfl, hvalid.zero_number, hvalid.sorted,
        hvalid.unbound_subset, hvalid.bound, fun table htable => ?_⟩
      obtain rfl := Option.some.inj htable
      exact settled_of_points hwell hpromised hobstacle hpoints hunbound

/-! ### All operations -/

theorem Valid.apply (h : pool.Valid references) {op : PoolOp} (hcells : ∀ cell ∈ op.cells, cell.id < pool.slots.size) :
    (op.apply pool).Valid (references ++ op.references pool) := by
  have hsame : ∀ {after : Pool}, after.Valid references → after.Valid (references ++ []) := fun hafter => by
    rwa [List.append_nil]
  cases op with
  | intern value => exact hsame (h.intern hcells)
  | reference index position => exact h.reference index position
  | promise tag name => exact hsame (h.promise (hcells name (by simp [PoolOp.cells])))
  | resolve cell => exact hsame (h.resolve (hcells cell (by simp [PoolOp.cells])))
  | setRank cell rank => exact hsame (h.setRank cell rank)
  | bootstrap handle arguments => exact hsame (h.bootstrap handle arguments)
  | finalize warnings => exact hsame (h.finalize warnings)

/-- Every pool that operations lead to is valid. -/
theorem Reached.valid (h : Reached pool references) : pool.Valid references := by
  induction h with
  | empty => exact .empty
  | step op _ hcells ih => exact ih.apply hcells

theorem apply_intern (hopen : pool.isFinalized = false) {value : Constant Cell} (hfind : pool.find value = .ok none)
    (hzero : value ≠ .zero) : (PoolOp.intern value).apply pool = pool.addEntry value := by
  simp only [PoolOp.apply, Pool.intern, hzero, hfind, hopen, Bool.false_eq_true, ↓reduceIte, PoolOp.left]

/-- A constant that an open pool does not have becomes an entry. -/
theorem Reached.addEntry (h : Reached pool references) (hopen : pool.isFinalized = false) {value : Constant Cell}
    (hfind : pool.find value = .ok none) (hzero : value ≠ .zero)
    (hrefs : ∀ ref ∈ value.refs, ref.id < pool.slots.size) :
    Reached (pool.addEntry value) references := by
  have hstep : Reached _ (references ++ []) := Reached.step (.intern value) h hrefs
  rwa [apply_intern hopen hfind hzero, List.append_nil] at hstep

end Pool

end JvmAssembler
