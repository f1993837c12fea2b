import JvmAssembler.Proofs.Pool.Change

/-!
# Operations on any cells

Nothing keeps an operation from being given cells that the pool never handed out, so that promises may go round in
circles and constants may refer to what is not there. Even then an entry, once added, is never taken back: only cells
that own no entry are bound, and only to cells that own one. `Edit` is one such step, `Sound` is what it keeps, and
`Sound.edits_apply` says that every operation but a request for a bootstrap method is made of edits.
-/

namespace JvmAssembler

/-- Whether the operation asks for a bootstrap method. -/
def PoolOp.isBootstrap : PoolOp → Bool
  | bootstrap _ _ => true
  | _ => false

namespace Pool

variable {pool pool' pool'' : Pool}

/-- The pool after a sequence of operations. -/
def run (pool : Pool) (ops : List PoolOp) : Pool := ops.foldl PoolOp.apply pool

@[simp] theorem run_nil (pool : Pool) : pool.run [] = pool := rfl

@[simp] theorem run_cons (pool : Pool) (op : PoolOp) (ops : List PoolOp) :
    pool.run (op :: ops) = (op.apply pool).run ops := rfl

theorem run_append (pool : Pool) (ops more : List PoolOp) : pool.run (ops ++ more) = (pool.run ops).run more :=
  List.foldl_append

/-! ### What is kept -/

/-- The dynamically computed entries have their bootstrap methods. -/
def Bounded (pool : Pool) : Prop :=
  ∀ cell value bootstrap, pool.binding? cell = some (.owned value) → value.bootstrap? = some bootstrap →
    bootstrap.toNat < pool.bootstraps.size

/-- What holds of the entries of a pool, wherever the cells in them are from. -/
structure Sound (pool : Pool) : Prop where
  zero : pool.binding? .zero = some (.owned .zero)
  mem_order : ∀ cell, cell ∈ pool.order.toList ↔ cell ≠ .zero ∧ pool.Owns cell
  byValue_owns : ∀ (value : Constant Cell) (cell : Cell), pool.byValue[value]? = some cell → pool.Owns cell
  byContent_owns : ∀ (content : Content) (cell : Cell), pool.byContent[content]? = some cell → pool.Owns cell
  bounded : pool.isFinalized = true → pool.Bounded

theorem Sound.empty : Sound Pool.empty where
  zero := WellBound.empty.zero
  mem_order := WellBound.empty.mem_order
  byValue_owns value cell h := ⟨value, WellBound.empty.byValue_eq value cell h⟩
  byContent_owns := WellBound.empty.byContent_owns
  bounded h := by cases h

/-- Only the entries count. -/
theorem Sound.congr (h : pool.Sound)
    (howned : ∀ cell value, pool'.binding? cell = some (.owned value) ↔ pool.binding? cell = some (.owned value))
    (horder : pool'.order = pool.order) (hvalue : pool'.byValue = pool.byValue)
    (hcontent : pool'.byContent = pool.byContent) (hbounded : pool'.isFinalized = true → pool'.Bounded) :
    pool'.Sound where
  zero := (howned _ _).2 h.zero
  mem_order cell := by simp only [horder, h.mem_order, Owns, howned]
  byValue_owns := by simpa only [hvalue, Owns, howned] using h.byValue_owns
  byContent_owns := by simpa only [hcontent, Owns, howned] using h.byContent_owns
  bounded := hbounded

/-- A check of the entries in order is a check of all. -/
theorem Sound.bounded_of_undefinedBootstrap? (h : pool.Sound) (hnone : pool.undefinedBootstrap? = none) :
    pool.Bounded := by
  intro cell value bootstrap hcell hbootstrap
  have hne : cell ≠ .zero := by
    rintro rfl
    obtain rfl : value = .zero := by simpa [h.zero, eq_comm] using hcell
    cases hbootstrap
  have hmem : value ∈ pool.constants :=
    List.mem_filterMap.2 ⟨cell, (h.mem_order cell).2 ⟨hne, value, hcell⟩, get?_of_owned hcell⟩
  rw [undefinedBootstrap?_eq, List.findSome?_eq_none_iff] at hnone
  exact undefinedIn_eq_none_iff.1 (hnone value hmem) bootstrap hbootstrap

/-! ### Edits -/

/-- One step of an operation. -/
inductive Edit : Pool → Pool → Prop where
  /-- A cell is handed out, and it is decided later what it stands for. -/
  | push {pool : Pool} {binding : Binding} : binding.isPending = true → Edit pool (pool.pushSlot binding)
  /-- A constant becomes an entry of an open pool. -/
  | add {pool : Pool} {value : Constant Cell} : pool.isFinalized = false → Edit pool (pool.addEntry value)
  /-- A cell that owns no entry comes to stand for one. -/
  | bind {pool : Pool} {cell target : Cell} : ¬ pool.Owns cell → pool.Owns target → Edit pool (pool.bind cell target)
  /-- The rank of an entry goes up. -/
  | rank {pool : Pool} (cell : Cell) (rank : Rank) : Edit pool (pool.setRank cell rank)
  /-- The entries get their indices. -/
  | number {pool : Pool} : Edit pool (pool.assignIndices pool.numbering)
  /-- The pool is finalized. -/
  | close {pool : Pool} (table : OffsetTable Cell) : pool.Bounded → Edit pool { pool with layout := some table }

/-- Binding a cell that owns no entry leaves the entries alone. -/
theorem owned_bind_iff {cell target : Cell} (hcell : ¬ pool.Owns cell) (htarget : pool.Owns target) (c : Cell)
    (value : Constant Cell) :
    (pool.bind cell target).binding? c = some (.owned value) ↔ pool.binding? c = some (.owned value) := by
  rw [binding?_bind_of_owns hcell htarget]
  by_cases hc : c = cell
  · subst hc
    have hnot : pool.binding? c ≠ some (.owned value) := fun hvalue => hcell ⟨value, hvalue⟩
    simp [hnot]
  · rw [if_neg hc]

theorem Bounded.bind (h : pool.Bounded) {cell target : Cell} (hcell : ¬ pool.Owns cell) (htarget : pool.Owns target) :
    (pool.bind cell target).Bounded := by
  intro c value bootstrap hc hbootstrap
  rw [owned_bind_iff hcell htarget] at hc
  rw [(bind_eq pool cell target).1]
  exact h c value bootstrap hc hbootstrap

namespace Edit

/-- The requests for bootstrap methods are not touched. -/
theorem bootstraps (h : Edit pool pool') :
    pool'.bootstraps = pool.bootstraps ∧ pool'.bootstrapIndex = pool.bootstrapIndex := by
  cases h with
  | bind =>
    rw [(bind_eq pool _ _).1]
    exact ⟨rfl, rfl⟩
  | _ => exact ⟨rfl, rfl⟩

/-- A cell that the pool has handed out comes to own no entry, and keeps the one that it owns. -/
theorem owned_iff (h : Edit pool pool') {cell : Cell} (hcell : cell.id < pool.slots.size) (value : Constant Cell) :
    pool'.binding? cell = some (.owned value) ↔ pool.binding? cell = some (.owned value) := by
  have hne : cell.id ≠ pool.slots.size := Nat.ne_of_lt hcell
  cases h with
  | push => rw [binding?_pushSlot, if_neg hne]
  | add => rw [binding?_addEntry, if_neg hne]
  | bind hnot htarget => exact owned_bind_iff hnot htarget cell value
  | rank => rw [binding?_setRank]
  | number => rw [binding?_assignIndices]
  | close => rfl

theorem size_le (h : Edit pool pool') : pool.slots.size ≤ pool'.slots.size := by
  cases h with
  | push => exact Nat.le_of_lt (by simp)
  | add => exact Nat.le_of_lt (by simp)
  | bind => rw [(bind_eq pool _ _).2]
  | rank => rw [size_slots_setRank]
  | number => rw [size_slots_assignIndices]
  | close => exact Nat.le_refl _

end Edit

theorem Sound.addEntry (h : pool.Sound) (hopen : pool.isFinalized = false) (value : Constant Cell) :
    (pool.addEntry value).Sound := by
  have howns : ∀ cell, (pool.addEntry value).Owns cell ↔ pool.Owns cell ∨ cell = ⟨pool.slots.size⟩ := by
    rintro ⟨id⟩
    simp only [Owns, binding?_addEntry, Cell.mk.injEq]
    by_cases hid : id = pool.slots.size
    · simp [hid]
    · simp [hid]
  have hsize : 0 < pool.slots.size := lt_of_binding? h.zero
  refine ⟨binding?_pushSlot_of_some h.zero, fun cell => ?_, fun found cell hfound => ?_, fun content cell hfound => ?_,
    fun hfinal => ?_⟩
  · have hnew : cell = ⟨pool.slots.size⟩ → cell ≠ .zero := by
      rintro rfl heq
      exact Nat.ne_of_gt hsize (Cell.mk.inj heq)
    rw [order_addEntry, List.mem_append, List.mem_singleton, h.mem_order, howns]
    tauto
  · rw [howns]
    rcases cases_of_byValue_addEntry hfound with ⟨-, rfl⟩ | hold
    · exact .inr rfl
    · exact .inl (h.byValue_owns found cell hold)
  · rw [howns]
    rcases cases_of_byContent_addEntry hfound with ⟨-, rfl⟩ | hold
    · exact .inr rfl
    · exact .inl (h.byContent_owns content cell hold)
  · cases hopen.symm.trans hfinal

theorem Sound.pushSlot (h : pool.Sound) {binding : Binding} (hpending : binding.isPending = true) :
    (pool.pushSlot binding).Sound := by
  have howned : ∀ cell value, (pool.pushSlot binding).binding? cell = some (.owned value) ↔
      pool.binding? cell = some (.owned value) := by
    intro cell value
    refine ⟨fun hcell => ?_, fun hcell => binding?_pushSlot_of_some hcell⟩
    rcases cases_of_pushSlot hcell with ⟨-, rfl⟩ | hcell
    · cases hpending
    · exact hcell
  refine h.congr howned rfl rfl rfl fun hfinal cell value bootstrap hcell => ?_
  exact h.bounded hfinal cell value bootstrap ((howned cell value).1 hcell)

theorem Edit.sound (h : Edit pool pool') (hsound : pool.Sound) : pool'.Sound := by
  cases h with
  | push hpending => exact hsound.pushSlot hpending
  | add hopen => exact hsound.addEntry hopen _
  | @bind cell target hcell htarget =>
    have heq := (bind_eq pool cell target).1
    have hfinal : (pool.bind cell target).isFinalized = pool.isFinalized := by rw [heq]; rfl
    refine hsound.congr (owned_bind_iff hcell htarget) (by rw [heq]) (by rw [heq]) (by rw [heq]) fun hclosed => ?_
    exact (hsound.bounded (hfinal ▸ hclosed)).bind hcell htarget
  | rank cell rank =>
    refine hsound.congr (fun c value => by rw [binding?_setRank]) rfl rfl rfl fun hclosed c value bootstrap hc => ?_
    rw [binding?_setRank] at hc
    exact hsound.bounded hclosed c value bootstrap hc
  | number =>
    refine hsound.congr (fun c value => by rw [binding?_assignIndices]) rfl rfl rfl
      fun hclosed c value bootstrap hc => ?_
    rw [binding?_assignIndices] at hc
    exact hsound.bounded hclosed c value bootstrap hc
  | close table hbounded => exact hsound.congr (fun _ _ => Iff.rfl) rfl rfl rfl fun _ => hbounded

/-- Edits lead from one pool to the other. -/
abbrev Edits : Pool → Pool → Prop := Relation.ReflTransGen Edit

namespace Edits

theorem sound (h : Edits pool pool') (hsound : pool.Sound) : pool'.Sound := by
  induction h with
  | refl => exact hsound
  | tail _ hstep ih => exact hstep.sound ih

theorem size_le (h : Edits pool pool') : pool.slots.size ≤ pool'.slots.size := by
  induction h with
  | refl => exact Nat.le_refl _
  | tail _ hstep ih => exact Nat.le_trans ih hstep.size_le

theorem owns_iff (h : Edits pool pool') {cell : Cell} (hcell : cell.id < pool.slots.size) :
    pool'.Owns cell ↔ pool.Owns cell := by
  induction h with
  | refl => exact Iff.rfl
  | tail hmid hstep ih =>
    rw [← ih]
    exact exists_congr fun value => hstep.owned_iff (Nat.lt_of_lt_of_le hcell (size_le hmid)) value

theorem bootstraps (h : Edits pool pool') :
    pool'.bootstraps = pool.bootstraps ∧ pool'.bootstrapIndex = pool.bootstrapIndex := by
  induction h with
  | refl => exact ⟨rfl, rfl⟩
  | tail _ hstep ih => exact ⟨hstep.bootstraps.1.trans ih.1, hstep.bootstraps.2.trans ih.2⟩

end Edits

/-! ### The operations as edits -/

/-- Resolving a cell, even one whose promise leads back to itself. -/
theorem Sound.edits_resolveWithin (h : pool.Sound) (fuel : Nat) (cell : Cell) :
    Edits pool (PoolOp.left (resolveWithin fuel cell pool)) := by
  induction fuel generalizing cell with
  | zero => exact .refl
  | succ fuel ih =>
    rw [resolveWithin]
    simp only
    split
    · exact .refl
    · exact .refl
    · exact .refl
    · split <;> exact .refl
    · rename_i kind name index rank hslot
      have hname := ih name
      have hbinding : pool.binding? (pool.canonical cell) = some (.promised kind name) := by
        rw [binding?, hslot]
        rfl
      cases hrun : resolveWithin fuel name pool with
      | error e mid =>
        rw [hrun] at hname
        exact hname
      | ok owner mid =>
        replace hname : Edits pool mid := by rwa [hrun] at hname
        have hmid : mid.Sound := hname.sound h
        -- No edit gives an entry to a cell that is there, so the promised cell owns none, even if the name led back to
        -- it.
        have hnot : ¬ mid.Owns (pool.canonical cell) := by
          rw [hname.owns_iff (lt_of_binding? hbinding)]
          exact not_owns_of_isPending hbinding rfl
        simp only
        rcases hfind : mid.find (.wrapper kind owner) with e | _ | target
        · exact hname
        · simp only
          split
          · exact hname
          · rename_i hopen
            have hadd : Edit mid (mid.addEntry (.wrapper kind owner)) := .add (by simpa using hopen)
            have hself : (mid.addEntry (.wrapper kind owner)).Owns ⟨mid.slots.size⟩ :=
              ⟨_, by rw [binding?_addEntry, if_pos rfl]⟩
            have hlt : (pool.canonical cell).id < mid.slots.size :=
              Nat.lt_of_lt_of_le (lt_of_binding? hbinding) hname.size_le
            refine (hname.tail hadd).tail (.bind ?_ hself)
            rwa [(Edits.owns_iff (.single hadd) hlt)]
        · exact hname.tail (.bind hnot (owns_of_find? hmid.byValue_owns hmid.byContent_owns (find?_of_find hfind)))

theorem Sound.edits_bindPromises (h : pool.Sound) : Edits pool (PoolOp.left (bindPromises pool)) := by
  refine PoolOp.left_forM (Edits pool) (fun id mid hmid => ?_) _ .refl
  rw [bindPromise]
  split
  · have hresolve := (hmid.sound h).edits_resolveWithin (mid.slots.size + 1) ⟨id⟩
    refine hmid.trans ?_
    have hdiscard : PoolOp.left (discard (Pool.resolve ⟨id⟩) mid) = PoolOp.left (Pool.resolve ⟨id⟩ mid) := by
      show PoolOp.left (EStateM.map _ _ mid) = _
      rw [EStateM.map]
      cases Pool.resolve ⟨id⟩ mid <;> rfl
    rw [hdiscard]
    exact hresolve
  · exact hmid

/-- Binding the references up to the first that leads nowhere. -/
theorem Bounded.edits_bindReferences (h : pool.Bounded) {table : OffsetTable Cell}
    (htargets : ∀ index target, target? table index = some target → pool.Owns target) (warnings : Array Warning) :
    Edits pool (PoolOp.left (bindReferences table ⟨pool, warnings⟩)).state ∧
      (PoolOp.left (bindReferences table ⟨pool, warnings⟩)).state.Bounded := by
  refine PoolOp.left_forM (fun s : Reported Pool => Edits pool s.state ∧ s.state.Bounded) (fun id s hs => ?_) _
    ⟨.refl, h⟩
  obtain ⟨mid, reported⟩ := s
  obtain ⟨hedits, hmid⟩ := hs
  rw [bindReference_eq]
  cases hreference : mid.reference? id with
  | none => exact ⟨hedits, hmid⟩
  | some reference =>
    simp only
    cases htarget : target? table reference.index with
    | none => exact ⟨hedits, hmid⟩
    | some target =>
      have hnot : ¬ mid.Owns reference.cell := not_owns_of_isPending (reference?_eq_some_iff.1 hreference).2 rfl
      have howns : mid.Owns target := by
        obtain ⟨value, hvalue⟩ := htargets _ _ htarget
        exact (hedits.owns_iff (lt_of_binding? hvalue)).2 ⟨value, hvalue⟩
      exact ⟨hedits.tail (.bind hnot howns), hmid.bind hnot howns⟩

theorem Sound.edits_giveIndices (h : pool.Sound) (warnings : Array Warning) :
    Edits pool (PoolOp.left (giveIndices ⟨pool, warnings⟩)).state := by
  rw [giveIndices]
  simp only
  split
  · exact .refl
  · have hnumbered : Edits pool (pool.assignIndices pool.numbering) := .single .number
    split
    · exact hnumbered
    · rename_i hdefined
      -- The entries are checked before the references are bound, and binding adds none.
      have hbounded := (hnumbered.sound h).bounded_of_undefinedBootstrap? hdefined
      have htargets : ∀ index target, target? pool.numbering index = some target →
          (pool.assignIndices pool.numbering).Owns target :=
        fun index target htarget => owns_assignIndices_iff.2 (owns_of_target? h.zero h.mem_order htarget)
      obtain ⟨hedits, hfinal⟩ := hbounded.edits_bindReferences htargets warnings
      split
      · rename_i e s hrun
        rw [hrun] at hedits
        exact hnumbered.trans hedits
      · rename_i u final reported hrun
        rw [hrun] at hedits hfinal
        exact (hnumbered.trans hedits).tail (.close _ hfinal)

theorem Sound.edits_finalize (h : pool.Sound) (warnings : Array Warning) :
    Edits pool (PoolOp.left (Pool.finalize ⟨pool, warnings⟩)).state := by
  have hbound := h.edits_bindPromises
  rw [Pool.finalize]
  split
  · exact .refl
  · rw [Reporting.lift]
    cases hrun : bindPromises pool with
    | error e mid =>
      rw [hrun] at hbound
      exact hbound
    | ok u mid =>
      rw [hrun] at hbound
      exact hbound.trans ((hbound.sound h).edits_giveIndices warnings)

/-- Every operation but a request for a bootstrap method is made of edits. -/
theorem Sound.edits_apply (h : pool.Sound) {op : PoolOp} (hop : op.isBootstrap = false) :
    Edits pool (op.apply pool) := by
  cases op with
  | bootstrap handle arguments => cases hop
  | setRank cell rank => exact .single (.rank cell rank)
  | resolve cell => exact h.edits_resolveWithin _ cell
  | finalize warnings => exact h.edits_finalize warnings
  | intern value =>
    rw [PoolOp.apply]
    rcases left_intern_cases value pool with heq | ⟨-, -, hopen, heq⟩ <;> rw [heq]
    exact .single (.add hopen)
  | reference index position =>
    rw [PoolOp.apply, Pool.reference]
    split
    · exact .refl
    · exact .single (.push rfl)
  | promise tag name =>
    rw [PoolOp.apply, Pool.promise]
    split
    · exact .refl
    · split
      · exact .refl
      · exact .single (.push rfl)

theorem Sound.edits_run (h : pool.Sound) {ops : List PoolOp} (hops : ∀ op ∈ ops, op.isBootstrap = false) :
    Edits pool (pool.run ops) := by
  induction ops generalizing pool with
  | nil => exact .refl
  | cons op ops ih =>
    have hstep := h.edits_apply (hops op (by simp))
    exact hstep.trans (ih (hstep.sound h) fun other hother => hops other (by simp [hother]))

end Pool

end JvmAssembler
