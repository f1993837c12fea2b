import JvmAssembler.Proofs.Pool.Binding

/-!
# Binding promises

Resolving a promised wrapper may resolve its name first, and may add entries. `Extends` says what a pool keeps
all the while. Promises refer to earlier cells, so that following them comes to an end. In an open pool nothing else can
go wrong than that the search for an equal entry has none (`resolveWithin_spec`), and if all promises are bound no
promise is left (`bindPromises_spec`).
-/

namespace JvmAssembler.Pool

variable {pool pool' : Pool}

/-- The pool keeps its cells and entries, except that promised cells may have been bound, and that wrappers may
have been added. -/
structure Extends (pool pool' : Pool) : Prop where
  layout : pool'.layout = pool.layout
  bootstraps : pool'.bootstraps = pool.bootstraps
  size_le : pool.slots.size ≤ pool'.slots.size
  order : ∃ added, pool'.order.toList = pool.order.toList ++ added
  keep : ∀ cell binding, pool.binding? cell = some binding → (∀ kind name, binding ≠ .promised kind name) →
    pool'.binding? cell = some binding
  promised : ∀ cell kind name, pool.binding? cell = some (.promised kind name) →
    pool'.binding? cell = some (.promised kind name) ∨ ∃ target, pool'.binding? cell = some (.alias target)
  fresh : ∀ cell binding, pool.binding? cell = none → pool'.binding? cell = some binding →
    ∃ kind name, binding = .owned (.wrapper kind name)
  number : ∀ cell, pool'.number? cell = pool.number? cell

namespace Extends

theorem refl (pool : Pool) : Extends pool pool where
  layout := rfl
  bootstraps := rfl
  size_le := Nat.le_refl _
  order := ⟨[], (List.append_nil _).symm⟩
  keep _ _ h _ := h
  promised _ _ _ h := .inl h
  fresh cell binding h h' := by
    rw [h] at h'
    cases h'
  number _ := rfl

theorem trans {pool'' : Pool} (h : Extends pool pool') (h' : Extends pool' pool'') : Extends pool pool'' where
  layout := h'.layout.trans h.layout
  bootstraps := h'.bootstraps.trans h.bootstraps
  size_le := Nat.le_trans h.size_le h'.size_le
  order := by
    obtain ⟨added, hadded⟩ := h.order
    obtain ⟨added', hadded'⟩ := h'.order
    exact ⟨added ++ added', by rw [hadded', hadded, List.append_assoc]⟩
  keep cell binding hcell hbinding := h'.keep cell binding (h.keep cell binding hcell hbinding) hbinding
  promised cell kind name hcell := by
    rcases h.promised cell kind name hcell with hcell | ⟨target, hcell⟩
    · exact h'.promised cell kind name hcell
    · exact .inr ⟨target, h'.keep cell _ hcell nofun⟩
  fresh cell binding hnone hcell := by
    cases hmid : pool'.binding? cell with
    | none => exact h'.fresh cell binding hmid hcell
    | some mid =>
      obtain ⟨kind, name, rfl⟩ := h.fresh cell mid hnone hmid
      rw [h'.keep cell _ hmid nofun] at hcell
      exact ⟨kind, name, (Option.some.inj hcell).symm⟩
  number cell := (h'.number cell).trans (h.number cell)

theorem addEntry (pool : Pool) (kind : Wrapper) (name : Cell) : Extends pool (pool.addEntry (.wrapper kind name)) where
  layout := rfl
  bootstraps := rfl
  size_le := by
    rw [size_slots_addEntry]
    omega
  order := ⟨[⟨pool.slots.size⟩], order_addEntry pool _⟩
  keep _ _ h _ := binding?_pushSlot_of_some h
  promised _ _ _ h := .inl (binding?_pushSlot_of_some h)
  fresh cell binding hnone hcell := by
    rcases cases_of_pushSlot hcell with ⟨-, rfl⟩ | hcell
    · exact ⟨kind, name, rfl⟩
    · rw [hnone] at hcell
      cases hcell
  number := number?_addEntry pool _

/-- A cell that was promised at first may be bound later on. -/
theorem bind (h : Extends pool pool') {cell target : Cell} {kind : Wrapper} {name : Cell}
    (hcell : pool.binding? cell = some (.promised kind name)) (htarget : pool'.Owns target) (hne : cell ≠ target) :
    Extends pool (pool'.bind cell target) := by
  have hbinding := binding?_bind (canonical_of_owns htarget) hne
  obtain ⟨heq, hsize⟩ := bind_eq pool' cell target
  refine ⟨by rw [heq]; exact h.layout, by rw [heq]; exact h.bootstraps, by rw [hsize]; exact h.size_le,
    by rw [heq]; exact h.order, fun c binding hc hpromised => ?_, fun c k n hc => ?_, fun c binding hnone hc => ?_,
    fun c => by rw [number?_bind]; exact h.number c⟩
  · have hcne : c ≠ cell := by
      rintro rfl
      rw [hcell] at hc
      exact hpromised kind name (Option.some.inj hc).symm
    rw [hbinding, if_neg hcne]
    exact h.keep c binding hc hpromised
  · rw [hbinding]
    by_cases hcne : c = cell
    · rw [if_pos hcne]
      rcases h.promised c k n hc with hc | ⟨t, hc⟩ <;> exact .inr ⟨target, by rw [hc]; rfl⟩
    · rw [if_neg hcne]
      exact h.promised c k n hc
  · have hcne : c ≠ cell := by
      rintro rfl
      rw [hcell] at hnone
      cases hnone
    rw [hbinding, if_neg hcne] at hc
    exact h.fresh c binding hnone hc

theorem not_promised (h : Extends pool pool') {cell : Cell} (hlt : cell.id < pool.slots.size)
    (hcell : ∀ kind name, pool.binding? cell ≠ some (.promised kind name)) (kind : Wrapper) (name : Cell) :
    pool'.binding? cell ≠ some (.promised kind name) := by
  obtain ⟨binding, hbinding⟩ := exists_binding? hlt
  have hnot : ∀ kind name, binding ≠ .promised kind name := by
    rintro kind name rfl
    exact hcell kind name hbinding
  rw [h.keep cell binding hbinding hnot]
  exact fun heq => hnot kind name (Option.some.inj heq)

end Extends

/-! ### Resolving -/

/-- What resolving a cell gives: a cell that is not promised, and that the cell stands for from now on. -/
structure Resolves (pool : Pool) (cell target : Cell) (pool' : Pool) : Prop where
  wellBound : pool'.WellBound
  extends_ : Extends pool pool'
  canonical : pool'.canonical cell = target
  target : pool'.Owns target ∨ ∃ index position, pool'.binding? target = some (.indexed index position)
  bound : ∀ kind name, pool'.binding? cell ≠ some (.promised kind name)

theorem Resolves.target_lt {cell target : Cell} (h : Resolves pool cell target pool') :
    target.id < pool'.slots.size := by
  rcases h.target with ⟨value, hvalue⟩ | ⟨index, position, hindexed⟩
  · exact lt_of_binding? hvalue
  · exact lt_of_binding? hindexed

/-- A promised cell is bound to the cell that was found or made for it. -/
private theorem resolves_of_bind (h : Extends pool pool') (hwell : pool'.WellBound) {cell target : Cell}
    {kind : Wrapper} {name : Cell} (hcell : pool.binding? cell = some (.promised kind name))
    (htarget : pool'.Owns target) : Resolves pool cell target (pool'.bind cell target) := by
  have hcell' := h.promised cell kind name hcell
  have hnot : ¬ pool'.Owns cell := by
    rcases hcell' with hcell' | ⟨t, hcell'⟩ <;> exact not_owns_of_binding? hcell' (by simp)
  have halias : (pool'.bind cell target).binding? cell = some (.alias target) := by
    rcases hcell' with hcell' | ⟨t, hcell'⟩ <;> exact binding?_bind_self hcell' hnot htarget
  have hwell' := hwell.bind hnot htarget
  refine ⟨hwell', h.bind hcell htarget fun heq => hnot (heq ▸ htarget), canonical_of_alias hwell' halias,
    .inl (hwell'.alias_owns cell target halias), fun k n hpromised => ?_⟩
  rw [halias] at hpromised
  cases hpromised

/-- A cell that is not promised stands for an entry or for an index. -/
private theorem WellBound.canonical_decided (h : pool.WellBound) {cell : Cell} (hlt : cell.id < pool.slots.size)
    (hcell : ∀ kind name, pool.binding? cell ≠ some (.promised kind name)) :
    pool.Owns (pool.canonical cell) ∨
      ∃ index position, pool.binding? (pool.canonical cell) = some (.indexed index position) := by
  obtain ⟨binding, hbinding⟩ := exists_binding? hlt
  rcases binding with value | target | ⟨index, position⟩ | ⟨kind, name⟩
  · rw [canonical_of_owns ⟨value, hbinding⟩]
    exact .inl ⟨value, hbinding⟩
  · rw [canonical_of_alias h hbinding]
    exact .inl (h.alias_owns cell target hbinding)
  · rw [canonical_of_not_alias (by simp [hbinding])]
    exact .inr ⟨index, position, hbinding⟩
  · exact absurd hbinding (hcell kind name)

/-- Resolving a cell that is not promised leaves the pool as it is. -/
theorem resolveWithin_of_not_promised (h : pool.WellBound) (hopen : pool.layout = none) {cell : Cell}
    (hlt : cell.id < pool.slots.size) (hcell : ∀ kind name, pool.binding? cell ≠ some (.promised kind name))
    (fuel : Nat) : resolveWithin (fuel + 1) cell pool = .ok (pool.canonical cell) pool := by
  have hfinal : pool.isFinalized = false := by rw [isFinalized, hopen]; rfl
  rcases h.canonical_decided hlt hcell with ⟨value, hvalue⟩ | ⟨index, position, hindexed⟩
  · obtain ⟨rank, hslot⟩ := slot?_eq_of_binding? hvalue
    simp only [resolveWithin, hslot]
  · obtain ⟨rank, hslot⟩ := slot?_eq_of_binding? hindexed
    simp only [resolveWithin, hslot, hfinal, Bool.false_eq_true, ↓reduceIte]

/-- A promised cell is resolved after its name. -/
theorem resolveWithin_of_promised {cell : Cell} {kind : Wrapper} {name : Cell}
    (hcell : pool.binding? cell = some (.promised kind name)) (fuel : Nat) :
    resolveWithin (fuel + 1) cell pool = match resolveWithin fuel name pool with
      | .error e named => .error e named
      | .ok owner named =>
        match named.find (.wrapper kind owner) with
        | .error e => .error e named
        | .ok (some target) => .ok target (named.bind cell target)
        | .ok none =>
          if named.isFinalized then .error (.unresolvedConstant cell) named
          else .ok ⟨named.slots.size⟩ ((named.addEntry (.wrapper kind owner)).bind cell ⟨named.slots.size⟩) := by
  obtain ⟨rank, hslot⟩ := slot?_eq_of_binding? hcell
  have hcanonical : pool.canonical cell = cell := canonical_of_not_alias (by simp [hcell])
  cases hname : resolveWithin fuel name pool with
  | error e named => simp only [resolveWithin, hcanonical, hslot, hname]
  | ok owner named =>
    cases hfind : named.find (.wrapper kind owner) with
    | error e => simp only [resolveWithin, hcanonical, hslot, hname, hfind]
    | ok found => cases found <;> simp only [resolveWithin, hcanonical, hslot, hname, hfind]

/-- In an open pool a cell can be resolved, unless a search on the way has no end. The fuel suffices because names come
before their wrappers. -/
theorem resolveWithin_spec (h : pool.WellBound) (hopen : pool.layout = none) {fuel : Nat} {cell : Cell}
    (hlt : cell.id < pool.slots.size) (hfuel : cell.id < fuel) :
    (∃ target pool', resolveWithin fuel cell pool = .ok target pool' ∧ Resolves pool cell target pool') ∨
      ∃ pool', resolveWithin fuel cell pool = .error .endless pool' ∧ pool'.WellBound ∧ Extends pool pool' := by
  induction fuel generalizing cell with
  | zero => omega
  | succ fuel ih =>
    by_cases hpromised : ∃ kind name, pool.binding? cell = some (.promised kind name)
    · obtain ⟨kind, name, hbinding⟩ := hpromised
      have hname := h.name_lt cell kind name hbinding
      rw [resolveWithin_of_promised hbinding]
      rcases ih (show name.id < pool.slots.size by omega) (by omega) with ⟨owner, named, hrun, hnamed⟩ |
        ⟨named, hrun, hnamed⟩
      · have hopen' : named.isFinalized = false := by rw [isFinalized, hnamed.extends_.layout, hopen]; rfl
        simp only [hrun]
        rcases hfind : named.find (.wrapper kind owner) with e | _ | target
        · obtain ⟨rfl, -⟩ := find_eq_error hfind
          exact .inr ⟨named, rfl, hnamed.wellBound, hnamed.extends_⟩
        · simp only [hopen', Bool.false_eq_true, ↓reduceIte]
          have hrefs : ∀ ref ∈ (Constant.wrapper kind owner).refs, ref.id < named.slots.size := by
            intro ref href
            obtain rfl := List.mem_singleton.1 href
            exact hnamed.target_lt
          have howns : (named.addEntry (.wrapper kind owner)).Owns ⟨named.slots.size⟩ :=
            ⟨.wrapper kind owner, by rw [binding?_addEntry, if_pos rfl]⟩
          exact .inl ⟨⟨named.slots.size⟩, _, rfl, resolves_of_bind (hnamed.extends_.trans (.addEntry named kind owner))
            (hnamed.wellBound.addEntry (by simp) hrefs) hbinding howns⟩
        · exact .inl ⟨target, _, rfl, resolves_of_bind hnamed.extends_ hnamed.wellBound hbinding
            (hnamed.wellBound.find?_owns (find?_of_find hfind))⟩
      · simp only [hrun]
        exact .inr ⟨named, rfl, hnamed⟩
    · have hnot : ∀ kind name, pool.binding? cell ≠ some (.promised kind name) :=
        fun kind name hcell => hpromised ⟨kind, name, hcell⟩
      exact .inl ⟨pool.canonical cell, pool, resolveWithin_of_not_promised h hopen hlt hnot fuel, h, .refl pool, rfl,
        h.canonical_decided hlt hnot, hnot⟩

theorem resolve_spec (h : pool.WellBound) (hopen : pool.layout = none) {cell : Cell} (hlt : cell.id < pool.slots.size) :
    (∃ target pool', resolve cell pool = .ok target pool' ∧ Resolves pool cell target pool') ∨
      ∃ pool', resolve cell pool = .error .endless pool' ∧ pool'.WellBound ∧ Extends pool pool' :=
  resolveWithin_spec h hopen hlt (by omega)

theorem resolve_of_owns {cell : Cell} (h : pool.Owns (pool.canonical cell)) :
    resolve cell pool = .ok (pool.canonical cell) pool := by
  obtain ⟨value, hvalue⟩ := h
  obtain ⟨rank, hslot⟩ := slot?_eq_of_binding? hvalue
  simp only [resolve, resolveWithin, hslot]

/-! ### Binding all promises -/

theorem bindPromise_of_promised {id : Nat} {kind : Wrapper} {name : Cell}
    (h : pool.binding? ⟨id⟩ = some (.promised kind name)) :
    bindPromise id pool = match resolve ⟨id⟩ pool with
      | .ok _ bound => .ok () bound
      | .error e left => .error e left := by
  obtain ⟨rank, hslot⟩ := slot?_eq_of_binding? h
  rw [slot?] at hslot
  simp only [bindPromise, hslot]
  show EStateM.map _ _ pool = _
  rw [EStateM.map]
  cases resolve ⟨id⟩ pool <;> rfl

theorem bindPromise_of_not_promised {id : Nat} (h : ∀ kind name, pool.binding? ⟨id⟩ ≠ some (.promised kind name)) :
    bindPromise id pool = .ok () pool := by
  rw [bindPromise]
  split
  · rename_i hslot
    exact absurd (by rw [binding?, slot?, hslot]; rfl) (h _ _)
  · rfl

private theorem bindPromise_spec (h : pool.WellBound) (hopen : pool.layout = none) {id : Nat}
    (hlt : id < pool.slots.size) :
    (∃ pool', bindPromise id pool = .ok () pool' ∧ pool'.WellBound ∧ Extends pool pool' ∧
        ∀ kind name, pool'.binding? ⟨id⟩ ≠ some (.promised kind name)) ∨
      ∃ pool', bindPromise id pool = .error .endless pool' ∧ pool'.WellBound ∧ Extends pool pool' := by
  by_cases hpromised : ∃ kind name, pool.binding? ⟨id⟩ = some (.promised kind name)
  · obtain ⟨kind, name, hbinding⟩ := hpromised
    rw [bindPromise_of_promised hbinding]
    rcases resolve_spec h hopen (show (⟨id⟩ : Cell).id < pool.slots.size from hlt) with
      ⟨target, pool', hrun, hresolves⟩ | ⟨pool', hrun, hkept⟩
    · rw [hrun]
      exact .inl ⟨pool', rfl, hresolves.wellBound, hresolves.extends_, hresolves.bound⟩
    · rw [hrun]
      exact .inr ⟨pool', rfl, hkept⟩
  · have hnot : ∀ kind name, pool.binding? ⟨id⟩ ≠ some (.promised kind name) :=
      fun kind name hcell => hpromised ⟨kind, name, hcell⟩
    exact .inl ⟨pool, bindPromise_of_not_promised hnot, h, .refl pool, hnot⟩

theorem forM_bindPromise_spec (h : pool.WellBound) (hopen : pool.layout = none) {ids : List Nat}
    (hlt : ∀ id ∈ ids, id < pool.slots.size) :
    (∃ pool', ids.forM bindPromise pool = .ok () pool' ∧ pool'.WellBound ∧ Extends pool pool' ∧
        ∀ id ∈ ids, ∀ kind name, pool'.binding? ⟨id⟩ ≠ some (.promised kind name)) ∨
      ∃ pool', ids.forM bindPromise pool = .error .endless pool' ∧ pool'.WellBound ∧ Extends pool pool' := by
  induction ids generalizing pool with
  | nil => exact .inl ⟨pool, rfl, h, .refl pool, by simp⟩
  | cons id ids ih =>
    rw [forM_cons_run, EStateM.bind]
    rcases bindPromise_spec h hopen (hlt id (by simp)) with ⟨mid, hrun, hwell, hextends, hbound⟩ |
      ⟨pool', hrun, hkept⟩
    · rw [hrun]
      have hlt' : ∀ id' ∈ ids, id' < mid.slots.size :=
        fun id' hid' => Nat.lt_of_lt_of_le (hlt id' (by simp [hid'])) hextends.size_le
      rcases ih hwell (hextends.layout.trans hopen) hlt' with
        ⟨pool', hrun', hwell', hextends', hbound'⟩ | ⟨pool', hrun', hwell', hextends'⟩
      · refine .inl ⟨pool', hrun', hwell', hextends.trans hextends', fun id' hid' => ?_⟩
        rcases List.mem_cons.1 hid' with rfl | hid'
        · exact hextends'.not_promised (Nat.lt_of_lt_of_le (hlt id' (by simp)) hextends.size_le) hbound
        · exact hbound' id' hid'
      · exact .inr ⟨pool', hrun', hwell', hextends.trans hextends'⟩
    · rw [hrun]
      exact .inr ⟨pool', rfl, hkept⟩

/-- In an open pool all promises can be bound, unless a search on the way has no end. -/
theorem bindPromises_spec (h : pool.WellBound) (hopen : pool.layout = none) :
    (∃ bound, bindPromises pool = .ok () bound ∧ bound.WellBound ∧ Extends pool bound ∧
        ∀ cell kind name, bound.binding? cell ≠ some (.promised kind name)) ∨
      ∃ pool', bindPromises pool = .error .endless pool' ∧ pool'.WellBound ∧ Extends pool pool' := by
  refine (forM_bindPromise_spec h hopen fun id (hid : id ∈ List.range pool.slots.size) => List.mem_range.1 hid).imp
    ?_ id
  rintro ⟨bound, hrun, hwell, hextends, hbound⟩
  refine ⟨bound, hrun, hwell, hextends, fun cell kind name hcell => ?_⟩
  by_cases hlt : cell.id < pool.slots.size
  · exact hbound cell.id (List.mem_range.2 hlt) kind name hcell
  · -- A cell that was made on the way owns its entry.
    obtain ⟨k, n, heq⟩ := hextends.fresh cell _ (binding?_eq_none_iff.2 (by omega)) hcell
    cases heq

end JvmAssembler.Pool
