import JvmAssembler.Proofs.Pool.BindStep

/-!
# Which promises can be bound

The wrapper of a promised cell is looked up by what its name stands for, and by its content if the pool has no such
entry. So a promise whose content is looked for without an end can be bound only if the pool has its wrapper as it is
(`Literal`). Binding other promises adds no wrapper of this kind, and it can be told from the pool as it is whether all
of its promises can be bound (`Faithful.bindPromises_endless_iff`). The entry that a promise is bound to is the
promised wrapper or has its content (`Fulfils`).
-/

namespace JvmAssembler.Pool

variable {pool pool' : Pool} {cell name owner target : Cell} {kind : Wrapper}

/-! ### Contents of wrappers -/

theorem contentOf_wrapper (pool : Pool) (kind : Wrapper) (name : Cell) :
    pool.contentOf (.wrapper kind name) =
      (pool.content name).andThen fun x => .ok (some (.unary (.wrapper kind ()) x)) := rfl

theorem contentOf_wrapper_ok_iff (kind : Wrapper) :
    (∃ found, pool.contentOf (.wrapper kind name) = .ok found) ↔ pool.Ends name := by
  rw [contentOf_wrapper, Ends]
  rcases pool.content name with e | _ | x <;> simp [Search.andThen]

theorem ends_iff_of_promised (h : pool.binding? cell = some (.promised kind name)) :
    pool.Ends cell ↔ pool.Ends name := by
  rw [Ends, content_eq, meaning?_of_promised h]
  exact contentOf_wrapper_ok_iff kind

theorem lt_of_not_ends (h : ¬ pool.Ends cell) : cell.id < pool.slots.size := by
  cases hvalue : pool.meaning? cell with
  | some value => exact lt_of_meaning? hvalue
  | none => exact absurd ⟨none, by rw [content_eq, hvalue]; rfl⟩ h

theorem KeepsContent.ends_iff (h : KeepsContent pool pool') (hcell : cell.id < pool.slots.size) :
    pool'.Ends cell ↔ pool.Ends cell := by
  rw [Ends, h cell hcell, Ends]

/-- A wrapper whose content is looked for without an end is found as it is or not at all. -/
theorem ends_or_byValue_of_find {found : Option Cell} (hfind : pool.find (.wrapper kind owner) = .ok found) :
    pool.Ends owner ∨ ∃ target, found = some target ∧ pool.byValue[Constant.wrapper kind owner]? = some target := by
  rw [find] at hfind
  split at hfind
  · rename_i target hvalue
    exact .inr ⟨target, (Except.ok.inj hfind).symm, hvalue⟩
  · left
    rw [← contentOf_wrapper_ok_iff kind]
    cases hcontent : pool.contentOf (.wrapper kind owner) with
    | ok content => exact ⟨content, rfl⟩
    | error e =>
      rw [hcontent] at hfind
      cases hfind

/-! ### Wrappers that the pool has as they are -/

/-- What a cell stands for can be told without a look at contents. A promised wrapper stands for the entry that is the
wrapper of what its name stands for. -/
inductive Literal (pool : Pool) : Cell → Cell → Prop where
  | decided {cell : Cell} : (∀ kind name, pool.binding? cell ≠ some (.promised kind name)) →
      Literal pool cell (pool.canonical cell)
  | promised {cell name owner target : Cell} {kind : Wrapper} : pool.binding? cell = some (.promised kind name) →
      Literal pool name owner → pool.byValue[Constant.wrapper kind owner]? = some target → Literal pool cell target

/-- The content of a promised wrapper is looked for without an end, and the pool does not have the wrapper as it is. -/
def Stuck (pool : Pool) : Prop :=
  ∃ cell kind name, pool.binding? cell = some (.promised kind name) ∧ pool.Endless cell ∧
    ∀ target, ¬ pool.Literal cell target

/-- It can be found out what a cell stands for. -/
def Resolvable (pool : Pool) (cell : Cell) : Prop := pool.Ends cell ∨ ∃ target, pool.Literal cell target

namespace Literal

theorem eq_canonical (h : pool.Literal cell target)
    (hcell : ∀ kind name, pool.binding? cell ≠ some (.promised kind name)) : target = pool.canonical cell := by
  cases h with
  | decided => rfl
  | promised hpromised => exact absurd hpromised (hcell _ _)

theorem exists_owner (h : pool.Literal cell target) (hcell : pool.binding? cell = some (.promised kind name)) :
    ∃ owner, pool.Literal name owner ∧ pool.byValue[Constant.wrapper kind owner]? = some target := by
  cases h with
  | decided hdecided => exact absurd hcell (hdecided kind name)
  | promised hpromised howner hvalue =>
    obtain ⟨rfl, rfl⟩ := Binding.promised.inj (Option.some.inj (hpromised.symm.trans hcell))
    exact ⟨_, howner, hvalue⟩

theorem unique (h : pool.Literal cell target) {other : Cell} (h' : pool.Literal cell other) : target = other := by
  induction h generalizing other with
  | decided hcell => exact (h'.eq_canonical hcell).symm
  | promised hcell _ hvalue ih =>
    obtain ⟨owner, howner, hvalue'⟩ := h'.exists_owner hcell
    obtain rfl := ih howner
    exact Option.some.inj (hvalue.symm.trans hvalue')

theorem content_eq (h : pool.Literal cell target) (hwell : pool.WellBound) :
    pool.content target = pool.content cell := by
  induction h with
  | decided => exact content_canonical (hwell.canonical_canonical _)
  | @promised cell name owner target kind hcell _ hvalue ih =>
    have htarget := hwell.byValue_eq _ target hvalue
    rw [Pool.content_eq, Pool.content_eq, meaning?_of_owned htarget, meaning?_of_promised hcell]
    show pool.contentOf (.wrapper kind owner) = pool.contentOf (.wrapper kind name)
    rw [contentOf_wrapper, contentOf_wrapper, ih]

end Literal

/-! ### Steps on the way -/

/-- Wrappers whose contents are looked for without an end are not added. -/
theorem BindStep.byValue_eq (h : BindStep pool pool') (howner : ¬ pool.Ends owner) :
    pool'.byValue[Constant.wrapper kind owner]? = pool.byValue[Constant.wrapper kind owner]? := by
  cases h with
  | @add _ k n _ _ hfind =>
    refine byValue_addEntry_of_ne fun heq => howner ?_
    obtain ⟨-, rfl⟩ := Constant.wrapper.inj heq
    rcases ends_or_byValue_of_find hfind with hends | ⟨_, hnone, -⟩
    · exact hends
    · cases hnone
  | @bind cell target => rw [(bind_eq pool cell target).1]

/-- A cell that is not promised stands for the same ever after. -/
theorem BindStep.canonical_eq (h : BindStep pool pool') (hfaithful : pool.Faithful) (hlt : cell.id < pool.slots.size)
    (hcell : ∀ kind name, pool.binding? cell ≠ some (.promised kind name)) :
    pool'.binding? cell = pool.binding? cell ∧ pool'.canonical cell = pool.canonical cell := by
  suffices hbinding : pool'.binding? cell = pool.binding? cell from
    ⟨hbinding, hfaithful.canonical_congr (hfaithful.bindStep h).faithful.toWellBound hbinding⟩
  cases h with
  | add => rw [binding?_addEntry, if_neg (by omega)]
  | @bind bound target kind name hbound _ hfind =>
    have htarget := hfaithful.find?_owns (find?_of_find hfind)
    refine binding?_bind_of_ne (not_owns_of_binding? hbound (by simp)) htarget ?_
    rintro rfl
    exact hcell kind name hbound

/-- A promised cell stays promised until it is bound to what was found for it. -/
theorem BindStep.promised_cases (h : BindStep pool pool') (hfaithful : pool.Faithful)
    (hcell : pool.binding? cell = some (.promised kind name)) :
    pool'.binding? cell = some (.promised kind name) ∨
      ∃ target, (∀ k n, pool.binding? name ≠ some (.promised k n)) ∧
        pool.find (.wrapper kind (pool.canonical name)) = .ok (some target) ∧
        pool'.binding? cell = some (.alias target) := by
  cases h with
  | add => exact .inl (binding?_pushSlot_of_some hcell)
  | @bind bound target k n hbound hname hfind =>
    have htarget := hfaithful.find?_owns (find?_of_find hfind)
    have hnot : ¬ pool.Owns bound := not_owns_of_binding? hbound (by simp)
    by_cases heq : cell = bound
    · subst heq
      obtain ⟨rfl, rfl⟩ := Binding.promised.inj (Option.some.inj (hbound.symm.trans hcell))
      exact .inr ⟨target, hname, hfind, binding?_bind_self hcell hnot htarget⟩
    · exact .inl (by rw [binding?_bind_of_ne hnot htarget heq, hcell])

/-- What was not promised before a step is not promised after it. -/
theorem BindStep.not_promised (h : BindStep pool pool') (hfaithful : pool.Faithful) (hlt : cell.id < pool.slots.size)
    (hcell : ∀ kind name, pool.binding? cell ≠ some (.promised kind name)) :
    ∀ kind name, pool'.binding? cell ≠ some (.promised kind name) := by
  rw [(h.canonical_eq hfaithful hlt hcell).1]
  exact hcell

/-- Steps make no promises. -/
theorem Faithful.promised_of_promised (h : pool.Faithful) (hsteps : Relation.ReflTransGen BindStep pool pool')
    (hlt : cell.id < pool.slots.size) (hcell : pool'.binding? cell = some (.promised kind name)) :
    pool.binding? cell = some (.promised kind name) := by
  induction hsteps with
  | refl => exact hcell
  | @tail mid last hsteps hstep ih =>
    have hmid := h.bindSteps hsteps
    refine ih ?_
    by_cases hpromised : ∃ k n, mid.binding? cell = some (.promised k n)
    · obtain ⟨k, n, hbinding⟩ := hpromised
      rcases hstep.promised_cases hmid.faithful hbinding with hsame | ⟨_, -, -, halias⟩
      · rw [hbinding, ← hsame, hcell]
      · cases halias.symm.trans hcell
    · have hdecided : ∀ k n, mid.binding? cell ≠ some (.promised k n) := fun k n hb => hpromised ⟨k, n, hb⟩
      exact absurd hcell
        (hstep.not_promised hmid.faithful (Nat.lt_of_lt_of_le hlt hmid.size_le) hdecided kind name)

theorem Literal.bindStep (h : pool.Literal cell target) (hfaithful : pool.Faithful) (hstep : BindStep pool pool')
    (hlt : cell.id < pool.slots.size) : pool'.Literal cell target := by
  induction h with
  | @decided cell hcell =>
    rw [← (hstep.canonical_eq hfaithful hlt hcell).2]
    exact .decided (hstep.not_promised hfaithful hlt hcell)
  | @promised cell name owner target kind hcell hname hvalue ih =>
    have hcontinues := hfaithful.bindStep hstep
    have hbefore := hfaithful.name_lt cell kind name hcell
    rcases hstep.promised_cases hfaithful hcell with hcell' | ⟨found, hdecided, hfind, halias⟩
    · exact .promised hcell' (ih (by omega)) (hcontinues.byValue _ _ hvalue)
    · -- The cell has just been bound, and what was found is the wrapper as it is.
      obtain rfl := hname.eq_canonical hdecided
      obtain rfl : target = found := by simpa using (find_of_byValue hvalue).symm.trans hfind
      rw [← canonical_of_alias hcontinues.faithful.toWellBound halias]
      exact .decided (by simp [halias])

theorem Literal.of_bindStep (h : pool'.Literal cell target) (hfaithful : pool.Faithful) (hstep : BindStep pool pool')
    (hends : ¬ pool.Ends cell) : pool.Literal cell target := by
  have hwell' := (hfaithful.bindStep hstep).faithful.toWellBound
  induction h with
  | @decided cell hcell =>
    by_cases hpromised : ∃ kind name, pool.binding? cell = some (.promised kind name)
    · obtain ⟨kind, name, hbinding⟩ := hpromised
      rcases hstep.promised_cases hfaithful hbinding with hcell' | ⟨found, hdecided, hfind, halias⟩
      · exact absurd hcell' (hcell kind name)
      · rw [canonical_of_alias hwell' halias]
        have hname : ¬ pool.Ends (pool.canonical name) := by
          rwa [ends_iff_of_promised hbinding, Ends, ← content_canonical (hfaithful.canonical_canonical name)] at hends
        rcases ends_or_byValue_of_find hfind with hend | ⟨_, heq, hvalue⟩
        · exact absurd hend hname
        · obtain rfl := Option.some.inj heq
          exact .promised hbinding (.decided hdecided) hvalue
    · have hdecided : ∀ kind name, pool.binding? cell ≠ some (.promised kind name) :=
        fun kind name hbinding => hpromised ⟨kind, name, hbinding⟩
      rw [(hstep.canonical_eq hfaithful (lt_of_not_ends hends) hdecided).2]
      exact .decided hdecided
  | @promised cell name owner target kind hcell _ hvalue ih =>
    have hbinding := hfaithful.promised_of_promised (.single hstep) (lt_of_not_ends hends) hcell
    have hname : ¬ pool.Ends name := fun hend => hends ((ends_iff_of_promised hbinding).2 hend)
    have hliteral := ih hname
    have howner : ¬ pool.Ends owner := by rwa [Ends, hliteral.content_eq hfaithful.toWellBound]
    exact .promised hbinding hliteral (by rwa [← hstep.byValue_eq howner])

/-- Binding promises changes nothing about which others can be bound. -/
theorem Faithful.resolvable_iff (h : pool.Faithful) (hsteps : Relation.ReflTransGen BindStep pool pool')
    (hcell : cell.id < pool.slots.size) : pool'.Resolvable cell ↔ pool.Resolvable cell := by
  induction hsteps with
  | refl => rfl
  | @tail mid last hsteps hstep ih =>
    rw [← ih]
    have hmid := h.bindSteps hsteps
    have hlt : cell.id < mid.slots.size := Nat.lt_of_lt_of_le hcell hmid.size_le
    rw [Resolvable, Resolvable, (hmid.faithful.bindStep hstep).content.ends_iff hlt]
    by_cases hends : mid.Ends cell
    · simp [hends]
    · refine or_congr_right ⟨fun ⟨target, htarget⟩ => ?_, fun ⟨target, htarget⟩ => ?_⟩
      · exact ⟨target, htarget.of_bindStep hmid.faithful hstep hends⟩
      · exact ⟨target, htarget.bindStep hmid.faithful hstep hlt⟩

theorem Faithful.byValue_bindSteps (h : pool.Faithful) (hsteps : Relation.ReflTransGen BindStep pool pool')
    (howner : ¬ pool.Ends owner) :
    pool'.byValue[Constant.wrapper kind owner]? = pool.byValue[Constant.wrapper kind owner]? := by
  induction hsteps with
  | refl => rfl
  | tail hsteps hstep ih =>
    rw [← ih]
    refine hstep.byValue_eq ?_
    rwa [(h.bindSteps hsteps).content.ends_iff (lt_of_not_ends howner)]

/-! ### Resolving -/

/-- What can be bound can be bound only with its name. -/
theorem Resolvable.of_promised (h : pool.Resolvable cell) (hcell : pool.binding? cell = some (.promised kind name)) :
    pool.Resolvable name := by
  rcases h with hends | ⟨target, htarget⟩
  · exact .inl ((ends_iff_of_promised hcell).1 hends)
  · obtain ⟨owner, howner, -⟩ := htarget.exists_owner hcell
    exact .inr ⟨owner, howner⟩

/-- What the search for the wrapper of a promised cell comes to, once its name is resolved. -/
theorem Faithful.find_wrapper (h : pool.Faithful) (hcell : pool.binding? cell = some (.promised kind name))
    (hname : name.id < pool.slots.size) (hsteps : Relation.ReflTransGen BindStep pool pool')
    (howner : pool'.canonical name = owner) (hfound : pool.Ends name ∨ pool.Literal name owner) :
    (∀ found, pool'.find (.wrapper kind owner) = .ok found →
      pool.Ends cell ∨ ∃ target, found = some target ∧ pool.Literal cell target) ∧
    ∀ e, pool'.find (.wrapper kind owner) = .error e → ¬ pool.Resolvable cell := by
  have hcontinues := h.bindSteps hsteps
  have hends : pool'.Ends owner ↔ pool.Ends cell := by
    rw [ends_iff_of_promised hcell, ← hcontinues.content.ends_iff hname, Ends, Ends, ← howner,
      content_canonical (hcontinues.faithful.canonical_canonical name)]
  -- Unless the search for its content ends, the name was found as it is.
  have hliteral : ¬ pool.Ends cell → pool.Literal name owner ∧
      pool'.byValue[Constant.wrapper kind owner]? = pool.byValue[Constant.wrapper kind owner]? := by
    intro hnot
    rw [ends_iff_of_promised hcell] at hnot
    have hliteral := hfound.resolve_left hnot
    exact ⟨hliteral, h.byValue_bindSteps hsteps (by rwa [Ends, hliteral.content_eq h.toWellBound])⟩
  constructor
  · intro found hfind
    by_cases hcase : pool.Ends cell
    · exact .inl hcase
    · obtain ⟨hliteral, hsame⟩ := hliteral hcase
      rcases ends_or_byValue_of_find hfind with hend | ⟨target, heq, hvalue⟩
      · exact absurd (hends.1 hend) hcase
      · exact .inr ⟨target, heq, .promised hcell hliteral (by rw [← hsame, hvalue])⟩
  · intro e hfind
    obtain ⟨-, hnone, hcontent⟩ := find_eq_error hfind
    have hcase : ¬ pool.Ends cell := by
      rw [← hends, ← contentOf_wrapper_ok_iff kind, hcontent]
      simp
    refine not_or.2 ⟨hcase, ?_⟩
    rintro ⟨target, htarget⟩
    obtain ⟨owner', howner', hvalue⟩ := htarget.exists_owner hcell
    obtain ⟨hliteral, hsame⟩ := hliteral hcase
    obtain rfl := hliteral.unique howner'
    rw [hnone, hvalue] at hsame
    cases hsame

/-- A cell that is resolved could be, and a cell that is not resolved could not. -/
theorem Faithful.resolveWithin_literal (h : pool.Faithful) (hopen : pool.layout = none) {fuel : Nat}
    (hlt : cell.id < pool.slots.size) (hfuel : cell.id < fuel) :
    (∀ target named, resolveWithin fuel cell pool = .ok target named → pool.Ends cell ∨ pool.Literal cell target) ∧
      ∀ e left, resolveWithin fuel cell pool = .error e left → ¬ pool.Resolvable cell := by
  have hwell := h.toWellBound
  induction fuel generalizing cell with
  | zero => omega
  | succ fuel ih =>
    by_cases hpromised : ∃ kind name, pool.binding? cell = some (.promised kind name)
    · obtain ⟨kind, name, hcell⟩ := hpromised
      have hbefore := hwell.name_lt cell kind name hcell
      have hname : name.id < pool.slots.size := by omega
      have hfuel' : name.id < fuel := by omega
      obtain ⟨hok, herror⟩ := ih hname hfuel'
      have hsteps := (resolveWithin_bindSteps hwell hopen hname hfuel').1
      rw [resolveWithin_of_promised hcell]
      rcases resolveWithin_spec hwell hopen hname hfuel' with ⟨owner, named, hrun, hresolves⟩ | ⟨named, hrun, -⟩
      · rw [hrun, PoolOp.left_ok] at hsteps
        have hfinal : named.isFinalized = false := by rw [isFinalized, hresolves.extends_.layout, hopen]; rfl
        obtain ⟨hfound, hmissed⟩ := h.find_wrapper hcell hname hsteps hresolves.canonical (hok owner named hrun)
        simp only [hrun]
        cases hfind : named.find (.wrapper kind owner) with
        | error e => exact ⟨by simp, fun _ _ _ => hmissed e hfind⟩
        | ok found =>
          rcases hfound found hfind with hends | ⟨target, rfl, hliteral⟩
          · cases found <;> simp [hfinal, hends]
          · refine ⟨fun other last hrun' => ?_, by simp⟩
            obtain ⟨rfl, -⟩ := EStateM.Result.ok.inj hrun'
            exact .inr hliteral
      · simp only [hrun]
        exact ⟨by simp, fun _ _ _ hresolvable => herror _ named hrun (Resolvable.of_promised hresolvable hcell)⟩
    · have hdecided : ∀ kind name, pool.binding? cell ≠ some (.promised kind name) :=
        fun kind name hcell => hpromised ⟨kind, name, hcell⟩
      rw [resolveWithin_of_not_promised hwell hopen hlt hdecided]
      refine ⟨fun target named hrun => ?_, by simp⟩
      obtain ⟨rfl, -⟩ := EStateM.Result.ok.inj hrun
      exact .inr (.decided hdecided)

private theorem Faithful.forM_bindPromise_iff (h : pool.Faithful) (hopen : pool.layout = none) {ids : List Nat}
    (hlt : ∀ id ∈ ids, id < pool.slots.size) :
    (∃ bound, ids.forM bindPromise pool = .ok () bound) ↔ ∀ id ∈ ids, pool.Resolvable ⟨id⟩ := by
  induction ids generalizing pool with
  | nil => simp only [List.not_mem_nil, false_implies, implies_true, iff_true]; exact ⟨pool, rfl⟩
  | cons id ids ih =>
    rw [forM_cons_run, EStateM.bind, List.forall_mem_cons]
    have hid : (⟨id⟩ : Cell).id < pool.slots.size := hlt id (by simp)
    have hrest : ∀ i ∈ ids, i < pool.slots.size := fun i hi => hlt i (by simp [hi])
    by_cases hpromised : ∃ kind name, pool.binding? ⟨id⟩ = some (.promised kind name)
    · obtain ⟨kind, name, hcell⟩ := hpromised
      obtain ⟨hok, herror⟩ := h.resolveWithin_literal hopen hid (Nat.lt_succ_of_lt hid)
      have hsteps := (resolveWithin_bindSteps h.toWellBound hopen hid (Nat.lt_succ_of_lt hid)).1
      rw [← resolve] at hok herror hsteps
      rw [bindPromise_of_promised hcell]
      rcases resolve_spec h.toWellBound hopen hid with ⟨target, mid, hrun, hresolves⟩ | ⟨mid, hrun, -⟩
      · rw [hrun] at hsteps ⊢
        have hmid := h.bindSteps hsteps
        have hfirst : pool.Resolvable ⟨id⟩ := (hok target mid hrun).imp_right fun hliteral => ⟨target, hliteral⟩
        refine (ih hmid.faithful (hresolves.extends_.layout.trans hopen) fun i hi => ?_).trans ?_
        · exact Nat.lt_of_lt_of_le (hrest i hi) hmid.size_le
        · simp only [hfirst, true_and]
          exact forall₂_congr fun i hi => h.resolvable_iff hsteps (hrest i hi)
      · rw [hrun]
        simp [herror _ mid hrun]
    · have hdecided : ∀ kind name, pool.binding? ⟨id⟩ ≠ some (.promised kind name) :=
        fun kind name hcell => hpromised ⟨kind, name, hcell⟩
      rw [bindPromise_of_not_promised hdecided]
      have hfirst : pool.Resolvable ⟨id⟩ := .inr ⟨_, .decided hdecided⟩
      simp only [hfirst, true_and]
      exact ih h hopen hrest

theorem Faithful.bindPromises_iff (h : pool.Faithful) (hopen : pool.layout = none) :
    (∃ bound, bindPromises pool = .ok () bound) ↔ ∀ cell : Cell, cell.id < pool.slots.size → pool.Resolvable cell := by
  have hiff := h.forM_bindPromise_iff hopen fun id (hid : id ∈ List.range pool.slots.size) => List.mem_range.1 hid
  refine hiff.trans ⟨fun hall cell hcell => hall cell.id (List.mem_range.2 hcell), fun hall id hid => ?_⟩
  exact hall ⟨id⟩ (List.mem_range.1 hid)

/-- Binding the promises of an open pool has no end exactly if one of them is looked for without an end. -/
theorem Faithful.bindPromises_endless_iff (h : pool.Faithful) (hopen : pool.layout = none) :
    (∃ left, bindPromises pool = .error .endless left) ↔ pool.Stuck := by
  have hnot : (∃ left, bindPromises pool = .error .endless left) ↔ ¬ ∃ bound, bindPromises pool = .ok () bound := by
    rcases bindPromises_spec h.toWellBound hopen with ⟨bound, hrun, -⟩ | ⟨left, hrun, -⟩ <;> simp [hrun]
  rw [hnot, h.bindPromises_iff hopen]
  constructor
  · intro hstuck
    push Not at hstuck
    obtain ⟨cell, hlt, hcell⟩ := hstuck
    obtain ⟨hends, hliteral⟩ := not_or.1 hcell
    have hnone : ∀ target, ¬ pool.Literal cell target := fun target htarget => hliteral ⟨target, htarget⟩
    rw [ends_iff_not_endless, not_not] at hends
    by_contra hpromised
    refine hnone _ (.decided fun kind name hbinding => ?_)
    exact hpromised ⟨cell, kind, name, hbinding, hends, hnone⟩
  · rintro ⟨cell, kind, name, hbinding, hends, hnone⟩ hall
    rcases hall cell (lt_of_binding? hbinding) with hend | ⟨target, htarget⟩
    · exact ends_iff_not_endless.1 hend hends
    · exact hnone target htarget

/-- Where the search for its content comes to an end, a cell can be resolved. -/
theorem Faithful.resolve_of_ends (h : pool.Faithful) (hopen : pool.layout = none) (hcell : cell.id < pool.slots.size)
    (hends : pool.Ends cell) :
    ∃ target pool', resolve cell pool = .ok target pool' ∧ Resolves pool cell target pool' := by
  refine (resolve_spec h.toWellBound hopen hcell).resolve_right ?_
  rintro ⟨left, hrun, -⟩
  exact (h.resolveWithin_literal hopen hcell (Nat.lt_succ_of_lt hcell)).2 _ left hrun (.inl hends)

theorem Faithful.bindPromises_of_ends (h : pool.Faithful) (hopen : pool.layout = none)
    (hends : ∀ cell : Cell, cell.id < pool.slots.size → pool.Ends cell) :
    ∃ bound, bindPromises pool = .ok () bound ∧ bound.WellBound ∧ Extends pool bound ∧
      ∀ cell kind name, bound.binding? cell ≠ some (.promised kind name) := by
  refine (bindPromises_spec h.toWellBound hopen).resolve_right ?_
  rintro ⟨left, hrun, -⟩
  obtain ⟨bound, hok⟩ := (h.bindPromises_iff hopen).2 fun cell hcell => .inl (hends cell hcell)
  cases hrun.symm.trans hok

/-! ### What keeps a promise -/

/-- A cell owns the wrapper of what a name stands for, or an entry with the content of that wrapper. -/
def Fulfils (pool : Pool) (kind : Wrapper) (name target : Cell) : Prop :=
  pool.binding? target = some (.owned (.wrapper kind (pool.canonical name))) ∨
    pool.Owns target ∧ ∃ content, pool.content? target = some content ∧
      pool.contentOf? (.wrapper kind name) = some content

/-- What is found for a promise keeps it. -/
theorem Faithful.fulfils_of_find (h : pool.Faithful)
    (hfind : pool.find (.wrapper kind (pool.canonical name)) = .ok (some target)) : pool.Fulfils kind name target := by
  have howns := h.find?_owns (find?_of_find hfind)
  rw [find] at hfind
  split at hfind
  · rename_i found hvalue
    obtain rfl : found = target := by simpa using hfind
    exact .inl (h.byValue_eq _ found hvalue)
  · rw [contentOf_wrapper, content_canonical (h.canonical_canonical name), ← contentOf_wrapper] at hfind
    rcases hcontent : pool.contentOf (.wrapper kind name) with e | _ | content
    · simp [hcontent, Search.andThen] at hfind
    · simp [hcontent, Search.andThen] at hfind
    · have hfound : pool.byContent[content]? = some target := by simpa [hcontent, Search.andThen] using hfind
      refine .inr ⟨howns, content, h.content?_of_byContent content target hfound, ?_⟩
      rw [contentOf?, hcontent]
      rfl

theorem Fulfils.bindStep (h : pool.Fulfils kind name target) (hfaithful : pool.Faithful) (hstep : BindStep pool pool')
    (hlt : name.id < pool.slots.size) (hname : ∀ k n, pool.binding? name ≠ some (.promised k n)) :
    pool'.Fulfils kind name target := by
  have hkeep := (hfaithful.bindStep hstep).content
  have howned : ∀ {value}, pool.binding? target = some (.owned value) → pool'.binding? target = some (.owned value) :=
    fun hvalue => ((hstep.canonical_eq hfaithful (lt_of_binding? hvalue) (by simp [hvalue])).1).trans hvalue
  rcases h with hvalue | ⟨⟨value, hvalue⟩, content, hcontent, hwrapper⟩
  · left
    rw [(hstep.canonical_eq hfaithful hlt hname).2]
    exact howned hvalue
  · refine .inr ⟨⟨value, howned hvalue⟩, content, hkeep.known target content hcontent, ?_⟩
    have hrefs : ∀ ref ∈ (Constant.wrapper kind name).refs, ref.id < pool.slots.size := by
      intro ref href
      obtain rfl := List.mem_singleton.1 href
      exact hlt
    rw [contentOf?, hkeep.contentOf hrefs]
    exact hwrapper

/-- A promise is kept as soon as it is bound. -/
theorem Faithful.fulfils_of_bindSteps (h : pool.Faithful) (hsteps : Relation.ReflTransGen BindStep pool pool')
    (hcell : pool.binding? cell = some (.promised kind name)) :
    pool'.binding? cell = some (.promised kind name) ∨
      ∃ target, pool'.binding? cell = some (.alias target) ∧ (∀ k n, pool'.binding? name ≠ some (.promised k n)) ∧
        pool'.Fulfils kind name target := by
  have hlt := lt_of_binding? hcell
  have hbefore := h.name_lt cell kind name hcell
  induction hsteps with
  | refl => exact .inl hcell
  | @tail mid last hsteps hstep ih =>
    have hmid := h.bindSteps hsteps
    have hname : name.id < mid.slots.size := by
      have := hmid.size_le
      omega
    rcases ih with hpromised | ⟨target, halias, hdecided, hfulfils⟩
    · refine (hstep.promised_cases hmid.faithful hpromised).imp_right ?_
      rintro ⟨target, hdecided, hfind, halias⟩
      exact ⟨target, halias, hstep.not_promised hmid.faithful hname hdecided,
        (hmid.faithful.fulfils_of_find hfind).bindStep hmid.faithful hstep hname hdecided⟩
    · have hkept := (hstep.canonical_eq hmid.faithful (lt_of_binding? halias) (by simp [halias])).1
      exact .inr ⟨target, hkept.trans halias, hstep.not_promised hmid.faithful hname hdecided,
        hfulfils.bindStep hmid.faithful hstep hname hdecided⟩

/-- What is added is the wrapper of a promise. -/
theorem Faithful.promised_of_fresh (h : pool.Faithful) (hsteps : Relation.ReflTransGen BindStep pool pool')
    (hfresh : pool.slots.size ≤ cell.id) {binding : Binding} (hcell : pool'.binding? cell = some binding) :
    ∃ promised kind name, pool.binding? promised = some (.promised kind name) ∧
      (∀ k n, pool'.binding? name ≠ some (.promised k n)) ∧
      binding = .owned (.wrapper kind (pool'.canonical name)) := by
  induction hsteps generalizing cell binding with
  | refl =>
    have := lt_of_binding? hcell
    omega
  | @tail mid last hsteps hstep ih =>
    have hmid := h.bindSteps hsteps
    have hsize := hmid.size_le
    -- What a promise is for, and that its name is decided, stays as it is.
    have hkept : ∀ {promised kind name b}, pool.binding? promised = some (.promised kind name) →
        (∀ k n, mid.binding? name ≠ some (.promised k n)) → b = .owned (.wrapper kind (mid.canonical name)) →
        ∃ promised kind name, pool.binding? promised = some (.promised kind name) ∧
          (∀ k n, last.binding? name ≠ some (.promised k n)) ∧
          b = Binding.owned (.wrapper kind (last.canonical name)) := by
      intro promised kind name b hpromised hdecided hb
      have hname : name.id < mid.slots.size := by
        have := h.name_lt promised kind name hpromised
        have := lt_of_binding? hpromised
        omega
      refine ⟨promised, kind, name, hpromised, hstep.not_promised hmid.faithful hname hdecided, ?_⟩
      rw [(hstep.canonical_eq hmid.faithful hname hdecided).2, hb]
    by_cases hold : cell.id < mid.slots.size
    · obtain ⟨before, hbefore⟩ := exists_binding? hold
      obtain ⟨promised, kind, name, hpromised, hdecided, hb⟩ := ih hfresh hbefore
      have hsame := (hstep.canonical_eq hmid.faithful hold (by simp [hbefore, hb])).1
      obtain rfl := Option.some.inj (hbefore.symm.trans (hsame.symm.trans hcell))
      exact hkept hpromised hdecided hb
    · cases hstep with
      | @add promised kind name hpromised hdecided hfind =>
        rw [binding?_addEntry] at hcell
        split at hcell
        · -- A cell that is promised has been so from the start.
          have hstart : pool.binding? promised = some (.promised kind name) := by
            by_cases hlt : promised.id < pool.slots.size
            · exact h.promised_of_promised hsteps hlt hpromised
            · obtain ⟨_, _, _, -, -, hb⟩ := ih (Nat.not_lt.1 hlt) hpromised
              cases hb
          exact hkept hstart hdecided (Option.some.inj hcell).symm
        · exact absurd (lt_of_binding? hcell) hold
      | @bind promised target =>
        have hlt := lt_of_binding? hcell
        rw [(bind_eq mid promised target).2] at hlt
        exact absurd hlt hold

theorem Fulfils.mem_order (h : pool.Fulfils kind name target) (hwell : pool.WellBound) :
    target ∈ pool.order.toList := by
  rw [hwell.mem_order]
  rcases h with hvalue | ⟨howns, content, hcontent, hwrapper⟩
  · refine ⟨?_, _, hvalue⟩
    rintro rfl
    rw [hwell.zero] at hvalue
    cases hvalue
  · refine ⟨?_, howns⟩
    rintro rfl
    rw [content?_of_owned hwell.zero] at hcontent
    rw [← hcontent, contentOf?_eq, contentOf?_eq] at hwrapper
    cases Constant.eq_zero_of_content? hwrapper

end JvmAssembler.Pool
