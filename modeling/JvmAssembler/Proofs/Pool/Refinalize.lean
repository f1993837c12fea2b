import JvmAssembler.Proofs.Pool.BindStep

/-!
# Finalizing again

An attempt to finalize a pool that fails has bound the promises, up to the first whose content is looked for without an
end, and may have numbered the entries and bound references up to the first that leads nowhere. Another attempt finds
all of this done, and fails at the same place for the same reason (`WellBound.repeats_finalize`).
-/

namespace JvmAssembler

/-- Run once more on the state that it leaves behind, an action has the same outcome and leaves the state as it is. -/
def Reporting.Repeats {σ α : Type} (action : Reporting σ α) (s : Reported σ) : Prop :=
  match action s with
  | .ok a s' => ∀ warnings, ∃ reported, action ⟨s'.state, warnings⟩ = .ok a ⟨s'.state, reported⟩
  | .error e s' => ∀ warnings, ∃ reported, action ⟨s'.state, warnings⟩ = .error e ⟨s'.state, reported⟩

theorem Reporting.Repeats.of_ok {σ α : Type} {action : Reporting σ α} {s s' : Reported σ} {a : α}
    (h : action s = .ok a s')
    (hagain : ∀ warnings, ∃ reported, action ⟨s'.state, warnings⟩ = .ok a ⟨s'.state, reported⟩) : Repeats action s := by
  rw [Repeats, h]
  exact hagain

theorem Reporting.Repeats.of_error {σ α : Type} {action : Reporting σ α} {s s' : Reported σ} {e : AssemblyError}
    (h : action s = .error e s')
    (hagain : ∀ warnings, ∃ reported, action ⟨s'.state, warnings⟩ = .error e ⟨s'.state, reported⟩) :
    Repeats action s := by
  rw [Repeats, h]
  exact hagain

namespace Pool

variable {pool bound : Pool} {table : OffsetTable Cell}

/-! ### Promises -/

/-- Without promises there is nothing to bind. -/
theorem bindPromises_eq_self (h : ∀ cell kind name, pool.binding? cell ≠ some (.promised kind name)) :
    bindPromises pool = .ok () pool := by
  have hall : ∀ ids : List Nat, ids.forM bindPromise pool = .ok () pool := by
    intro ids
    induction ids with
    | nil => rfl
    | cons id ids ih =>
      show EStateM.bind (bindPromise id) (fun _ => ids.forM bindPromise) pool = _
      rw [EStateM.bind, bindPromise_of_not_promised (h ⟨id⟩)]
      exact ih
  exact hall _

/-- A cell that is not resolved is still promised, and is not resolved at another attempt. -/
theorem WellBound.resolveWithin_again (h : pool.WellBound) (hopen : pool.layout = none) {fuel : Nat} {cell : Cell}
    (hlt : cell.id < pool.slots.size) (hfuel : cell.id < fuel) {e : AssemblyError} {left : Pool}
    (hrun : resolveWithin fuel cell pool = .error e left) :
    (∃ kind name, left.binding? cell = some (.promised kind name)) ∧
      ∀ fuel', cell.id < fuel' → resolveWithin fuel' cell left = .error e left := by
  induction fuel generalizing cell with
  | zero => omega
  | succ fuel ih =>
    by_cases hpromised : ∃ kind name, pool.binding? cell = some (.promised kind name)
    · obtain ⟨kind, name, hcell⟩ := hpromised
      have hbefore := h.name_lt cell kind name hcell
      have hname : name.id < pool.slots.size := by omega
      have hlater := (resolveWithin_bindSteps h hopen hname (show name.id < fuel by omega)).2 cell hbefore hlt
      rw [resolveWithin_of_promised hcell] at hrun
      rcases resolveWithin_spec h hopen hname (show name.id < fuel by omega) with
        ⟨owner, named, hnamed, hresolves⟩ | ⟨named, hnamed, -⟩
      · -- The name has been resolved, so that it is the search for the wrapper that fails.
        simp only [hnamed, PoolOp.left_ok] at hlater hrun
        have hopen' : named.layout = none := hresolves.extends_.layout.trans hopen
        have hfinal : named.isFinalized = false := by rw [isFinalized, hopen']; rfl
        rcases hfind : named.find (.wrapper kind owner) with e' | _ | target
        · simp only [hfind] at hrun
          obtain ⟨rfl, rfl⟩ := EStateM.Result.error.inj hrun
          refine ⟨⟨kind, name, hlater.trans hcell⟩, fun fuel' hfuel' => ?_⟩
          obtain ⟨more, rfl⟩ : ∃ more, fuel' = more + 1 + 1 := ⟨fuel' - 2, by omega⟩
          have hagain := resolveWithin_of_not_promised hresolves.wellBound hopen'
            (Nat.lt_of_lt_of_le hname hresolves.extends_.size_le) hresolves.bound more
          rw [resolveWithin_of_promised (hlater.trans hcell), hagain]
          simp only [hresolves.canonical, hfind]
        · simp only [hfind, hfinal, Bool.false_eq_true, ↓reduceIte, reduceCtorEq] at hrun
        · simp only [hfind, reduceCtorEq] at hrun
      · simp only [hnamed, PoolOp.left_error] at hlater hrun
        obtain ⟨rfl, rfl⟩ := EStateM.Result.error.inj hrun
        refine ⟨⟨kind, name, hlater.trans hcell⟩, fun fuel' hfuel' => ?_⟩
        obtain ⟨more, rfl⟩ : ∃ more, fuel' = more + 1 := ⟨fuel' - 1, by omega⟩
        rw [resolveWithin_of_promised (hlater.trans hcell), (ih hname (by omega) hnamed).2 more (by omega)]
    · rw [resolveWithin_of_not_promised h hopen hlt (fun kind name hcell => hpromised ⟨kind, name, hcell⟩)] at hrun
      cases hrun

/-- What was bound before the first promise that is not bound stays so. -/
private theorem WellBound.forM_bindPromise_again (h : pool.WellBound) (hopen : pool.layout = none) {ids : List Nat}
    (hlt : ∀ id ∈ ids, id < pool.slots.size) {e : AssemblyError} {left : Pool}
    (hrun : ids.forM bindPromise pool = .error e left) : ids.forM bindPromise left = .error e left := by
  induction ids generalizing pool with
  | nil => cases hrun
  | cons id ids ih =>
    rw [forM_cons_run, EStateM.bind] at hrun ⊢
    have hid : (⟨id⟩ : Cell).id < pool.slots.size := hlt id (by simp)
    -- If the first promise is bound, then it stays bound while the others are.
    have hrest : ∀ {mid : Pool}, mid.WellBound → Extends pool mid →
        (∀ kind name, mid.binding? ⟨id⟩ ≠ some (.promised kind name)) →
        ids.forM bindPromise mid = .error e left → bindPromise id left = .ok () left ∧
          ids.forM bindPromise left = .error e left := by
      intro mid hmid hextends hnot herror
      have hlt' : ∀ i ∈ ids, i < mid.slots.size :=
        fun i hi => Nat.lt_of_lt_of_le (hlt i (by simp [hi])) hextends.size_le
      have hopen' := hextends.layout.trans hopen
      refine ⟨bindPromise_of_not_promised ?_, ih hmid hopen' hlt' herror⟩
      rcases forM_bindPromise_spec hmid hopen' hlt' with ⟨_, hok, -⟩ | ⟨left', hleft, -, hextends'⟩
      · cases hok.symm.trans herror
      · obtain ⟨-, rfl⟩ := EStateM.Result.error.inj (hleft.symm.trans herror)
        exact hextends'.not_promised (Nat.lt_of_lt_of_le hid hextends.size_le) hnot
    by_cases hpromised : ∃ kind name, pool.binding? ⟨id⟩ = some (.promised kind name)
    · obtain ⟨kind, name, hcell⟩ := hpromised
      rw [bindPromise_of_promised hcell] at hrun
      rcases resolve_spec h hopen hid with ⟨target, mid, hmid, hresolves⟩ | ⟨mid, hmid, -⟩
      · rw [hmid] at hrun
        obtain ⟨hfirst, htail⟩ := hrest hresolves.wellBound hresolves.extends_ hresolves.bound hrun
        rw [hfirst]
        exact htail
      · rw [hmid] at hrun
        obtain ⟨rfl, rfl⟩ := EStateM.Result.error.inj hrun
        obtain ⟨⟨kind', name', hcell'⟩, hagain⟩ := h.resolveWithin_again hopen hid (Nat.lt_succ_of_lt hid) hmid
        have hresolve : resolve ⟨id⟩ mid = .error .endless mid :=
          hagain _ (Nat.lt_succ_of_lt (lt_of_binding? hcell'))
        rw [bindPromise_of_promised hcell', hresolve]
    · have hnot : ∀ kind name, pool.binding? ⟨id⟩ ≠ some (.promised kind name) :=
        fun kind name hcell => hpromised ⟨kind, name, hcell⟩
      rw [bindPromise_of_not_promised hnot] at hrun
      obtain ⟨hfirst, htail⟩ := hrest h (.refl pool) hnot hrun
      rw [hfirst]
      exact htail

theorem WellBound.bindPromises_again (h : pool.WellBound) (hopen : pool.layout = none) {e : AssemblyError} {left : Pool}
    (hrun : bindPromises pool = .error e left) : bindPromises left = .error e left := by
  have hsize : pool.slots.size ≤ left.slots.size := by
    rcases bindPromises_spec h hopen with ⟨bound, hok, -⟩ | ⟨left', hleft, -, hextends⟩
    · cases hok.symm.trans hrun
    · obtain ⟨-, rfl⟩ := EStateM.Result.error.inj (hleft.symm.trans hrun)
      exact hextends.size_le
  have hfirst := h.forM_bindPromise_again hopen (fun _ hid => List.mem_range.1 hid) hrun
  have hrange : List.range left.slots.size = List.range pool.slots.size ++
      (List.range (left.slots.size - pool.slots.size)).map (pool.slots.size + ·) := by
    rw [← List.range_add, Nat.add_sub_of_le hsize]
  rw [bindPromises, hrange]
  refine (congrFun (List.forM_append (m := PoolM)) left).trans ?_
  show EStateM.bind ((List.range pool.slots.size).forM bindPromise) _ left = _
  rw [EStateM.bind, hfirst]

/-! ### Indices -/

/-- Numbers that were given out stay as they are when they are given out again. -/
theorem assignIndices_eq_self (h : ∀ index cell, (index, cell) ∈ pool.places → pool.number? cell = some index) :
    pool.assignIndices pool.numbering = pool := by
  have hslots : ∀ items : List (Nat × Cell), (∀ index cell, (index, cell) ∈ items → pool.number? cell = some index) →
      items.foldl (fun slots item => slots.modify item.2.id fun slot => { slot with index := some item.1 }) pool.slots =
        pool.slots := by
    intro items
    induction items with
    | nil => exact fun _ => rfl
    | cons item items ih =>
      intro hitems
      have hitem := hitems item.1 item.2 (by simp)
      have hsame : (pool.slots.modify item.2.id fun slot => { slot with index := some item.1 }) = pool.slots := by
        refine modify_eq_self fun slot hslot => ?_
        rw [number?, slot?, hslot] at hitem
        rw [← show slot.index = some item.1 from hitem]
      rw [List.foldl_cons, hsame]
      exact ih fun index cell hmem => hitems index cell (by simp [hmem])
  have hother : pool.assignIndices pool.numbering =
      { pool with slots := (pool.assignIndices pool.numbering).slots } := rfl
  rw [hother, assignIndices_slots, hslots pool.places h]

/-! ### Binding references again -/

theorem points_of_forM {ids : List Nat} (hids : ids.Nodup) (h : pool.WellBound)
    (htargets : ∀ index target, target? table index = some target → pool.Owns target) {warnings : Array Warning}
    {e : AssemblyError} {s : Reported Pool} (hrun : ids.forM (bindReference table) ⟨pool, warnings⟩ = .error e s) :
    Points table pool s.state := by
  obtain ⟨pool', hpoints, hresult⟩ := forM_bindReference hids h htargets warnings
  split at hresult
  · obtain ⟨reported, herror⟩ := hresult
    obtain ⟨-, rfl⟩ := EStateM.Result.error.inj (herror.symm.trans hrun)
    exact hpoints
  · cases hresult.1.symm.trans hrun

/-- The references before the one that leads nowhere are bound, so that the next attempt comes to it at once. -/
theorem forM_bindReference_again {ids : List Nat} (hids : ids.Nodup) (h : pool.WellBound)
    (htargets : ∀ index target, target? table index = some target → pool.Owns target) {warnings : Array Warning}
    {e : AssemblyError} {s : Reported Pool} (hrun : ids.forM (bindReference table) ⟨pool, warnings⟩ = .error e s)
    (reported : Array Warning) :
    ids.forM (bindReference table) ⟨s.state, reported⟩ = .error e ⟨s.state, reported⟩ := by
  induction ids generalizing pool warnings with
  | nil => cases hrun
  | cons id ids ih =>
    obtain ⟨hid, hrest⟩ := List.nodup_cons.1 hids
    rw [forM_cons_run, EStateM.bind, bindReference_eq] at hrun
    rw [forM_cons_run, EStateM.bind, bindReference_eq]
    cases hreference : pool.reference? id with
    | none =>
      simp only [hreference] at hrun
      have hpoints := points_of_forM hrest h htargets hrun
      rw [hpoints.reference?_eq_none hreference]
      exact ih hrest h htargets hrun
    | some reference =>
      simp only [hreference] at hrun
      cases htarget : target? table reference.index with
      | none =>
        simp only [htarget] at hrun
        obtain ⟨rfl, rfl⟩ := EStateM.Result.error.inj hrun
        simp only [hreference, htarget]
      | some target =>
        simp only [htarget] at hrun
        have howns := htargets reference.index target htarget
        have hbind := Points.bind h (reference?_eq_some_iff.1 hreference).2 htarget howns
        have htargets' : ∀ index t, target? table index = some t → (pool.bind reference.cell target).Owns t :=
          fun index t ht => let ⟨value, hvalue⟩ := htargets index t ht; ⟨value, hbind.owned hvalue⟩
        have hself : (pool.bind reference.cell target).reference? id = none := by
          rw [reference?_bind hreference howns, if_pos rfl]
        have hpoints := points_of_forM hrest hbind.wellBound htargets' hrun
        rw [hpoints.reference?_eq_none hself]
        exact ih hrest hbind.wellBound htargets' hrun

/-! ### All of it again -/

/-- Once references are bound, the numbers are as they were given out. -/
theorem Points.numbering_eq {final : Pool} (h : pool.WellBound)
    (hpoints : Points pool.numbering (pool.assignIndices pool.numbering) final) :
    final.numbering = pool.numbering ∧ final.assignIndices final.numbering = final := by
  have hkeep : ∀ cell value, pool.binding? cell = some (.owned value) → final.binding? cell = some (.owned value) :=
    fun cell value hcell => hpoints.owned (by rw [binding?_assignIndices, hcell])
  have hnumbering := h.numbering_congr hpoints.order hkeep
  refine ⟨hnumbering, assignIndices_eq_self fun index cell hplace => ?_⟩
  rw [places_congr hnumbering] at hplace
  rw [hpoints.number, h.number?_assignIndices hplace]

theorem Points.undefinedBootstrap?_eq {final : Pool} (h : pool.WellBound)
    (hpoints : Points pool.numbering (pool.assignIndices pool.numbering) final) :
    final.undefinedBootstrap? = (pool.assignIndices pool.numbering).undefinedBootstrap? := by
  have hassigned : Points pool.numbering (pool.assignIndices pool.numbering) (pool.assignIndices pool.numbering) :=
    .refl h.assignIndices
  have hsame : final.constants = (pool.assignIndices pool.numbering).constants :=
    (h.constants_eq hpoints final.layout).trans (h.constants_eq hassigned pool.layout).symm
  rw [Pool.undefinedBootstrap?_eq, Pool.undefinedBootstrap?_eq, hsame, hpoints.bootstraps]

theorem WellBound.giveIndices_again (h : bound.WellBound) {warnings : Array Warning} {e : AssemblyError}
    {s : Reported Pool} (hrun : giveIndices ⟨bound, warnings⟩ = .error e s) (reported : Array Warning) :
    giveIndices ⟨s.state, reported⟩ = .error e ⟨s.state, reported⟩ := by
  have hassigned := h.assignIndices
  rw [giveIndices] at hrun ⊢
  simp only at hrun ⊢
  split at hrun
  · rename_i hlimit
    obtain ⟨rfl, rfl⟩ := EStateM.Result.error.inj hrun
    simp only [hlimit, ↓reduceIte]
  · rename_i hlimit
    -- From here on the entries have their numbers.
    have hagain : ∀ {final : Pool}, Points bound.numbering (bound.assignIndices bound.numbering) final →
        final.numbering = bound.numbering ∧ final.assignIndices bound.numbering = final ∧
          final.undefinedBootstrap? = (bound.assignIndices bound.numbering).undefinedBootstrap? := by
      intro final hpoints
      obtain ⟨hnumbering, hsame⟩ := hpoints.numbering_eq h
      exact ⟨hnumbering, hnumbering ▸ hsame, hpoints.undefinedBootstrap?_eq h⟩
    split at hrun
    · rename_i bootstrap hundefined
      obtain ⟨rfl, rfl⟩ := EStateM.Result.error.inj hrun
      obtain ⟨hnumbering, hsame, -⟩ := hagain (.refl hassigned)
      simp only [hnumbering, hlimit, ↓reduceIte, hsame, hundefined]
    · rename_i hundefined
      split at hrun
      · rename_i e' s' hbind
        obtain ⟨rfl, rfl⟩ := EStateM.Result.error.inj hrun
        have hpoints := points_of_forM List.nodup_range hassigned (fun index target => h.owns_assignIndices) hbind
        obtain ⟨hnumbering, hsame, hdefined⟩ := hagain hpoints
        have hbind' := forM_bindReference_again List.nodup_range hassigned
          (fun index target => h.owns_assignIndices) hbind reported
        have hreferences : bindReferences bound.numbering ⟨s'.state, reported⟩ = .error e' ⟨s'.state, reported⟩ := by
          rw [bindReferences, hpoints.size]
          exact hbind'
        simp only [hnumbering, hlimit, ↓reduceIte, hsame, hdefined, hundefined, hreferences]
      · cases hrun

/-- Giving out indices makes no promises, and a failure leaves the pool open. -/
theorem WellBound.promised_giveIndices (h : bound.WellBound)
    (hpromised : ∀ cell kind name, bound.binding? cell ≠ some (.promised kind name)) {warnings : Array Warning}
    {e : AssemblyError} {s : Reported Pool} (hrun : giveIndices ⟨bound, warnings⟩ = .error e s) :
    s.state.layout = bound.layout ∧ ∀ cell kind name, s.state.binding? cell ≠ some (.promised kind name) := by
  have hspec := h.giveIndices_spec warnings
  split at hspec
  · obtain ⟨start, s', hrun', hstart, hpoints⟩ := hspec
    obtain ⟨-, rfl⟩ := EStateM.Result.error.inj (hrun'.symm.trans hrun)
    have hsame : start.layout = bound.layout ∧ ∀ cell, start.binding? cell = bound.binding? cell := by
      rcases hstart with rfl | ⟨-, rfl⟩
      · exact ⟨rfl, fun _ => rfl⟩
      · exact ⟨rfl, binding?_assignIndices bound⟩
    refine ⟨hpoints.layout.trans hsame.1, fun cell kind name hcell => ?_⟩
    rcases hpoints.binding cell with hkept | ⟨_, _, _, -, -, halias⟩
    · exact hpromised cell kind name (hsame.2 cell ▸ hkept ▸ hcell)
    · cases halias.symm.trans hcell
  · obtain ⟨final, hok, -⟩ := hspec
    cases hok.symm.trans hrun

/-- What an attempt to finalize a pool comes to, another one comes to as well, and it leaves the pool alone. -/
theorem WellBound.repeats_finalize (h : pool.WellBound) (warnings : Array Warning) :
    Reporting.Repeats finalize ⟨pool, warnings⟩ := by
  cases hrun : finalize ⟨pool, warnings⟩ with
  | ok u s =>
    have hfinal := isFinalized_of_finalize hrun
    exact .of_ok hrun fun reported => ⟨reported, by simp only [finalize, hfinal, ↓reduceIte]⟩
  | error e s =>
    have hopen : pool.isFinalized = false := by
      cases hfinal : pool.isFinalized with
      | false => rfl
      | true =>
        simp only [finalize, hfinal, ↓reduceIte] at hrun
        cases hrun
    refine .of_error hrun fun reported => ⟨reported, ?_⟩
    rcases bindPromises_spec h (layout_eq_none hopen) with ⟨bound, hbound, hwell, hextends, hpromised⟩ |
      ⟨left, hleft, -, hextends⟩
    swap
    · rw [finalize_of_endless hopen hleft] at hrun
      obtain ⟨rfl, rfl⟩ := EStateM.Result.error.inj hrun
      have hopen' : left.isFinalized = false := by
        rw [isFinalized, hextends.layout, layout_eq_none hopen]
        rfl
      exact finalize_of_endless hopen' (h.bindPromises_again (layout_eq_none hopen) hleft) reported
    rw [finalize_of_open hopen hbound] at hrun
    obtain ⟨hlayout, hpromised'⟩ := hwell.promised_giveIndices hpromised hrun
    have hopen' : s.state.isFinalized = false := by
      rw [isFinalized, hlayout, hextends.layout, layout_eq_none hopen]
      rfl
    rw [finalize_of_open hopen' (bindPromises_eq_self hpromised'), hwell.giveIndices_again hrun]

end Pool

end JvmAssembler
