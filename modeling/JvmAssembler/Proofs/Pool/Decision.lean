import JvmAssembler.Proofs.Pool.Indexed
import JvmAssembler.Proofs.Pool.OpenStep
import JvmAssembler.Proofs.Pool.Promise
import Mathlib.Data.List.Find
import Mathlib.Data.List.Sort

/-!
# When a pool can be finalized

What stands in the way of finalizing depends on the entries that the pool has once its promises are bound, on the
number of its bootstrap methods, and on all references that were ever handed out: those that an earlier attempt
has bound stand in nobody's way.
-/

namespace JvmAssembler.Pool

variable {pool bound : Pool} {references : List Reference}

/-! ### The references that are left to bind -/

theorem unbound_sorted (pool : Pool) : pool.unbound.Pairwise (·.cell.id < ·.cell.id) := by
  rw [unbound, List.pairwise_filterMap]
  refine List.pairwise_lt_range.imp fun {id id'} hlt r hr r' hr' => ?_
  rw [(reference?_eq_some_iff.1 hr).1, (reference?_eq_some_iff.1 hr').1]
  exact hlt

/-- The unbound references, out of all that were handed out. -/
theorem Valid.unbound_eq (h : pool.Valid references) : pool.unbound = references.filter (· ∈ pool.unbound) := by
  have hmem : ∀ r, r ∈ pool.unbound ↔ r ∈ references.filter (· ∈ pool.unbound) := by
    intro r
    rw [List.mem_filter, decide_eq_true_iff]
    exact ⟨fun hr => ⟨h.unbound_subset r hr, hr⟩, fun hr => hr.2⟩
  have : Std.Antisymm fun r r' : Reference => r.cell.id < r'.cell.id := ⟨fun r r' hlt hlt' => by omega⟩
  have : Std.Irrefl fun r r' : Reference => r.cell.id < r'.cell.id := ⟨fun r hlt => by omega⟩
  exact (unbound_sorted pool).eq_of_mem_iff (h.sorted.filter _) hmem

theorem Valid.unbound_of_extends (h : pool.Valid references) (hopen : pool.layout = none) (hwell : bound.WellBound)
    (hextends : Extends pool bound) : bound.unbound = references.filter (· ∈ pool.unbound) := by
  rw [(h.extends_ hopen hwell hextends).unbound_eq]
  refine List.filter_congr fun r _ => ?_
  rw [decide_eq_decide, mem_unbound_iff, mem_unbound_iff, hextends.indexed_iff]

/-- References that are bound already lead to an entry, so all references may be asked as well as the unbound. -/
theorem Valid.obstacle?_unbound (h : pool.Valid references) (bootstraps : Nat) :
    obstacle? pool.constants bootstraps pool.unbound = obstacle? pool.constants bootstraps references := by
  have hbound : ∀ r ∈ references, r ∉ pool.unbound → IsIndexIn pool.constants r.index := by
    intro r hr hnot
    rcases h.bound r hr with hunbound | ⟨target, -, htarget⟩
    · exact absurd hunbound hnot
    · by_contra hindex
      rw [← h.wellBound.target?_isNone_iff, htarget] at hindex
      cases hindex
  have hfind : (pool.unbound.find? fun r => ¬ IsIndexIn pool.constants r.index) =
      references.find? fun r => ¬ IsIndexIn pool.constants r.index := by
    rw [h.unbound_eq, List.find?_filter]
    refine List.find?_congr fun r hr => ?_
    by_cases hunbound : r ∈ pool.unbound
    · simp [hunbound]
    · simp [hunbound, hbound r hr hunbound]
  rw [obstacle?, hfind, obstacle?]

/-! ### The entries that promises add -/

private theorem Extends.fresh_of_added (hextends : Extends pool bound) (h : pool.WellBound) (hwell : bound.WellBound)
    {cells : List Cell} (hcells : bound.order.toList = pool.order.toList ++ cells) {cell : Cell}
    (hcell : cell ∈ cells) : pool.binding? cell = none := by
  have hmem : cell ∈ bound.order.toList := hcells ▸ List.mem_append_right _ hcell
  obtain ⟨hne, value, hvalue⟩ := (hwell.mem_order cell).1 hmem
  have hnew : cell ∉ pool.order.toList := by
    intro hold
    have hsorted := hcells ▸ hwell.sorted
    have := (List.pairwise_append.1 hsorted).2.2 cell hold cell hcell
    omega
  cases hbefore : pool.binding? cell with
  | none => rfl
  | some binding =>
    -- A cell of the pool that owns an entry of `bound` has owned it before.
    rcases binding with v | target | ⟨index, position⟩ | ⟨kind, name⟩
    · exact absurd ((h.mem_order cell).2 ⟨hne, v, hbefore⟩) hnew
    · rw [hextends.keep cell _ hbefore nofun] at hvalue
      cases hvalue
    · rw [hextends.keep cell _ hbefore nofun] at hvalue
      cases hvalue
    · rcases hextends.promised cell kind name hbefore with hafter | ⟨target, hafter⟩ <;>
        · rw [hafter] at hvalue
          cases hvalue

/-- Binding promises keeps the entries and adds new ones behind them. -/
theorem Extends.constants_append (hextends : Extends pool bound) (h : pool.WellBound) (hwell : bound.WellBound) :
    ∃ added, bound.constants = pool.constants ++ added ∧ ∀ value ∈ added, ∃ cell, pool.binding? cell = none ∧
      bound.binding? cell = some (.owned value) := by
  obtain ⟨cells, hcells⟩ := hextends.order
  have hkeep : pool.order.toList.filterMap bound.get? = pool.order.toList.filterMap pool.get? := by
    refine List.filterMap_congr fun cell hcell => ?_
    obtain ⟨value, hget, hvalue⟩ := h.get?_of_mem_order hcell
    rw [hget, get?_of_owned (hextends.keep cell _ hvalue nofun)]
  refine ⟨cells.filterMap bound.get?, by rw [Pool.constants, hcells, List.filterMap_append, hkeep, Pool.constants], ?_⟩
  intro value hmem
  obtain ⟨cell, hcell, hget⟩ := List.mem_filterMap.1 hmem
  obtain ⟨v, hv, hbinding⟩ := hwell.get?_of_mem_order (hcells ▸ List.mem_append_right _ hcell)
  obtain rfl : v = value := Option.some.inj (hv.symm.trans hget)
  exact ⟨cell, hextends.fresh_of_added h hwell hcells hcell, hbinding⟩

theorem Extends.constants (hextends : Extends pool bound) (h : pool.WellBound) (hwell : bound.WellBound) :
    ∃ added, bound.constants = pool.constants ++ added ∧ ∀ value ∈ added, ∃ kind name, value = .wrapper kind name := by
  obtain ⟨added, hadded, hfresh⟩ := hextends.constants_append h hwell
  refine ⟨added, hadded, fun value hvalue => ?_⟩
  obtain ⟨cell, hnone, hcell⟩ := hfresh value hvalue
  obtain ⟨kind, name, heq⟩ := hextends.fresh cell _ hnone hcell
  exact ⟨kind, name, Binding.owned.inj heq⟩

/-- The wrappers that are added are those of promises. -/
theorem Extends.constants_of_promises (hextends : Extends pool bound) (h : pool.Faithful) (hwell : bound.WellBound)
    (hsteps : Relation.ReflTransGen BindStep pool bound) :
    ∃ added, bound.constants = pool.constants ++ added ∧ ∀ value ∈ added, ∃ cell kind name,
      pool.binding? cell = some (.promised kind name) ∧ value = .wrapper kind (bound.canonical name) := by
  obtain ⟨added, hadded, hfresh⟩ := hextends.constants_append h.toWellBound hwell
  refine ⟨added, hadded, fun value hvalue => ?_⟩
  obtain ⟨cell, hnone, hcell⟩ := hfresh value hvalue
  obtain ⟨promised, kind, name, hpromised, -, heq⟩ :=
    h.promised_of_fresh hsteps (binding?_eq_none_iff.1 hnone) hcell
  exact ⟨promised, kind, name, hpromised, Binding.owned.inj heq⟩

/-! ### The decision -/

/-- The outcome for a pool with the given references, once its promises are bound. -/
theorem Valid.finalize_spec (h : pool.Valid references) (hopen : pool.isFinalized = false)
    (hrun : bindPromises pool = .ok () bound) (hwell : bound.WellBound) (hextends : Extends pool bound)
    (warnings : Array Warning) :
    match obstacle? bound.constants pool.bootstraps.size references with
    | some e => ∃ s, Pool.finalize ⟨pool, warnings⟩ = .error e s
    | none => ∃ final, Pool.finalize ⟨pool, warnings⟩ = .ok () ⟨final, warnings ++
          (Reference.zeroWarnings (references.filter (· ∈ pool.unbound))).toArray⟩ ∧
        final.isFinalized = true ∧ pool.slots.size ≤ final.slots.size ∧ final.Indexed bound.constants references := by
  have hlayout := layout_eq_none hopen
  have hresult := Pool.finalize_spec hopen hrun hwell warnings
  rw [hextends.bootstraps, (h.extends_ hlayout hwell hextends).obstacle?_unbound] at hresult
  cases hobstacle : obstacle? bound.constants pool.bootstraps.size references with
  | some e =>
    rw [hobstacle] at hresult
    obtain ⟨-, s, hfinalize, -⟩ := hresult
    exact ⟨s, hfinalize⟩
  | none =>
    rw [hobstacle] at hresult
    obtain ⟨final, hfinalize, hpoints, -⟩ := hresult
    -- The finalized pool is valid as well, for the same references, and its constants are those of `bound`.
    have hvalid := h.finalize warnings
    rw [hfinalize] at hvalid
    have hindexed := hvalid.indexed rfl
    rw [PoolOp.left, hwell.constants_eq hpoints] at hindexed
    rw [h.unbound_of_extends hlayout hwell hextends] at hfinalize
    have hsize : final.slots.size = bound.slots.size := by rw [hpoints.size, size_slots_assignIndices]
    exact ⟨_, hfinalize, rfl, hsize ▸ hextends.size_le, hindexed⟩

/-- Finalizing a pool that is not finalized has no end exactly if one of its promises is looked for without an end.
Otherwise all promises are bound to entries that keep them, where entries are added behind the others for promises that
the pool does not keep yet, and the pool is finalized exactly if the entries fit, their bootstrap methods exist and
every reference that was handed out leads to one of them. -/
theorem finalize_of_reached (h : Reached pool references) (hopen : pool.isFinalized = false)
    (warnings : Array Warning) :
    ((∃ s, finalize ⟨pool, warnings⟩ = .error .endless s) ↔ pool.Stuck) ∧
    (¬ pool.Stuck → ∃ bound, bindPromises pool = .ok () bound ∧
      (∀ cell kind name, pool.binding? cell = some (.promised kind name) →
        ∃ target, bound.binding? cell = some (.alias target) ∧ target ∈ bound.order.toList ∧
          bound.Fulfils kind name target) ∧
      (∃ added, bound.constants = pool.constants ++ added ∧ ∀ value ∈ added, ∃ cell kind name,
        pool.binding? cell = some (.promised kind name) ∧ value = .wrapper kind (bound.canonical name)) ∧
      ((∃ s, finalize ⟨pool, warnings⟩ = .ok () s) ↔
        1 + total Constant.width bound.constants ≤ indexLimit ∧
        (∀ value ∈ bound.constants, ∀ bootstrap, value.bootstrap? = some bootstrap →
          bootstrap.toNat < pool.bootstraps.size) ∧
        ∀ reference ∈ references, IsIndexIn bound.constants reference.index) ∧
      (∀ e s, finalize ⟨pool, warnings⟩ = .error e s →
        obstacle? bound.constants pool.bootstraps.size references = some e) ∧
      ∀ final warnings', finalize ⟨pool, warnings⟩ = .ok () ⟨final, warnings'⟩ →
        final.isFinalized = true ∧ pool.slots.size ≤ final.slots.size ∧
        final.Indexed bound.constants references ∧
        warnings' = warnings ++ (Reference.zeroWarnings (references.filter (· ∈ pool.unbound))).toArray) := by
  have hvalid := h.valid
  have hfaithful := h.faithful
  have hlayout := layout_eq_none hopen
  have hstuck := hfaithful.bindPromises_endless_iff hlayout
  have hsteps := bindPromises_bindSteps hvalid.wellBound hlayout
  rcases bindPromises_spec hvalid.wellBound hlayout with ⟨bound, hrun, hwell, hextends, hpromised⟩ | ⟨left, hrun, -⟩
  swap
  · have hends := hstuck.1 ⟨left, hrun⟩
    exact ⟨iff_of_true ⟨_, finalize_of_endless hopen hrun warnings⟩ hends, fun hnot => absurd hends hnot⟩
  have hnot : ¬ pool.Stuck := by simp [← hstuck, hrun]
  have hresult := hvalid.finalize_spec hopen hrun hwell hextends warnings
  rw [hrun] at hsteps
  have hkept : ∀ cell kind name, pool.binding? cell = some (.promised kind name) →
      ∃ target, bound.binding? cell = some (.alias target) ∧ target ∈ bound.order.toList ∧
        bound.Fulfils kind name target := by
    intro cell kind name hcell
    rcases hfaithful.fulfils_of_bindSteps hsteps hcell with hafter | ⟨target, hafter, -, hfulfils⟩
    · exact absurd hafter (hpromised cell kind name)
    · exact ⟨target, hafter, hfulfils.mem_order hwell, hfulfils⟩
  have hadded := hextends.constants_of_promises hfaithful hwell hsteps
  simp only [← undefinedIn_eq_none_iff, ← obstacle?_eq_none_iff]
  cases hobstacle : obstacle? bound.constants pool.bootstraps.size references with
  | some e =>
    rw [hobstacle] at hresult
    obtain ⟨s, hfinalize⟩ := hresult
    have hne : e ≠ .endless := fun heq => obstacle?_ne_endless _ _ _ (heq ▸ hobstacle)
    refine ⟨iff_of_false (by simp [hfinalize, hne]) hnot, fun _ => ⟨bound, hrun, hkept, hadded, ?_⟩⟩
    rw [hfinalize]
    simp [hobstacle]
  | none =>
    rw [hobstacle] at hresult
    obtain ⟨final, hfinalize, hfinal⟩ := hresult
    refine ⟨iff_of_false (by simp [hfinalize]) hnot, fun _ => ⟨bound, hrun, hkept, hadded, ?_⟩⟩
    rw [hfinalize]
    refine ⟨by simp [hobstacle], by simp, fun final' warnings' hok => ?_⟩
    obtain ⟨hstate, hwarnings⟩ := Reported.mk.inj (EStateM.Result.ok.inj hok).2
    subst hstate
    exact ⟨hfinal.1, hfinal.2.1, hfinal.2.2, hwarnings.symm⟩

/-- A pool with a constant of two indices and a reference to the second of them. -/
def secondHalf : Pool := (PoolOp.reference 2 9).apply (Pool.empty.addEntry (.long 5))

theorem reached_secondHalf : Reached secondHalf [⟨⟨2⟩, 2, 9⟩] := by
  have hfind : Pool.empty.find (.long 5) = .ok none := find_empty rfl
  have hlong : Reached (Pool.empty.addEntry (.long 5)) [] :=
    Reached.empty.addEntry rfl hfind (by simp) (by simp [Constant.refs])
  exact Reached.step (.reference 2 9) hlong (by simp [PoolOp.cells])

/-- No constant has the second index of another. -/
theorem finalize_of_reached_secondHalf :
    Reached secondHalf [⟨⟨2⟩, 2, 9⟩] ∧ secondHalf.isFinalized = false ∧ ¬ secondHalf.Stuck ∧
      ∃ s, finalize ⟨secondHalf, #[]⟩ = .error (.invalidReference 2) s := by
  have hopen : secondHalf.isFinalized = false := rfl
  have hsame : bindPromises secondHalf = .ok () secondHalf := rfl
  have hnot : ¬ secondHalf.Stuck := by
    rw [← reached_secondHalf.faithful.bindPromises_endless_iff rfl, hsame]
    simp
  obtain ⟨-, hdecision⟩ := finalize_of_reached reached_secondHalf hopen #[]
  obtain ⟨bound, hbound, -, -, hiff, herror, -⟩ := hdecision hnot
  obtain rfl := (EStateM.Result.ok.inj (hsame.symm.trans hbound)).2
  have hconstants : secondHalf.constants = [.long 5] := rfl
  refine ⟨reached_secondHalf, hopen, hnot, ?_⟩
  rw [hconstants] at hiff herror
  cases hfinalize : finalize ⟨secondHalf, #[]⟩ with
  | ok u s =>
    have hindex := (hiff.1 ⟨s, hfinalize⟩).2.2 _ (List.mem_singleton.2 rfl)
    exact absurd hindex (by decide)
  | error e s =>
    have hobstacle := herror e s hfinalize
    have hinvalid : obstacle? [.long 5] secondHalf.bootstraps.size [⟨⟨2⟩, 2, 9⟩] = some (.invalidReference 2) := by
      decide
    obtain rfl := Option.some.inj (hinvalid.symm.trans hobstacle)
    exact ⟨s, rfl⟩

/-! ### A class that contains itself -/

/-- A class whose name is asked for by the index of the class itself, and a reference to an entry that is not there. -/
def selfNamed : Pool :=
  (PoolOp.reference 3 0).apply (((PoolOp.reference 1 0).apply Pool.empty).addEntry (.wrapper .classInfo ⟨1⟩))

theorem reached_selfNamed : Reached selfNamed [⟨⟨1⟩, 1, 0⟩, ⟨⟨3⟩, 3, 0⟩] := by
  have hreference : Reached ((PoolOp.reference 1 0).apply Pool.empty) [⟨⟨1⟩, 1, 0⟩] :=
    Reached.step (.reference 1 0) .empty (by simp [PoolOp.cells])
  have hfind : ((PoolOp.reference 1 0).apply Pool.empty).find (.wrapper .classInfo ⟨1⟩) = .ok none := by
    have hvalue : ((PoolOp.reference 1 0).apply Pool.empty).byValue = ∅ := rfl
    have hcontent : ((PoolOp.reference 1 0).apply Pool.empty).contentOf (.wrapper .classInfo ⟨1⟩) = .ok none := rfl
    exact find_eq_none (by simp [hvalue]) hcontent (by simp)
  exact Reached.step (.reference 3 0) (hreference.addEntry rfl hfind (by simp) (by decide)) (by simp [PoolOp.cells])

/-- The pool after an attempt to finalize it, which has made the class its own name, with another class and with the
promise of a string that has the first class for its text. -/
def selfContaining : Pool :=
  ((((PoolOp.finalize #[]).apply selfNamed).addEntry (.utf8 "A")).addEntry (.wrapper .classInfo ⟨4⟩)).pushSlot
    (.promised .stringInfo ⟨2⟩)

theorem reached_selfContaining : Reached selfContaining [⟨⟨1⟩, 1, 0⟩, ⟨⟨3⟩, 3, 0⟩] := by
  have hattempt : Reached ((PoolOp.finalize #[]).apply selfNamed) [⟨⟨1⟩, 1, 0⟩, ⟨⟨3⟩, 3, 0⟩] :=
    Reached.step (.finalize #[]) reached_selfNamed (by simp [PoolOp.cells])
  have hfind : ((PoolOp.finalize #[]).apply selfNamed).find (.utf8 "A") = .ok none := by
    have hvalue : ((PoolOp.finalize #[]).apply selfNamed).byValue =
        Std.HashMap.insert ∅ (.wrapper .classInfo ⟨1⟩) ⟨2⟩ := rfl
    have hcontent : ((PoolOp.finalize #[]).apply selfNamed).contentOf (.utf8 "A") =
        .ok (some (.leaf (.utf8 "A"))) := rfl
    have htable : ((PoolOp.finalize #[]).apply selfNamed).byContent = ∅ := rfl
    exact find_eq_none (by simp [hvalue]) hcontent (by simp [htable])
  have htext := hattempt.addEntry rfl hfind (by simp) (by simp [Constant.refs])
  have hother : (((PoolOp.finalize #[]).apply selfNamed).addEntry (.utf8 "A")).find (.wrapper .classInfo ⟨4⟩) =
      .ok none := by
    have hvalue : (((PoolOp.finalize #[]).apply selfNamed).addEntry (.utf8 "A")).byValue =
        (Std.HashMap.insert ∅ (.wrapper .classInfo ⟨1⟩) ⟨2⟩).insert (.utf8 "A") ⟨4⟩ := rfl
    have hcontent : (((PoolOp.finalize #[]).apply selfNamed).addEntry (.utf8 "A")).contentOf
        (.wrapper .classInfo ⟨4⟩) = .ok (some (.unary (.wrapper .classInfo ()) (.leaf (.utf8 "A")))) := rfl
    have htable : (((PoolOp.finalize #[]).apply selfNamed).addEntry (.utf8 "A")).byContent =
        Std.HashMap.insert ∅ (.leaf (.utf8 "A")) ⟨4⟩ := rfl
    exact find_eq_none (by simp [hvalue]) hcontent (by simp [htable])
  have hclass := htext.addEntry rfl hother (by simp) (by decide)
  exact Reached.step (.promise .stringInfo ⟨2⟩) hclass (by decide)

theorem stuck_selfContaining : selfContaining.Stuck := by
  have hpromised : selfContaining.binding? ⟨6⟩ = some (.promised .stringInfo ⟨2⟩) := rfl
  have hclass : selfContaining.meaning? ⟨2⟩ = some (.wrapper .classInfo ⟨1⟩) := rfl
  have hname : selfContaining.meaning? ⟨1⟩ = some (.wrapper .classInfo ⟨1⟩) := rfl
  have hstring : selfContaining.Demands ⟨6⟩ ⟨2⟩ := ⟨_, [], [], meaning?_of_promised hpromised, rfl, by simp⟩
  have hinner : selfContaining.Demands ⟨2⟩ ⟨1⟩ := ⟨_, [], [], hclass, rfl, by simp⟩
  have hcycle : selfContaining.Demands ⟨1⟩ ⟨1⟩ := ⟨_, [], [], hname, rfl, by simp⟩
  refine ⟨⟨6⟩, .stringInfo, ⟨2⟩, hpromised, ⟨⟨1⟩, .head hstring (.single hinner), .single hcycle⟩,
    fun target htarget => ?_⟩
  obtain ⟨owner, howner, hvalue⟩ := htarget.exists_owner hpromised
  have howned : selfContaining.binding? ⟨2⟩ = some (.owned (.wrapper .classInfo ⟨1⟩)) := rfl
  obtain rfl := howner.eq_canonical (by simp [howned])
  rw [canonical_of_owns ⟨_, howned⟩] at hvalue
  have htable : selfContaining.byValue =
      ((Std.HashMap.insert ∅ (.wrapper .classInfo ⟨1⟩) ⟨2⟩).insert (.utf8 "A") ⟨4⟩).insert (.wrapper .classInfo ⟨4⟩)
        ⟨5⟩ := rfl
  simp [htable] at hvalue

/-- With the promised string nothing would stand in the way, but the pool is not finalized. -/
theorem finalize_endless_selfContaining :
    Reached selfContaining [⟨⟨1⟩, 1, 0⟩, ⟨⟨3⟩, 3, 0⟩] ∧ selfContaining.isFinalized = false ∧
      obstacle? (selfContaining.constants ++ [.wrapper .stringInfo ⟨2⟩]) selfContaining.bootstraps.size
        [⟨⟨1⟩, 1, 0⟩, ⟨⟨3⟩, 3, 0⟩] = none ∧
      ∃ s, finalize ⟨selfContaining, #[]⟩ = .error .endless s := by
  have hopen : selfContaining.isFinalized = false := rfl
  have hconstants : selfContaining.constants =
      [.wrapper .classInfo ⟨1⟩, .utf8 "A", .wrapper .classInfo ⟨4⟩] := rfl
  refine ⟨reached_selfContaining, hopen, by rw [hconstants]; decide, ?_⟩
  obtain ⟨left, hrun⟩ :=
    (reached_selfContaining.faithful.bindPromises_endless_iff (layout_eq_none hopen)).2 stuck_selfContaining
  exact ⟨_, finalize_of_endless hopen hrun #[]⟩

end JvmAssembler.Pool
