import JvmAssembler.Proofs.Pool.Reference

/-!
# What finalizing does

`obstacle?` says from the constants of a pool, the number of its bootstrap methods and its references what stands
in the way of finalizing it, in the order in which this is checked. `finalize_spec` says that an open pool is
finalized exactly if nothing does, and what it has become either way.
-/

namespace JvmAssembler.Pool

variable {pool : Pool}

/-- The bootstrap method of a constant, if there is no method at its position. -/
def undefinedIn (bootstraps : Nat) (value : Constant Cell) : Option UInt16 :=
  value.bootstrap?.filter fun bootstrap => bootstraps ≤ bootstrap.toNat

/-- Whether an index is reserved or the index of one of the constants. -/
def IsIndexIn (values : List (Constant Cell)) (index : UInt16) : Prop :=
  index = 0 ∨ index.toNat ∈ (numbered values).map (·.1)

instance (values : List (Constant Cell)) (index : UInt16) : Decidable (IsIndexIn values index) :=
  inferInstanceAs (Decidable (_ ∨ _))

theorem undefinedIn_eq_none_iff {bootstraps : Nat} {value : Constant Cell} :
    undefinedIn bootstraps value = none ↔
      ∀ bootstrap, value.bootstrap? = some bootstrap → bootstrap.toNat < bootstraps := by
  rw [undefinedIn]
  cases value.bootstrap? <;> simp

/-- Why constants, in a pool with so many bootstrap methods and with these references, cannot get their indices. -/
def obstacle? (values : List (Constant Cell)) (bootstraps : Nat) (references : List Reference) : Option AssemblyError :=
  if indexLimit < 1 + total Constant.width values then some (.poolOverflow (total Constant.width values))
  else
    match values.findSome? (undefinedIn bootstraps) with
    | some bootstrap => some (.undefinedBootstrap bootstrap)
    | none =>
      (references.find? fun reference => ¬ IsIndexIn values reference.index).map fun reference =>
        .invalidReference reference.index

theorem obstacle?_ne_endless (values : List (Constant Cell)) (bootstraps : Nat) (references : List Reference) :
    obstacle? values bootstraps references ≠ some .endless := by
  rw [obstacle?]
  split
  · simp
  · split <;> simp

theorem obstacle?_eq_none_iff {values : List (Constant Cell)} {bootstraps : Nat} {references : List Reference} :
    obstacle? values bootstraps references = none ↔ 1 + total Constant.width values ≤ indexLimit ∧
      (∀ value ∈ values, undefinedIn bootstraps value = none) ∧
      ∀ reference ∈ references, IsIndexIn values reference.index := by
  rw [obstacle?]
  by_cases hlimit : indexLimit < 1 + total Constant.width values
  · have : ¬ 1 + total Constant.width values ≤ indexLimit := by omega
    simp [hlimit, this]
  · have : 1 + total Constant.width values ≤ indexLimit := by omega
    simp only [hlimit, ↓reduceIte, this, true_and]
    cases hfind : values.findSome? (undefinedIn bootstraps) with
    | some bootstrap =>
      obtain ⟨value, hvalue, hsome⟩ := List.exists_of_findSome?_eq_some hfind
      simp only [reduceCtorEq, false_iff, not_and]
      intro hall
      rw [hall value hvalue] at hsome
      cases hsome
    | none =>
      have hdefined : ∀ value ∈ values, undefinedIn bootstraps value = none := List.findSome?_eq_none_iff.1 hfind
      simp [and_iff_right hdefined]

theorem undefinedBootstrap?_eq (pool : Pool) :
    pool.undefinedBootstrap? = pool.constants.findSome? (undefinedIn pool.bootstraps.size) := by
  rw [undefinedBootstrap?, constants]
  induction pool.order.toList with
  | nil => rfl
  | cons cell cells ih =>
    rw [List.findSome?_cons, List.filterMap_cons, ih]
    cases pool.get? cell with
    | none => rfl
    | some value =>
      simp only [Option.bind_some, List.findSome?_cons, undefinedIn]
      cases value.bootstrap? with
      | none => rfl
      | some bootstrap => simp [Option.filter_some]

theorem WellBound.target?_isNone_iff (h : pool.WellBound) {index : UInt16} :
    (target? pool.numbering index).isNone ↔ ¬ IsIndexIn pool.constants index := by
  rw [target?, IsIndexIn, h.mem_numbered_iff]
  by_cases hzero : index = 0
  · simp [hzero]
  · simp only [hzero, ↓reduceIte, false_or, Option.isNone_iff_eq_none]
    constructor
    · rintro hnone ⟨cell, hcell⟩
      rw [value?_lookup_numbering.2 hcell] at hnone
      cases hnone
    · intro hnot
      cases hvalue : (pool.numbering.lookup index.toNat).value? with
      | none => rfl
      | some cell => exact absurd ⟨cell, value?_lookup_numbering.1 hvalue⟩ hnot

/-- What a number leads to owns an entry, if the cells in order do. -/
theorem owns_of_target? (hzero : pool.binding? .zero = some (.owned .zero))
    (horder : ∀ cell, cell ∈ pool.order.toList ↔ cell ≠ .zero ∧ pool.Owns cell) {index : UInt16} {target : Cell}
    (htarget : target? pool.numbering index = some target) : pool.Owns target := by
  rw [target?] at htarget
  split at htarget
  · obtain rfl := Option.some.inj htarget
    exact ⟨.zero, hzero⟩
  · exact ((horder target).1 (mem_order_of_mem_places (value?_lookup_numbering.1 htarget))).2

theorem WellBound.target?_owns (h : pool.WellBound) {index : UInt16} {target : Cell}
    (htarget : target? pool.numbering index = some target) : pool.Owns target :=
  owns_of_target? h.zero h.mem_order htarget

/-- Numbering changes no entry. -/
theorem owns_assignIndices_iff {cell : Cell} : (pool.assignIndices pool.numbering).Owns cell ↔ pool.Owns cell := by
  simp only [Owns, binding?_assignIndices]

/-- References that lead to entries of a pool lead to entries of the numbered pool. -/
theorem WellBound.owns_assignIndices (h : pool.WellBound) {index : UInt16} {target : Cell}
    (htarget : target? pool.numbering index = some target) : (pool.assignIndices pool.numbering).Owns target :=
  owns_assignIndices_iff.2 (h.target?_owns htarget)

theorem unbound_assignIndices (pool : Pool) : (pool.assignIndices pool.numbering).unbound = pool.unbound := by
  have hreference : ∀ id, (pool.assignIndices pool.numbering).reference? id = pool.reference? id := fun id => by
    rw [reference?, binding?_assignIndices, reference?]
  rw [unbound, size_slots_assignIndices, unbound]
  exact List.filterMap_congr fun id _ => hreference id

theorem WellBound.constants_eq {table : OffsetTable Cell} {final : Pool} (h : pool.WellBound)
    (hpoints : Points table (pool.assignIndices pool.numbering) final) (layout : Option (OffsetTable Cell)) :
    { final with layout }.constants = pool.constants := by
  refine h.constants_congr hpoints.order fun cell value hcell => hpoints.owned ?_
  rw [binding?_assignIndices, hcell]

/-- What giving out the indices does to a pool without promises. -/
theorem WellBound.giveIndices_spec (h : pool.WellBound) (warnings : Array Warning) :
    match obstacle? pool.constants pool.bootstraps.size pool.unbound with
    | some e => ∃ start s', giveIndices ⟨pool, warnings⟩ = .error e s' ∧
        (start = pool ∨ 1 + total Constant.width pool.constants ≤ indexLimit ∧
          start = pool.assignIndices pool.numbering) ∧
        Points pool.numbering start s'.state
    | none => ∃ final, giveIndices ⟨pool, warnings⟩ = .ok () ⟨{ final with layout := some pool.numbering },
          warnings ++ (Reference.zeroWarnings pool.unbound).toArray⟩ ∧
        Points pool.numbering (pool.assignIndices pool.numbering) final ∧ final.unbound = [] := by
  have hassigned := h.assignIndices
  have hundefined : (pool.assignIndices pool.numbering).undefinedBootstrap? =
      pool.constants.findSome? (undefinedIn pool.bootstraps.size) := by
    have hrefl : Points pool.numbering _ (pool.assignIndices pool.numbering) := .refl hassigned
    have hconstants : (pool.assignIndices pool.numbering).constants = pool.constants := h.constants_eq hrefl pool.layout
    rw [undefinedBootstrap?_eq, hconstants]
    rfl
  rw [obstacle?, giveIndices, h.numbering_next]
  by_cases hlimit : indexLimit < 1 + total Constant.width pool.constants
  · simp only [hlimit, ↓reduceIte]
    exact ⟨pool, _, by rw [Nat.add_sub_cancel_left], .inl rfl, .refl h⟩
  · have hle := Nat.le_of_not_lt hlimit
    simp only [hlimit, ↓reduceIte]
    rw [hundefined]
    cases hfind : pool.constants.findSome? (undefinedIn pool.bootstraps.size) with
    | some bootstrap => exact ⟨_, _, rfl, .inr ⟨hle, rfl⟩, .refl hassigned⟩
    | none =>
      obtain ⟨final, hpoints, hresult⟩ :=
        bindReferences_spec hassigned (fun index target => h.owns_assignIndices) warnings
      have hnone : (fun reference : Reference => (target? pool.numbering reference.index).isNone) =
          fun reference => decide (¬ IsIndexIn pool.constants reference.index) := by
        funext reference
        rw [Bool.eq_iff_iff, h.target?_isNone_iff, decide_eq_true_iff]
      rw [unbound_assignIndices, hnone] at hresult
      cases hfirst : pool.unbound.find? fun reference => decide (¬ IsIndexIn pool.constants reference.index) with
      | some reference =>
        rw [hfirst] at hresult
        obtain ⟨warnings', hrun⟩ := hresult
        exact ⟨_, ⟨final, warnings'⟩, by rw [hrun], .inr ⟨hle, rfl⟩, hpoints⟩
      | none =>
        rw [hfirst] at hresult
        exact ⟨final, by rw [hresult.1], hpoints, hresult.2⟩

theorem finalize_of_open (hopen : pool.isFinalized = false) {bound : Pool} (hrun : bindPromises pool = .ok () bound)
    (warnings : Array Warning) : finalize ⟨pool, warnings⟩ = giveIndices ⟨bound, warnings⟩ := by
  simp only [finalize, hopen, Bool.false_eq_true, ↓reduceIte, Reporting.lift, hrun]

/-- If binding the promises has no end, then finalizing has none. -/
theorem finalize_of_endless (hopen : pool.isFinalized = false) {left : Pool}
    (hrun : bindPromises pool = .error .endless left) (warnings : Array Warning) :
    finalize ⟨pool, warnings⟩ = .error .endless ⟨left, warnings⟩ := by
  simp only [finalize, hopen, Bool.false_eq_true, ↓reduceIte, Reporting.lift, hrun]

/-- An open pool can be finalized exactly if nothing stands in the way once its promises are bound. -/
theorem finalize_spec (hopen : pool.isFinalized = false) {bound : Pool} (hrun : bindPromises pool = .ok () bound)
    (hwell : bound.WellBound) (warnings : Array Warning) :
    match obstacle? bound.constants bound.bootstraps.size bound.unbound with
    | some e => ∃ start s', finalize ⟨pool, warnings⟩ = .error e s' ∧
        (start = bound ∨ 1 + total Constant.width bound.constants ≤ indexLimit ∧
          start = bound.assignIndices bound.numbering) ∧
        Points bound.numbering start s'.state
    | none => ∃ final, finalize ⟨pool, warnings⟩ = .ok () ⟨{ final with layout := some bound.numbering },
          warnings ++ (Reference.zeroWarnings bound.unbound).toArray⟩ ∧
        Points bound.numbering (bound.assignIndices bound.numbering) final ∧ final.unbound = [] := by
  rw [finalize_of_open hopen hrun]
  exact hwell.giveIndices_spec warnings

theorem isFinalized_of_finalize {s s' : Reported Pool} (h : finalize s = .ok () s') :
    s'.state.isFinalized = true := by
  rw [finalize] at h
  split at h
  · rename_i hfinal
    obtain ⟨-, rfl⟩ := EStateM.Result.ok.inj h
    exact hfinal
  · split at h
    · cases h
    · rw [giveIndices] at h
      simp only at h
      split at h
      · cases h
      · split at h
        · cases h
        · split at h
          · cases h
          · obtain ⟨-, rfl⟩ := EStateM.Result.ok.inj h
            rfl

end JvmAssembler.Pool
