import JvmAssembler.Proofs.Pool.Numbering

/-!
# Binding explicit indices

A reference is a cell that was asked for by its index. Once the entries have their numbers, the references that
are still unbound are bound one after the other, in the order of their cells. `bindReferences_spec` says when
this fails, at which reference, and which warnings are reported.
-/

namespace JvmAssembler

/-- A cell that was asked for by its index, and where. -/
structure Reference where
  cell : Cell
  index : UInt16
  position : Nat
  deriving DecidableEq

/-- The warnings for references to the reserved index 0. -/
def Reference.zeroWarnings (references : List Reference) : List Warning :=
  (references.filter (·.index = 0)).map fun reference => ⟨reference.position, .zeroReference⟩

theorem Reference.zeroWarnings_cons (reference : Reference) (references : List Reference) :
    zeroWarnings (reference :: references) = zeroWarnings [reference] ++ zeroWarnings references := by
  rw [zeroWarnings, zeroWarnings, zeroWarnings, ← List.map_append, ← List.filter_append]
  rfl

namespace Pool

variable {pool pool' : Pool} {table : OffsetTable Cell}

/-- The reference that a cell is, if it is one that is not bound. -/
def reference? (pool : Pool) (id : Nat) : Option Reference :=
  match pool.binding? ⟨id⟩ with
  | some (.indexed index position) => some ⟨⟨id⟩, index, position⟩
  | _ => none

/-- The references that are not bound, in the order of their cells. -/
def unbound (pool : Pool) : List Reference := (List.range pool.slots.size).filterMap pool.reference?

/-- The cell that an index leads to. -/
def target? (table : OffsetTable Cell) (index : UInt16) : Option Cell :=
  if index = 0 then some .zero else (table.lookup index.toNat).value?

theorem reference?_eq_some_iff {id : Nat} {reference : Reference} :
    pool.reference? id = some reference ↔ reference.cell = ⟨id⟩ ∧
      pool.binding? reference.cell = some (.indexed reference.index reference.position) := by
  obtain ⟨cell, index, position⟩ := reference
  rw [reference?]
  constructor
  · intro h
    split at h
    · rename_i i p hbinding
      cases h
      exact ⟨rfl, hbinding⟩
    · cases h
  · rintro ⟨rfl, hbinding⟩
    simp only at hbinding
    rw [hbinding]

theorem mem_unbound_iff {reference : Reference} :
    reference ∈ pool.unbound ↔ pool.binding? reference.cell = some (.indexed reference.index reference.position) := by
  rw [unbound, List.mem_filterMap]
  constructor
  · rintro ⟨id, -, h⟩
    exact (reference?_eq_some_iff.1 h).2
  · intro h
    exact ⟨reference.cell.id, List.mem_range.2 (lt_of_binding? h), reference?_eq_some_iff.2 ⟨rfl, h⟩⟩

/-- References of a pool have been bound to where a table leads them, and nothing else has changed. -/
structure Points (table : OffsetTable Cell) (pool pool' : Pool) : Prop where
  wellBound : pool'.WellBound
  order : pool'.order = pool.order
  byValue : pool'.byValue = pool.byValue
  byContent : pool'.byContent = pool.byContent
  bootstraps : pool'.bootstraps = pool.bootstraps
  layout : pool'.layout = pool.layout
  size : pool'.slots.size = pool.slots.size
  number : ∀ cell, pool'.number? cell = pool.number? cell
  binding : ∀ cell, pool'.binding? cell = pool.binding? cell ∨ ∃ index position target,
    pool.binding? cell = some (.indexed index position) ∧ target? table index = some target ∧
      pool'.binding? cell = some (.alias target)

namespace Points

theorem refl (h : pool.WellBound) : Points table pool pool where
  wellBound := h
  order := rfl
  byValue := rfl
  byContent := rfl
  bootstraps := rfl
  layout := rfl
  size := rfl
  number _ := rfl
  binding _ := .inl rfl

theorem trans {pool'' : Pool} (h : Points table pool pool') (h' : Points table pool' pool'') :
    Points table pool pool'' where
  wellBound := h'.wellBound
  order := h'.order.trans h.order
  byValue := h'.byValue.trans h.byValue
  byContent := h'.byContent.trans h.byContent
  bootstraps := h'.bootstraps.trans h.bootstraps
  layout := h'.layout.trans h.layout
  size := h'.size.trans h.size
  number cell := (h'.number cell).trans (h.number cell)
  binding cell := by
    rcases h.binding cell with hkeep | ⟨index, position, target, hcell, htarget, halias⟩
    · rw [← hkeep]
      exact h'.binding cell
    · rcases h'.binding cell with hkeep' | ⟨index', position', target', hcell', -⟩
      · exact .inr ⟨index, position, target, hcell, htarget, hkeep'.trans halias⟩
      · rw [halias] at hcell'
        cases hcell'

theorem owned (h : Points table pool pool') {cell : Cell} {value : Constant Cell}
    (hcell : pool.binding? cell = some (.owned value)) : pool'.binding? cell = some (.owned value) := by
  rcases h.binding cell with hkeep | ⟨index, position, target, hindexed, -⟩
  · rw [hkeep, hcell]
  · rw [hcell] at hindexed
    cases hindexed

/-- Binding one reference. -/
theorem bind (h : pool.WellBound) {cell target : Cell} {index : UInt16} {position : Nat}
    (hcell : pool.binding? cell = some (.indexed index position)) (hlookup : target? table index = some target)
    (htarget : pool.Owns target) : Points table pool (pool.bind cell target) := by
  have hnot : ¬ pool.Owns cell := not_owns_of_binding? hcell (by simp)
  obtain ⟨heq, hsize⟩ := bind_eq pool cell target
  refine ⟨h.bind hnot htarget, by rw [heq], by rw [heq], by rw [heq], by rw [heq], by rw [heq], hsize,
    number?_bind pool cell target, fun c => ?_⟩
  by_cases hc : c = cell
  · subst hc
    exact .inr ⟨index, position, target, hcell, hlookup, binding?_bind_self hcell hnot htarget⟩
  · exact .inl (binding?_bind_of_ne hnot htarget hc)

theorem reference?_eq_none (h : Points table pool pool') {id : Nat} (hid : pool.reference? id = none) :
    pool'.reference? id = none := by
  rcases h.binding ⟨id⟩ with hkeep | ⟨index, position, target, hindexed, -⟩
  · rw [reference?, hkeep]
    exact hid
  · rw [reference?, hindexed] at hid
    cases hid

end Points

/-! ### Binding all references -/

theorem bindReference_eq (table : OffsetTable Cell) (id : Nat) (pool : Pool) (warnings : Array Warning) :
    bindReference table id ⟨pool, warnings⟩ =
      match pool.reference? id with
      | none => .ok () ⟨pool, warnings⟩
      | some reference =>
        match target? table reference.index with
        | some target =>
          .ok () ⟨pool.bind reference.cell target, warnings ++ (Reference.zeroWarnings [reference]).toArray⟩
        | none => .error (.invalidReference reference.index) ⟨pool, warnings⟩ := by
  rw [bindReference, reference?, binding?, slot?]
  cases pool.slots[id]? with
  | none => rfl
  | some slot =>
    obtain ⟨binding, number, rank⟩ := slot
    cases binding with
    | indexed index position =>
      simp only [Option.map_some, target?]
      by_cases hzero : index = 0
      · simp [hzero, Reference.zeroWarnings]
      · simp only [hzero, ↓reduceIte]
        cases (table.lookup index.toNat).value? with
        | none => rfl
        | some target => simp [Reference.zeroWarnings, hzero]
    | _ => rfl

theorem reference?_bind {id : Nat} {reference : Reference} {target : Cell}
    (h : pool.reference? id = some reference) (htarget : pool.Owns target) (i : Nat) :
    (pool.bind reference.cell target).reference? i = if i = id then none else pool.reference? i := by
  obtain ⟨hcell, hbinding⟩ := reference?_eq_some_iff.1 h
  rw [reference?, binding?_bind_of_owns (not_owns_of_binding? hbinding (by simp)) htarget]
  by_cases hi : i = id
  · subst hi
    rw [if_pos hcell.symm, if_pos rfl, ← hcell, hbinding]
    rfl
  · have hcne : (⟨i⟩ : Cell) ≠ reference.cell := by
      rw [hcell]
      exact fun heq => hi (Cell.mk.inj heq)
    rw [if_neg hcne, if_neg hi, reference?]

theorem forM_bindReference {ids : List Nat} (hids : ids.Nodup) (h : pool.WellBound)
    (htargets : ∀ index target, target? table index = some target → pool.Owns target) (warnings : Array Warning) :
    ∃ pool', Points table pool pool' ∧
      match (ids.filterMap pool.reference?).find? fun reference => (target? table reference.index).isNone with
      | some reference => ∃ warnings', ids.forM (bindReference table) ⟨pool, warnings⟩ =
          .error (.invalidReference reference.index) ⟨pool', warnings'⟩
      | none => ids.forM (bindReference table) ⟨pool, warnings⟩ =
          .ok () ⟨pool', warnings ++ (Reference.zeroWarnings (ids.filterMap pool.reference?)).toArray⟩ ∧
        ∀ id ∈ ids, pool'.reference? id = none := by
  induction ids generalizing pool warnings with
  | nil => exact ⟨pool, .refl h, by simp [Reference.zeroWarnings, pure, EStateM.pure]⟩
  | cons id ids ih =>
    obtain ⟨hid, hrest⟩ := List.nodup_cons.1 hids
    have hstep := bindReference_eq table id pool warnings
    rw [forM_cons_run, EStateM.bind, hstep]
    cases hreference : pool.reference? id with
    | none =>
      rw [List.filterMap_cons_none hreference]
      obtain ⟨pool', hpoints, hresult⟩ := ih hrest h htargets warnings
      refine ⟨pool', hpoints, ?_⟩
      split at hresult
      · exact hresult
      · refine ⟨hresult.1, fun i hi => ?_⟩
        rcases List.mem_cons.1 hi with rfl | hi
        · exact hpoints.reference?_eq_none hreference
        · exact hresult.2 i hi
    | some reference =>
      rw [List.filterMap_cons_some hreference]
      simp only
      cases htarget : target? table reference.index with
      | none =>
        refine ⟨pool, .refl h, ?_⟩
        rw [List.find?_cons_of_pos (by rw [htarget]; rfl)]
        exact ⟨warnings, rfl⟩
      | some target =>
        obtain ⟨hcell, hbinding⟩ := reference?_eq_some_iff.1 hreference
        have howns := htargets reference.index target htarget
        have hbind := Points.bind h hbinding htarget howns
        have hothers : ids.filterMap (pool.bind reference.cell target).reference? = ids.filterMap pool.reference? := by
          refine List.filterMap_congr fun i hi => ?_
          have hne : i ≠ id := by
            rintro rfl
            exact hid hi
          rw [reference?_bind hreference howns, if_neg hne]
        have hself : (pool.bind reference.cell target).reference? id = none := by
          rw [reference?_bind hreference howns, if_pos rfl]
        obtain ⟨pool', hpoints, hresult⟩ := ih hrest hbind.wellBound
          (fun index t ht => let ⟨value, hvalue⟩ := htargets index t ht; ⟨value, hbind.owned hvalue⟩)
          (warnings ++ (Reference.zeroWarnings [reference]).toArray)
        rw [hothers] at hresult
        refine ⟨pool', hbind.trans hpoints, ?_⟩
        rw [List.find?_cons_of_neg (by rw [htarget]; simp)]
        split at hresult
        · exact hresult
        · refine ⟨hresult.1.trans ?_, fun i hi => ?_⟩
          · rw [Reference.zeroWarnings_cons reference (ids.filterMap _), ← List.append_toArray, Array.append_assoc]
          · rcases List.mem_cons.1 hi with rfl | hi
            · exact hpoints.reference?_eq_none hself
            · exact hresult.2 i hi

/-- What binding the references gives, if all targets own entries: it fails at the first reference that leads
nowhere, and otherwise binds all of them, with a warning for each that leads to the reserved index. -/
theorem bindReferences_spec (h : pool.WellBound)
    (htargets : ∀ index target, target? table index = some target → pool.Owns target) (warnings : Array Warning) :
    ∃ pool', Points table pool pool' ∧
      match pool.unbound.find? fun reference => (target? table reference.index).isNone with
      | some reference => ∃ warnings', bindReferences table ⟨pool, warnings⟩ =
          .error (.invalidReference reference.index) ⟨pool', warnings'⟩
      | none => bindReferences table ⟨pool, warnings⟩ =
          .ok () ⟨pool', warnings ++ (Reference.zeroWarnings pool.unbound).toArray⟩ ∧ pool'.unbound = [] := by
  have hids : (List.range pool.slots.size).Nodup := List.nodup_range
  obtain ⟨pool', hpoints, hresult⟩ := forM_bindReference hids h htargets warnings
  refine ⟨pool', hpoints, ?_⟩
  rw [unbound]
  cases hfind : (List.filterMap pool.reference? (List.range pool.slots.size)).find?
      fun reference => (target? table reference.index).isNone with
  | some reference =>
    rw [hfind] at hresult
    exact hresult
  | none =>
    rw [hfind] at hresult
    refine ⟨hresult.1, ?_⟩
    rw [unbound, hpoints.size]
    exact List.filterMap_eq_nil_iff.2 hresult.2

end Pool

end JvmAssembler
