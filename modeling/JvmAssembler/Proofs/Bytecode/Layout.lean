import JvmAssembler.Bytecode.Body

/-!
# Where instructions start

`Body.Laid pc instructions starts stop` says that the instructions, the first of them at `pc`, start at `starts`
and end at `stop`: each start is the one before plus the length of the instruction there. Laying out code
finds these numbers (`Body.computeLayout_spec`), and the layout that a body keeps is always a layout of its
instructions (`Body.Built.current`).
-/

namespace JvmAssembler

namespace Body

/-- The instructions, from a program counter on, start at the numbers given and end at `stop`. -/
inductive Laid : (pc : Nat) → List Instruction → (starts : List Nat) → (stop : Nat) → Prop where
  | nil {pc : Nat} : Laid pc [] [] pc
  | cons {pc n stop : Nat} {instruction : Instruction} {rest : List Instruction} {starts : List Nat} :
      instruction.length pc = .ok n → pc + n ≤ maxLength → Laid (pc + n) rest starts stop →
      Laid pc (instruction :: rest) (pc :: starts) stop

theorem Laid.length_eq {pc stop : Nat} {instructions : List Instruction} {starts : List Nat}
    (h : Laid pc instructions starts stop) : starts.length = instructions.length := by
  induction h with
  | nil => rfl
  | cons _ _ _ ih => rw [List.length_cons, List.length_cons, ih]

/-- No instruction reaches behind the longest code. -/
theorem Laid.add_length_le {pc stop : Nat} {instructions : List Instruction} {starts : List Nat}
    (h : Laid pc instructions starts stop) {item : Instruction × Nat} (hitem : item ∈ instructions.zip starts) {n : Nat}
    (hn : item.1.length item.2 = .ok n) : item.2 + n ≤ maxLength := by
  induction h with
  | nil => cases hitem
  | cons hlength hle _ ih =>
    rw [List.zip_cons_cons, List.mem_cons] at hitem
    rcases hitem with rfl | hitem
    · obtain rfl := Except.ok.inj (hlength.symm.trans hn)
      exact hle
    · exact ih hitem

theorem Laid.le_maxLength {pc stop : Nat} {instructions : List Instruction} {starts : List Nat}
    (h : Laid pc instructions starts stop) (hpc : pc ≤ maxLength) :
    stop ≤ maxLength ∧ ∀ start ∈ starts, start ≤ maxLength := by
  induction h with
  | nil => exact ⟨hpc, fun start hstart => by cases hstart⟩
  | cons _ hle _ ih =>
    obtain ⟨hstop, hstarts⟩ := ih hle
    refine ⟨hstop, fun start hstart => ?_⟩
    rcases List.mem_cons.1 hstart with rfl | hstart
    · exact hpc
    · exact hstarts start hstart

theorem starts_eq_ok_iff {method : String} {instructions : List Instruction} {before found : Array Nat}
    {pc stop : Nat} :
    Body.starts method before pc instructions = .ok (found, stop) ↔
      ∃ starts, found = before ++ starts.toArray ∧ Laid pc instructions starts stop := by
  induction instructions generalizing before pc with
  | nil =>
    constructor
    · intro h
      obtain ⟨rfl, rfl⟩ := Prod.mk.inj (Except.ok.inj h)
      exact ⟨[], by simp, .nil⟩
    · rintro ⟨starts, rfl, h⟩
      cases h
      simp [Body.starts]
  | cons instruction rest ih =>
    unfold Body.starts
    cases hlength : instruction.length pc with
    | error e =>
      simp only
      constructor
      · intro h
        cases h
      · rintro ⟨starts, _, h⟩
        cases h with
        | cons hn _ _ => rw [hlength] at hn; cases hn
    | ok n =>
      -- The length limit lies above the longest code, so a sum that is cut there is refused as well.
      have hmin : ¬ maxLength < min (pc + n) lengthLimit ↔ pc + n ≤ maxLength := by
        unfold maxLength lengthLimit
        omega
      simp only
      constructor
      · intro h
        split at h
        · cases h
        · rename_i hfits
          have hle := hmin.1 hfits
          have hnext : min (pc + n) lengthLimit = pc + n := by
            unfold maxLength at hle
            unfold lengthLimit
            omega
          rw [hnext, ih] at h
          obtain ⟨starts, rfl, hrest⟩ := h
          exact ⟨pc :: starts, by simp, .cons hlength hle hrest⟩
      · rintro ⟨starts, rfl, h⟩
        cases h with
        | @cons _ m _ _ _ starts hm hle hrest =>
          obtain rfl : n = m := by rw [hlength] at hm; exact Except.ok.inj hm
          have hnext : min (pc + n) lengthLimit = pc + n := by
            unfold maxLength at hle
            unfold lengthLimit
            omega
          rw [if_neg (hmin.2 hle), hnext, ih]
          exact ⟨starts, by simp, hrest⟩

private theorem forM_eq_ok_iff {α : Type} {f : α → Except AssemblyError Unit} {items : List α} :
    items.forM f = .ok () ↔ ∀ a ∈ items, f a = .ok () := by
  induction items with
  | nil => exact ⟨fun _ => by simp, fun _ => rfl⟩
  | cons first items ih =>
    have hcons : (first :: items).forM f = (f first >>= fun _ => items.forM f) := rfl
    rw [hcons, List.forall_mem_cons, ← ih]
    cases f first <;> simp [bind, Except.bind]

/-- Whether every label that an instruction goes to has a program counter. -/
private theorem forM_targets_iff {instructions : List Instruction} {layout : Layout} :
    (instructions.forM fun instruction => instruction.targets.forM fun target => do
        let _ ← layout.pcOf target) = .ok () ↔
      ∀ instruction ∈ instructions, ∀ target ∈ instruction.targets, ∃ pc, layout.pcOf target = .ok pc := by
  have htarget : ∀ target : Label,
      (do let _ ← layout.pcOf target : Except AssemblyError Unit) = .ok () ↔ ∃ pc, layout.pcOf target = .ok pc := by
    intro target
    cases layout.pcOf target <;> simp [bind, Except.bind, pure, Except.pure]
  simp only [forM_eq_ok_iff, htarget]

/-- When laying out code succeeds, and what it finds then. The name of the method has no part in this. -/
theorem computeLayout_eq_ok_iff {body : Body} {method : String} {layout : Layout} :
    body.computeLayout method = .ok layout ↔
      Laid 0 body.instructions.toList layout.starts.toList layout.length ∧
      layout.labels = labelPlaces body.labels layout.starts layout.length ∧
      ∀ instruction ∈ body.instructions.toList, ∀ target ∈ instruction.targets,
        ∃ pc, layout.pcOf target = .ok pc := by
  rw [← forM_targets_iff]
  unfold computeLayout
  constructor
  · intro h
    cases hstarts : Body.starts method #[] 0 body.instructions.toList with
    | error e =>
      rw [hstarts] at h
      cases h
    | ok found =>
      obtain ⟨pcs, hpcs, hlaid⟩ := starts_eq_ok_iff.1 hstarts
      rw [hstarts] at h
      simp only [bind, Except.bind] at h
      split at h
      · cases h
      · rename_i htargets
        obtain rfl := Except.ok.inj h
        exact ⟨by simpa [hpcs] using hlaid, rfl, htargets⟩
  · rintro ⟨hlaid, hlabels, htargets⟩
    have hstarts : Body.starts method #[] 0 body.instructions.toList = .ok (layout.starts, layout.length) :=
      starts_eq_ok_iff.2 ⟨_, by simp, hlaid⟩
    obtain ⟨starts, labels, length⟩ := layout
    obtain rfl : labels = labelPlaces body.labels starts length := hlabels
    rw [hstarts]
    simp only [bind, Except.bind] at htargets ⊢
    rw [htargets]
    rfl

/-- What laying out code finds. -/
theorem computeLayout_spec {body : Body} {method : String} {layout : Layout}
    (h : body.computeLayout method = .ok layout) :
    Laid 0 body.instructions.toList layout.starts.toList layout.length ∧
      layout.labels = labelPlaces body.labels layout.starts layout.length := by
  obtain ⟨hlaid, hlabels, -⟩ := computeLayout_eq_ok_iff.1 h
  exact ⟨hlaid, hlabels⟩

/-- Labels stand inside of the code or at its end. -/
theorem pcOf_le_of_computeLayout {body : Body} {method : String} {layout : Layout}
    (h : body.computeLayout method = .ok layout) {label : Label} {pc : Nat} (hpc : layout.pcOf label = .ok pc) :
    pc ≤ maxLength := by
  obtain ⟨hlaid, hlabels⟩ := computeLayout_spec h
  obtain ⟨hlength, hstarts⟩ := hlaid.le_maxLength (Nat.zero_le _)
  have hplace : ∀ instruction : Nat, layout.starts[instruction]?.getD layout.length ≤ maxLength := by
    intro instruction
    cases hstart : layout.starts[instruction]? with
    | none => exact hlength
    | some start => exact hstarts start (Array.mem_toList_iff.2 (Array.mem_of_getElem? hstart))
  rw [Layout.pcOf, hlabels, labelPlaces, Array.getElem?_map] at hpc
  cases hinfo : body.labels.infos[label.id]? with
  | none =>
    rw [hinfo] at hpc
    cases hpc
  | some info =>
    rw [hinfo] at hpc
    cases hplaced : info.placement with
    | none => simp [hplaced] at hpc
    | some instruction =>
      simp only [Option.map_some, hplaced] at hpc
      obtain rfl := Except.ok.inj hpc
      exact hplace instruction

/-- Laying out code changes its layout only. -/
theorem layOut_spec {body laid : Body} {method : String} (h : body.layOut method = .ok laid) :
    ∃ layout, laid = { body with layout := some layout } ∧ body.computeLayout method = .ok layout := by
  unfold layOut at h
  cases hlayout : body.computeLayout method with
  | error e =>
    rw [hlayout] at h
    cases h
  | ok layout =>
    rw [hlayout] at h
    exact ⟨layout, (Except.ok.inj h).symm, rfl⟩

end Body

/-- Laying out some code gives this layout. -/
def Layout.Computed (layout : Layout) : Prop :=
  ∃ (body : Body) (method : String), body.computeLayout method = .ok layout

/-! ### Bodies that are built step by step -/

/-- One call on a body. -/
inductive BodyOp where
  | push (instruction : Instruction)
  | label (name : String)
  | freshLabel
  | place (target : Label)
  | layOut (method : String)

/-- The body after a call, which may have failed. -/
def BodyOp.apply (body : Body) : BodyOp → Body
  | .push instruction => body.push instruction
  | .label name => (body.label name).2
  | .freshLabel => body.freshLabel.2
  | .place target =>
    match Body.place target body with
    | .ok _ body | .error _ body => body
  | .layOut method =>
    match body.layOut method with
    | .ok body => body
    | .error _ => body

/-- Whether a call may change where the instructions and the labels stand. -/
def BodyOp.isChange : BodyOp → Bool
  | .push _ | .place _ => true
  | .label _ | .freshLabel | .layOut _ => false

namespace Body

/-- A body that calls make from the empty one. -/
def Built (body : Body) : Prop := ∃ ops : List BodyOp, ops.foldl BodyOp.apply {} = body

/-- The layout that a body keeps is a layout of its instructions. -/
def Current (body : Body) : Prop :=
  ∀ layout, body.layout = some layout →
    Laid 0 body.instructions.toList layout.starts.toList layout.length

/-- What a call does to the layout of a body: a change drops it, and everything else keeps it or has just computed
it, for the same instructions. -/
theorem layout_apply (body : Body) (op : BodyOp) :
    op.isChange = true ∧ (op.apply body).layout = none ∨
      (op.apply body).instructions = body.instructions ∧ op.isChange = false ∧
        ((op.apply body).layout = body.layout ∨ ∃ method layout, op = .layOut method ∧
          body.computeLayout method = .ok layout ∧ (op.apply body).layout = some layout) := by
  cases op with
  | push instruction => exact .inl ⟨rfl, rfl⟩
  | label name => exact .inr ⟨rfl, rfl, .inl rfl⟩
  | freshLabel => exact .inr ⟨rfl, rfl, .inl rfl⟩
  | place target =>
    -- Placing a label drops the layout, whether the label can be placed or not.
    refine .inl ⟨rfl, ?_⟩
    simp only [BodyOp.apply, place]
    cases LabelTable.place target body.instructions.size body.labels <;> rfl
  | layOut method =>
    simp only [BodyOp.apply]
    cases hlaid : body.layOut method with
    | error e => exact .inr ⟨rfl, rfl, .inl rfl⟩
    | ok laid =>
      obtain ⟨layout, rfl, hlayout⟩ := layOut_spec hlaid
      exact .inr ⟨rfl, rfl, .inr ⟨method, layout, rfl, hlayout, rfl⟩⟩

theorem Built.induction {motive : Body → Prop} (empty : motive {})
    (step : ∀ (body : Body) (op : BodyOp), motive body → motive (op.apply body)) {body : Body} (h : body.Built) :
    motive body := by
  obtain ⟨ops, rfl⟩ := h
  suffices ∀ start : Body, motive start → motive (ops.foldl BodyOp.apply start) from this {} empty
  induction ops with
  | nil => exact fun _ h => h
  | cons op rest ih => exact fun start h => ih _ (step start op h)

theorem current_apply {body : Body} (h : body.Current) (op : BodyOp) : (op.apply body).Current := by
  intro layout hlayout
  rcases layout_apply body op with ⟨-, hnone⟩ | ⟨hsame, -, hkept | ⟨method, found, -, hfound, hnew⟩⟩
  · cases hnone.symm.trans hlayout
  · rw [hsame]
    exact h layout (hkept.symm.trans hlayout)
  · obtain rfl := Option.some.inj (hnew.symm.trans hlayout)
    rw [hsame]
    exact (computeLayout_spec hfound).1

theorem Built.current {body : Body} (h : body.Built) : body.Current :=
  h.induction (motive := Current) (fun _ hlayout => by cases hlayout) fun _ op h => current_apply h op

/-- The layout that a body keeps was computed, if not from the labels that it has now. -/
theorem Built.computed {body : Body} (h : body.Built) : ∀ layout, body.layout = some layout → layout.Computed := by
  refine h.induction (motive := fun body => ∀ layout, body.layout = some layout → layout.Computed)
    (fun _ hlayout => by cases hlayout) fun body op ih layout hlayout => ?_
  rcases layout_apply body op with ⟨-, hnone⟩ | ⟨-, -, hkept | ⟨method, found, -, hfound, hnew⟩⟩
  · cases hnone.symm.trans hlayout
  · exact ih layout (hkept.symm.trans hlayout)
  · obtain rfl := Option.some.inj (hnew.symm.trans hlayout)
    exact ⟨body, method, hfound⟩

end Body

end JvmAssembler
