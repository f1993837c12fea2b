import JvmAssembler.Proofs.Check
import Mathlib.Data.List.Induction

/-!
# Layouts are never stale

A body keeps its layout until an instruction is added or a label is placed. Everything else that may be called on it
only makes labels (`Body.Widens`), and labels that are made later stand nowhere. So laying out the code again would
find the same layout (`Body.Widens.computeLayout`), and code can be written exactly if it was laid out since it last
changed (`Body.layout_isSome_iff`).
-/

namespace JvmAssembler

namespace Body

variable {body body' body'' : Body}

/-- The body that calls make from the empty one. -/
def made (ops : List BodyOp) : Body := ops.foldl BodyOp.apply {}

theorem made_append (ops more : List BodyOp) : made (ops ++ more) = more.foldl BodyOp.apply (made ops) := by
  rw [made, List.foldl_append, made]

theorem made_concat (ops : List BodyOp) (op : BodyOp) : made (ops ++ [op]) = op.apply (made ops) :=
  made_append ops [op]

/-! ### Calls that change no place -/

/-- The instructions are the same, and there may be more labels. -/
structure Widens (body body' : Body) : Prop where
  instructions : body'.instructions = body.instructions
  labels : ∃ added, body'.labels.infos = body.labels.infos ++ added

theorem Widens.refl (body : Body) : Widens body body := ⟨rfl, #[], Array.append_empty.symm⟩

theorem Widens.trans (h : Widens body body') (h' : Widens body' body'') : Widens body body'' := by
  obtain ⟨added, hadded⟩ := h.labels
  obtain ⟨added', hadded'⟩ := h'.labels
  exact ⟨h'.instructions.trans h.instructions, added ++ added', by rw [hadded', hadded, Array.append_assoc]⟩

theorem widens_apply {op : BodyOp} (hop : op.isChange = false) : Widens body (op.apply body) := by
  cases op with
  | push instruction => cases hop
  | place target => cases hop
  | label name =>
    refine ⟨rfl, ?_⟩
    simp only [BodyOp.apply, label, LabelTable.named]
    split
    · exact ⟨#[], Array.append_empty.symm⟩
    · exact ⟨#[{ name }], Array.push_eq_append⟩
  | freshLabel => exact ⟨rfl, #[_], Array.push_eq_append⟩
  | layOut method =>
    simp only [BodyOp.apply]
    split
    · rename_i laid hlaid
      obtain ⟨layout, rfl, -⟩ := layOut_spec hlaid
      exact ⟨rfl, #[], Array.append_empty.symm⟩
    · exact .refl body

theorem widens_foldl {ops : List BodyOp} (hops : ∀ op ∈ ops, op.isChange = false) (body : Body) :
    Widens body (ops.foldl BodyOp.apply body) := by
  induction ops generalizing body with
  | nil => exact .refl body
  | cons op ops ih =>
    have hstep : Widens body (op.apply body) := widens_apply (hops op (by simp))
    exact hstep.trans (ih (fun other hother => hops other (by simp [hother])) (op.apply body))

/-- Labels that are made later have no part in where the others stand. -/
theorem Widens.pcOf_eq (h : Widens body body') {layout : Layout} {label : Label}
    (hlabels : layout.labels = labelPlaces body.labels layout.starts layout.length)
    (hlabel : label.id < body.labels.size) :
    Layout.pcOf { layout with labels := labelPlaces body'.labels layout.starts layout.length } label =
      layout.pcOf label := by
  obtain ⟨added, hadded⟩ := h.labels
  have hsame : (labelPlaces body'.labels layout.starts layout.length)[label.id]? = layout.labels[label.id]? := by
    rw [hlabels, labelPlaces, labelPlaces, Array.getElem?_map, Array.getElem?_map, hadded,
      Array.getElem?_append_left hlabel]
  rw [Layout.pcOf, Layout.pcOf, hsame]

theorem size_labels {layout : Layout} (hlabels : layout.labels = labelPlaces body.labels layout.starts layout.length) :
    layout.labels.size = body.labels.size := by
  rw [hlabels, labelPlaces, Array.size_map]
  rfl

theorem lt_of_pcOf {layout : Layout} {label : Label} {pc : Nat}
    (hlabels : layout.labels = labelPlaces body.labels layout.starts layout.length)
    (hpc : layout.pcOf label = .ok pc) : label.id < body.labels.size := by
  by_contra hle
  have hnone : layout.labels[label.id]? = none := by
    rw [Array.getElem?_eq_none_iff, size_labels hlabels]
    exact Nat.le_of_not_lt hle
  rw [Layout.pcOf, hnone] at hpc
  cases hpc

/-- Code that could be laid out can be laid out again after more labels were made, and finds the same places. -/
theorem Widens.computeLayout (h : Widens body body') {method : String} {layout : Layout}
    (hlayout : body.computeLayout method = .ok layout) (name : String) :
    body'.computeLayout name =
      .ok { layout with labels := labelPlaces body'.labels layout.starts layout.length } := by
  obtain ⟨hlaid, hlabels, htargets⟩ := computeLayout_eq_ok_iff.1 hlayout
  refine computeLayout_eq_ok_iff.2 ⟨?_, rfl, fun instruction hinstruction target htarget => ?_⟩
  · rw [h.instructions]
    exact hlaid
  · rw [h.instructions] at hinstruction
    obtain ⟨pc, hpc⟩ := htargets instruction hinstruction target htarget
    exact ⟨pc, by rw [h.pcOf_eq hlabels (lt_of_pcOf hlabels hpc), hpc]⟩

/-! ### Where a layout comes from -/

theorem layOut_eq_ok_iff {method : String} {layout : Layout} :
    body.layOut method = .ok { body with layout := some layout } ↔ body.computeLayout method = .ok layout := by
  constructor
  · intro h
    obtain ⟨found, heq, hfound⟩ := layOut_spec h
    obtain rfl : layout = found := by simpa using heq
    exact hfound
  · intro h
    rw [layOut, h]
    rfl

/-- One of the calls has laid out the code, with this layout, and no place has changed since. -/
structure LaidOutBy (ops before rest : List BodyOp) (method : String) (layout : Layout) : Prop where
  ops_eq : ops = before ++ .layOut method :: rest
  layOut : (made before).layOut method = .ok { made before with layout := some layout }
  kept : ∀ op ∈ rest, op.isChange = false

/-- The layout that a body keeps is the one of a call that laid it out, after which no place has changed. -/
theorem exists_laidOutBy {ops : List BodyOp} {layout : Layout} (h : (made ops).layout = some layout) :
    ∃ before rest method, LaidOutBy ops before rest method layout := by
  induction ops using List.reverseRecOn with
  | nil => cases h
  | append_singleton ops op ih =>
    rw [made_concat] at h
    rcases layout_apply (made ops) op with ⟨-, hnone⟩ | ⟨-, hop, hkept | ⟨method, found, rfl, hfound, hnew⟩⟩
    · cases hnone.symm.trans h
    · obtain ⟨before, rest, method, rfl, hfound, hrest⟩ := ih (hkept.symm.trans h)
      refine ⟨before, rest ++ [op], method, by simp, hfound, fun other hother => ?_⟩
      rcases List.mem_append.1 hother with hother | hother
      · exact hrest other hother
      · obtain rfl := List.mem_singleton.1 hother
        exact hop
    · obtain rfl := Option.some.inj (hnew.symm.trans h)
      exact ⟨ops, [], method, rfl, layOut_eq_ok_iff.2 hfound, by simp⟩

theorem layout_isSome_foldl {ops : List BodyOp} (hops : ∀ op ∈ ops, op.isChange = false)
    (h : body.layout.isSome = true) : (ops.foldl BodyOp.apply body).layout.isSome = true := by
  induction ops generalizing body with
  | nil => exact h
  | cons op ops ih =>
    refine ih (fun other hother => hops other (by simp [hother])) ?_
    rcases layout_apply body op with ⟨hop, -⟩ | ⟨-, -, hkept | ⟨method, layout, -, -, hnew⟩⟩
    · cases (hops op (by simp)).symm.trans hop
    · rw [hkept]
      exact h
    · rw [hnew]
      rfl

/-- A body has a layout exactly if it was laid out since the last change of a place. -/
theorem layout_isSome_iff {ops : List BodyOp} :
    (made ops).layout.isSome = true ↔ ∃ before rest method layout, LaidOutBy ops before rest method layout := by
  constructor
  · intro h
    obtain ⟨layout, hlayout⟩ := Option.isSome_iff_exists.1 h
    obtain ⟨before, rest, method, hlaid⟩ := exists_laidOutBy hlayout
    exact ⟨before, rest, method, layout, hlaid⟩
  · rintro ⟨before, rest, method, layout, rfl, hlayout, hrest⟩
    rw [made_append, List.foldl_cons]
    refine layout_isSome_foldl hrest ?_
    simp only [BodyOp.apply, hlayout]
    rfl

/-- Writing code says that it is not laid out exactly if it has no layout. -/
theorem emit_codeNotLaidOut_iff {pool : Pool} {s : Reported Scope} :
    (∃ s', body.emit pool s = .error .codeNotLaidOut s') ↔ body.layout = none := by
  constructor
  · rintro ⟨s', hrun⟩
    have herror : Emit.error? body.emit pool s = some .codeNotLaidOut := by rw [Emit.error?, hrun]
    rcases error?_emit herror with ⟨hnone, -⟩ | ⟨layout, -, item, -, hfailure⟩
    · exact hnone
    · -- No instruction fails for this reason.
      cases hfailure with
      | label _ hpc => rcases Scope.pcOf_error hpc with ⟨name, heq⟩ | heq <;> cases heq
  · intro hnone
    exact ⟨s, by rw [emit, hnone]; rfl⟩

/-- Whatever calls make a body: if it keeps a layout, this is the one that a call has computed, and laying out the code
again, under any name, finds the same places, those of the labels included that there were at that call. Writing the
code says that it is not laid out exactly if no call has laid it out since a place was last changed. -/
theorem layOut_of_made (ops : List BodyOp) :
    (∀ layout, (made ops).layout = some layout → ∃ before rest method, LaidOutBy ops before rest method layout ∧
      ∀ name, ∃ fresh, (made ops).layOut name = .ok { made ops with layout := some fresh } ∧
        fresh.starts = layout.starts ∧ fresh.length = layout.length ∧
        ∀ label : Label, label.id < (made before).labels.size → fresh.pcOf label = layout.pcOf label) ∧
    ∀ pool s, (∃ s', (made ops).emit pool s = .error .codeNotLaidOut s') ↔
      ¬ ∃ before rest method layout, LaidOutBy ops before rest method layout := by
  constructor
  · intro layout hlayout
    obtain ⟨before, rest, method, hby⟩ := exists_laidOutBy hlayout
    refine ⟨before, rest, method, hby, fun name => ?_⟩
    have hfound := layOut_eq_ok_iff.1 hby.layOut
    have hwidens : Widens (made before) (made ops) := by
      rw [hby.ops_eq, made_append, List.foldl_cons]
      exact (widens_apply rfl).trans (widens_foldl hby.kept _)
    exact ⟨_, layOut_eq_ok_iff.2 (hwidens.computeLayout hfound name), rfl, rfl,
      fun label hlabel => hwidens.pcOf_eq (computeLayout_spec hfound).2 hlabel⟩
  · intro pool s
    rw [emit_codeNotLaidOut_iff, ← layout_isSome_iff, Option.not_isSome_iff_eq_none]

/-- A jump to its own end is laid out, and then a label is made. -/
private def labelledLater : List BodyOp :=
  [.freshLabel, .push { opcode := .standard 0xA7, operand := .label ⟨0⟩ }, .place ⟨0⟩, .layOut "jump", .freshLabel]

/-- The layout that is kept knows nothing of the second label, and the first one stands where it says. To place a label
once more fails, and still drops the layout. -/
theorem layOut_of_made_labelledLater :
    (∃ fresh, (made labelledLater).layOut "again" = .ok { made labelledLater with layout := some fresh } ∧
      fresh.starts = #[0] ∧ fresh.length = 3 ∧ fresh.pcOf ⟨0⟩ = .ok 3) ∧
    (made labelledLater).layout = some ⟨#[0], #[⟨"l0", some 3⟩], 3⟩ ∧ (made labelledLater).labels.size = 2 ∧
    ∃ s', (made (labelledLater ++ [.place ⟨0⟩])).emit .empty ⟨{}, #[]⟩ = .error .codeNotLaidOut s' := by
  have hlayout : (made labelledLater).layout = some ⟨#[0], #[⟨"l0", some 3⟩], 3⟩ := by decide +kernel
  obtain ⟨before, rest, method, hby, hagain⟩ := (layOut_of_made labelledLater).1 _ hlayout
  obtain ⟨fresh, hfresh, hstarts, hlength, hpcs⟩ := hagain "again"
  have hsize : 1 = (made before).labels.size := size_labels (computeLayout_spec (layOut_eq_ok_iff.1 hby.layOut)).2
  have hdropped : (made (labelledLater ++ [.place ⟨0⟩])).layout.isSome = false := by decide +kernel
  refine ⟨⟨fresh, hfresh, hstarts, hlength, hpcs ⟨0⟩ (by simp [← hsize])⟩, hlayout, by decide +kernel, ?_⟩
  rw [(layOut_of_made _).2, ← layout_isSome_iff, hdropped]
  exact Bool.false_ne_true

end Body

end JvmAssembler
