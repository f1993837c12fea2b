import JvmAssembler.Proofs.Outcome

/-!
# What writing reports

`Emit.Reports` follows a writing together with the warnings that it reports. It is all there is to say about the
writing: what comes of it (`Reports.outcome`) and that it returns to its scope (`Reports.ensures`) follow.
-/

namespace JvmAssembler.Emit

variable {α β : Type} {pool : Pool} {scope : Scope}

/-- The writing returns to its scope, and `post` holds of what it gives and of the warnings that it reports, or it
fails for a reason that satisfies `err`. None of this depends on the warnings reported before. -/
def Reports (pool : Pool) (scope : Scope) (action : Emit α) (post : α → List Warning → Prop)
    (err : AssemblyError → Prop) : Prop :=
  ∃ (result : Except AssemblyError α) (new : List Warning),
    (∀ warnings, action pool ⟨scope, warnings⟩ = ended ⟨scope, warnings ++ new.toArray⟩ result) ∧
      match result with
      | .ok a => post a new
      | .error e => err e

namespace Reports

variable {action : Emit α} {post : α → List Warning → Prop} {err : AssemblyError → Prop}

theorem of_ok {s s' : Reported Scope} {a : α} (h : Reports pool s.state action post err)
    (ha : action pool s = .ok a s') :
    ∃ new : List Warning, s' = ⟨s.state, s.warnings ++ new.toArray⟩ ∧ post a new := by
  obtain ⟨result, new, hrun, hresult⟩ := h
  have hended := ha.symm.trans (hrun s.warnings)
  cases result with
  | ok b =>
    obtain ⟨rfl, hs⟩ := EStateM.Result.ok.inj hended
    exact ⟨new, hs, hresult⟩
  | error e => cases hended

theorem outcome {ok : α → Prop} (h : Reports pool scope action post err) (hok : ∀ a new, post a new → ok a) :
    Outcome pool scope action ok err := by
  obtain ⟨result, new, hrun, hresult⟩ := h
  refine ⟨result, fun warnings => ⟨_, hrun warnings⟩, ?_⟩
  cases result with
  | ok a => exact hok a new hresult
  | error e => exact hresult

theorem ensures {ok : α → Prop} (h : Reports pool scope action post err) (hok : ∀ a new, post a new → ok a) :
    Ensures pool scope action ok := by
  obtain ⟨result, new, hrun, hresult⟩ := h
  intro warnings
  rw [hrun]
  cases result with
  | ok a => exact ⟨rfl, hok a new hresult⟩
  | error e => rfl

theorem mono {post' : α → List Warning → Prop} {err' : AssemblyError → Prop} (h : Reports pool scope action post err)
    (hpost : ∀ a new, post a new → post' a new) (herr : ∀ e, err e → err' e) :
    Reports pool scope action post' err' := by
  obtain ⟨result, new, hrun, hresult⟩ := h
  refine ⟨result, new, hrun, ?_⟩
  cases result with
  | ok a => exact hpost a new hresult
  | error e => exact herr e hresult

theorem imp {post' : α → List Warning → Prop} (h : Reports pool scope action post err)
    (hpost : ∀ a new, post a new → post' a new) : Reports pool scope action post' err :=
  h.mono hpost fun _ he => he

theorem pure {a : α} (h : post a []) : Reports pool scope (Pure.pure a) post err :=
  ⟨.ok a, [], fun warnings => by rw [Array.append_empty]; rfl, h⟩

theorem throw {e : AssemblyError} (h : err e) : Reports pool scope (throw e) post err :=
  ⟨.error e, [], fun warnings => by rw [Array.append_empty]; rfl, h⟩

theorem bind {next : α → Emit β} {mid : α → List Warning → Prop} {post : β → List Warning → Prop}
    (ha : Reports pool scope action mid err)
    (hnext : ∀ a new, mid a new → Reports pool scope (next a) (fun b more => post b (new ++ more)) err) :
    Reports pool scope (action >>= next) post err := by
  obtain ⟨result, new, hrun, hresult⟩ := ha
  have hstep : ∀ warnings, (action >>= next) pool ⟨scope, warnings⟩ =
      EStateM.bind (action pool) (fun a => next a pool) ⟨scope, warnings⟩ := fun _ => rfl
  cases result with
  | error e =>
    refine ⟨.error e, new, fun warnings => ?_, hresult⟩
    rw [hstep, EStateM.bind, hrun]
    rfl
  | ok a =>
    obtain ⟨last, more, hlast, hpost⟩ := hnext a new hresult
    refine ⟨last, new ++ more, fun warnings => ?_, hpost⟩
    rw [hstep, EStateM.bind, hrun]
    show next a pool ⟨scope, warnings ++ new.toArray⟩ = _
    have hnew : warnings ++ new.toArray ++ more.toArray = warnings ++ (new ++ more).toArray := by
      simp [Array.append_assoc]
    rw [hlast, hnew]

/-- What follows a writing that reports nothing. -/
theorem bind_quiet {next : α → Emit β} {mid : α → Prop} {post : β → List Warning → Prop}
    (ha : Reports pool scope action (fun a new => new = [] ∧ mid a) err)
    (hnext : ∀ a, mid a → Reports pool scope (next a) post err) : Reports pool scope (action >>= next) post err := by
  refine ha.bind fun a new ⟨hnew, hmid⟩ => ?_
  subst hnew
  exact hnext a hmid

theorem read : Reports pool scope (MonadReader.read : Emit Pool) (fun found new => new = [] ∧ found = pool) err :=
  ⟨.ok pool, [], fun warnings => by rw [Array.append_empty]; rfl, rfl, rfl⟩

theorem methodName :
    Reports pool scope Emit.methodName (fun name new => new = [] ∧ name = scope.method.getD "") err :=
  ⟨.ok (scope.method.getD ""), [], fun warnings => by rw [Array.append_empty]; rfl, rfl, rfl⟩

theorem warn {warning : Warning} : Reports pool scope (Emit.warn warning) (fun _ new => new = [warning]) err :=
  ⟨.ok (), [warning], fun warnings => by rw [← Array.push_eq_append]; rfl, rfl⟩

theorem ofExcept {result : Except AssemblyError α} (herr : ∀ e, result = .error e → err e) :
    Reports pool scope (Emit.ofExcept result) (fun a new => new = [] ∧ result = .ok a) err := by
  cases result with
  | ok a => exact pure ⟨rfl, rfl⟩
  | error e => exact throw (herr e rfl)

theorem labelPc {label : Label} (herr : ∀ e, scope.pcOf label = .error e → err e) :
    Reports pool scope (Emit.labelPc label) (fun pc new => new = [] ∧ scope.pcOf label = .ok pc) err := by
  obtain ⟨method, code⟩ := scope
  cases code with
  | none => exact (throw (herr _ rfl) : Reports pool _ (MonadExcept.throw _) _ err)
  | some layout => exact (ofExcept herr : Reports pool _ (Emit.ofExcept (layout.pcOf label)) _ err)

/-- Items that report nothing, one after the other. -/
theorem each {items : List α} {item : α → Emit Bytes} {post : α → Bytes → Prop}
    (h : ∀ a ∈ items, Reports pool scope (item a) (fun bytes new => new = [] ∧ post a bytes) err) :
    Reports pool scope (Emit.each items item)
      (fun bytes new => new = [] ∧ ∃ parts, bytes = parts.flatten ∧ List.Forall₂ post items parts) err := by
  have hmapM : Reports pool scope (items.mapM item)
      (fun parts new => new = [] ∧ List.Forall₂ post items parts) err := by
    induction items with
    | nil => exact pure ⟨rfl, .nil⟩
    | cons a items ih =>
      rw [List.mapM_cons]
      refine bind_quiet (h a (by simp)) fun b hb => ?_
      refine bind_quiet (ih fun x hx => h x (by simp [hx])) fun bs hbs => ?_
      exact pure ⟨rfl, .cons hb hbs⟩
  exact bind_quiet hmapM fun parts hparts => pure ⟨rfl, parts, rfl, hparts⟩

end Reports

end JvmAssembler.Emit
