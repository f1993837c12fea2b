import JvmAssembler.Proofs.Emission

/-!
# What comes of writing

Whether a writing succeeds, what it gives and why it fails does not depend on the warnings reported before it.
`Emit.Yields pool scope action result` says that `action`, run in `scope`, has this result and returns to its
scope; `Emit.Outcome` is a rule book for it, with one condition for success and one for failure.
-/

namespace JvmAssembler

/-- The program counter of a label of the code that is being written. -/
def Scope.pcOf (scope : Scope) (label : Label) : Except AssemblyError Nat :=
  match scope.code with
  | some layout => layout.pcOf label
  | none => .error (.labelOutsideCode label)

namespace Emit

variable {α β : Type} {pool : Pool} {scope : Scope}

/-- A result, with the state that is left behind. -/
def ended (s : Reported Scope) : Except AssemblyError α → EStateM.Result AssemblyError (Reported Scope) α
  | .ok a => .ok a s
  | .error e => .error e s

/-- The writing has this result whatever was reported before it, and returns to its scope. -/
def Yields (pool : Pool) (scope : Scope) (action : Emit α) (result : Except AssemblyError α) : Prop :=
  ∀ warnings, ∃ after, action pool ⟨scope, warnings⟩ = ended ⟨scope, after⟩ result

/-- Why a writing fails, if it does. -/
def error? (action : Emit α) (pool : Pool) (s : Reported Scope) : Option AssemblyError :=
  match action pool s with
  | .ok _ _ => none
  | .error e _ => some e

namespace Yields

variable {action : Emit α} {next : α → Emit β} {result : Except AssemblyError β}

theorem bind_ok {a : α} (h : Yields pool scope action (.ok a)) (hnext : Yields pool scope (next a) result) :
    Yields pool scope (action >>= next) result := by
  intro warnings
  obtain ⟨mid, hmid⟩ := h warnings
  obtain ⟨after, hafter⟩ := hnext mid
  refine ⟨after, ?_⟩
  show EStateM.bind (action pool) (fun a => next a pool) ⟨scope, warnings⟩ = _
  rw [EStateM.bind, hmid]
  exact hafter

theorem bind_error {e : AssemblyError} (h : Yields pool scope action (.error e)) :
    Yields pool scope (action >>= next) (.error e) := by
  intro warnings
  obtain ⟨mid, hmid⟩ := h warnings
  refine ⟨mid, ?_⟩
  show EStateM.bind (action pool) (fun a => next a pool) ⟨scope, warnings⟩ = _
  rw [EStateM.bind, hmid]
  rfl

theorem error?_eq {result : Except AssemblyError α} (h : Yields pool scope action result) (warnings : Array Warning) :
    error? action pool ⟨scope, warnings⟩ = match result with
      | .ok _ => none
      | .error e => some e := by
  obtain ⟨after, hafter⟩ := h warnings
  rw [error?, hafter]
  cases result <;> rfl

theorem value?_eq {result : Except AssemblyError α} (h : Yields pool scope action result) (warnings : Array Warning) :
    value? action pool ⟨scope, warnings⟩ = result.toOption := by
  obtain ⟨after, hafter⟩ := h warnings
  rw [value?, hafter]
  cases result <;> rfl

/-- Returning to the scope outside. -/
theorem inCode {layout : Layout} {result : Except AssemblyError α}
    (h : Yields pool { scope with code := some layout } action result) :
    Yields pool scope (Emit.inCode layout action) result := by
  intro warnings
  obtain ⟨after, hafter⟩ := h warnings
  refine ⟨after, ?_⟩
  rw [Emit.inCode]
  simp only [hafter]
  cases result <;> rfl

theorem inMethod {name : String} {result : Except AssemblyError α}
    (h : Yields pool { scope with method := some name } action result) :
    Yields pool scope (Emit.inMethod name action) result := by
  intro warnings
  obtain ⟨after, hafter⟩ := h warnings
  refine ⟨after, ?_⟩
  rw [Emit.inMethod]
  simp only [hafter]
  cases result <;> rfl

end Yields

/-- The writing gives what satisfies `ok`, or fails for a reason that satisfies `err`. -/
def Outcome (pool : Pool) (scope : Scope) (action : Emit α) (ok : α → Prop) (err : AssemblyError → Prop) : Prop :=
  ∃ result, Yields pool scope action result ∧ match result with
    | .ok a => ok a
    | .error e => err e

namespace Outcome

variable {ok : α → Prop} {post : β → Prop} {err : AssemblyError → Prop}

theorem mono {action : Emit α} {ok' : α → Prop} {err' : AssemblyError → Prop} (h : Outcome pool scope action ok err)
    (hok : ∀ a, ok a → ok' a) (herr : ∀ e, err e → err' e) : Outcome pool scope action ok' err' := by
  obtain ⟨result, hyields, hresult⟩ := h
  refine ⟨result, hyields, ?_⟩
  cases result with
  | ok a => exact hok a hresult
  | error e => exact herr e hresult

theorem pure {a : α} (h : ok a) : Outcome pool scope (Pure.pure a) ok err :=
  ⟨.ok a, fun warnings => ⟨warnings, rfl⟩, h⟩

theorem throw {e : AssemblyError} (h : err e) : Outcome pool scope (throw e : Emit α) ok err :=
  ⟨.error e, fun warnings => ⟨warnings, rfl⟩, h⟩

theorem bind {action : Emit α} {next : α → Emit β} (ha : Outcome pool scope action ok err)
    (hnext : ∀ a, ok a → Outcome pool scope (next a) post err) : Outcome pool scope (action >>= next) post err := by
  obtain ⟨result, hyields, hresult⟩ := ha
  cases result with
  | error e => exact ⟨.error e, hyields.bind_error, hresult⟩
  | ok a =>
    obtain ⟨last, hlast, hpost⟩ := hnext a hresult
    exact ⟨last, hyields.bind_ok hlast, hpost⟩

theorem ofExcept {result : Except AssemblyError α} (hok : ∀ a, result = .ok a → ok a)
    (herr : ∀ e, result = .error e → err e) : Outcome pool scope (Emit.ofExcept result) ok err := by
  cases result with
  | ok a => exact pure (hok a rfl)
  | error e => exact throw (herr e rfl)

theorem read : Outcome pool scope (MonadReader.read : Emit Pool) (· = pool) err :=
  ⟨.ok pool, fun warnings => ⟨warnings, rfl⟩, rfl⟩

theorem methodName : Outcome pool scope Emit.methodName (· = scope.method.getD "") err :=
  ⟨.ok (scope.method.getD ""), fun warnings => ⟨warnings, rfl⟩, rfl⟩

theorem labelPc {label : Label} :
    Outcome pool scope (Emit.labelPc label) (scope.pcOf label = .ok ·) (scope.pcOf label = .error ·) := by
  obtain ⟨method, code⟩ := scope
  refine ⟨Scope.pcOf ⟨method, code⟩ label, fun warnings => ⟨warnings, ?_⟩, ?_⟩
  · cases code with
    | none => rfl
    | some layout =>
      show Emit.ofExcept (layout.pcOf label) pool _ = ended ⟨⟨method, some layout⟩, warnings⟩ (layout.pcOf label)
      cases layout.pcOf label <;> rfl
  · cases Scope.pcOf ⟨method, code⟩ label <;> rfl

theorem inCode {layout : Layout} {action : Emit α}
    (h : Outcome pool { scope with code := some layout } action ok err) :
    Outcome pool scope (Emit.inCode layout action) ok err := by
  obtain ⟨result, hyields, hresult⟩ := h
  exact ⟨result, hyields.inCode, hresult⟩

theorem inMethod {name : String} {action : Emit α}
    (h : Outcome pool { scope with method := some name } action ok err) :
    Outcome pool scope (Emit.inMethod name action) ok err := by
  obtain ⟨result, hyields, hresult⟩ := h
  exact ⟨result, hyields.inMethod, hresult⟩

theorem mapM {items : List α} {item : α → Emit β} {each : α → β → Prop}
    (h : ∀ a ∈ items, Outcome pool scope (item a) (each a) err) :
    Outcome pool scope (items.mapM item) (List.Forall₂ each items) err := by
  induction items with
  | nil => exact pure .nil
  | cons a items ih =>
    rw [List.mapM_cons]
    refine (h a (by simp)).bind fun b hb => ?_
    refine (ih fun x hx => h x (by simp [hx])).bind fun bs hbs => ?_
    exact pure (.cons hb hbs)

theorem each {items : List α} {item : α → Emit Bytes}
    (h : ∀ a ∈ items, Outcome pool scope (item a) (fun _ => True) err) :
    Outcome pool scope (Emit.each items item) (fun _ => True) err :=
  (mapM h).bind fun _ _ => pure trivial

end Outcome

end Emit

end JvmAssembler
