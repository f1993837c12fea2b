import JvmAssembler.Proofs.Bytecode.Failure
import JvmAssembler.Proofs.Pool.Decode

/-!
# The checks of writing

Writing a record looks up cells and labels, compares the lengths of lists with what their counts can hold, and
writes code. Each of these is a `Check`, and the checks of a record stand in the order in which it makes them.
`Emit.Follows pool scope action checks post` says that `action` fails exactly if one of its checks does, with the
error of the first one, and that what it gives satisfies `post` otherwise.
-/

namespace JvmAssembler

theorem Pool.indexOf_error {pool : Pool} {cell : Cell} {e : AssemblyError} (h : pool.indexOf cell = .error e) :
    ∃ c, e = .unresolvedConstant c := by
  unfold Pool.indexOf at h
  simp only at h
  split at h
  · cases h
  · exact ⟨_, (Except.error.inj h).symm⟩
  · exact ⟨_, (Except.error.inj h).symm⟩

theorem Scope.pcOf_error {scope : Scope} {label : Label} {e : AssemblyError} (h : scope.pcOf label = .error e) :
    (∃ name, e = .undefinedLabel name) ∨ e = .labelOutsideCode label := by
  unfold Scope.pcOf at h
  split at h
  · unfold Layout.pcOf at h
    split at h
    · cases h
    · exact .inl ⟨_, (Except.error.inj h).symm⟩
    · exact .inr (Except.error.inj h).symm
  · exact .inr (Except.error.inj h).symm

/-- Something that may go wrong when a record is written. -/
inductive Check where
  /-- The cell is not the zero cell and has an index. -/
  | cell (cell : Cell)
  /-- The label has a program counter. -/
  | label (scope : Scope) (label : Label)
  /-- The count of a list can hold the number of its items. -/
  | count (width : Nat) (what : String) (items : Nat)
  /-- The instructions can be written. -/
  | code (scope : Scope) (body : Body)

namespace Check

/-- Why a check fails, if it does. -/
def error? (pool : Pool) : Check → Option AssemblyError
  | cell c =>
    if c = .zero then some (.missingReference "constant")
    else
      match pool.indexOf c with
      | .ok _ => none
      | .error e => some e
  | label scope target =>
    match scope.pcOf target with
    | .ok _ => none
    | .error e => some e
  | count width what items => if items < Bytes.capacity width then none else some (.countOverflow what items)
  | code scope body => Emit.error? body.emit pool ⟨scope, #[]⟩

/-- Why the first check that fails does so. -/
def first? (pool : Pool) (checks : List Check) : Option AssemblyError := checks.findSome? (error? pool)

/-- The check of a cell that may be absent. -/
def cell? (reference : Option Cell) : List Check := reference.toList.map .cell

/-- The checks of a list behind its count. -/
def counted {α : Type} (width : Nat) (what : String) (items : List α) (checks : α → List Check) : List Check :=
  .count width what items.length :: items.flatMap checks

/-- The checks of a list of cells behind its count. -/
def cells (items : List Cell) : List Check := counted 2 "constant references" items fun c => [.cell c]

variable {pool : Pool}

theorem first?_append (before after : List Check) :
    first? pool (before ++ after) = (first? pool before).or (first? pool after) :=
  List.findSome?_append

theorem first?_eq_none_iff {checks : List Check} :
    first? pool checks = none ↔ ∀ check ∈ checks, check.error? pool = none :=
  List.findSome?_eq_none_iff

theorem first?_eq_some_iff {checks : List Check} {e : AssemblyError} :
    first? pool checks = some e ↔ ∃ before check after, checks = before ++ check :: after ∧
      check.error? pool = some e ∧ ∀ earlier ∈ before, earlier.error? pool = none :=
  List.findSome?_eq_some_iff

/-- The ways in which a check fails. -/
inductive Failure (pool : Pool) : Check → AssemblyError → Prop where
  | zero : Failure pool (cell .zero) (.missingReference "constant")
  | cell {c : Cell} {e : AssemblyError} : pool.indexOf c = .error e → Failure pool (cell c) e
  | label {scope : Scope} {target : Label} {e : AssemblyError} : scope.pcOf target = .error e →
      Failure pool (label scope target) e
  | count {width : Nat} {what : String} {items : Nat} : Bytes.capacity width ≤ items →
      Failure pool (count width what items) (.countOverflow what items)
  | notLaidOut {scope : Scope} {body : Body} : body.layout = none → Failure pool (code scope body) .codeNotLaidOut
  | code {scope : Scope} {body : Body} {layout : Layout} {e : AssemblyError} : body.layout = some layout →
      body.Failure pool scope layout e → Failure pool (code scope body) e

theorem failure_of_error? {check : Check} {e : AssemblyError} (h : check.error? pool = some e) :
    check.Failure pool e := by
  cases check with
  | cell c =>
    rw [error?] at h
    split at h
    · rename_i hzero
      cases hzero
      cases h
      exact .zero
    · split at h
      · cases h
      · rename_i he
        cases h
        exact .cell he
  | label scope target =>
    rw [error?] at h
    split at h
    · cases h
    · rename_i he
      cases h
      exact .label he
  | count width what items =>
    rw [error?] at h
    split at h
    · cases h
    · rename_i hfits
      cases h
      exact .count (Nat.le_of_not_lt hfits)
  | code scope body =>
    rcases Body.error?_emit h with ⟨hlayout, rfl⟩ | ⟨layout, hlayout, hfailure⟩
    · exact .notLaidOut hlayout
    · exact .code hlayout hfailure

/-- Only a count that is too small overflows. -/
theorem error?_eq_countOverflow_iff {check : Check} {what : String} {items : Nat} :
    check.error? pool = some (.countOverflow what items) ↔
      ∃ width, check = .count width what items ∧ Bytes.capacity width ≤ items := by
  constructor
  · intro h
    cases failure_of_error? h with
    | cell he =>
      obtain ⟨c, he⟩ := Pool.indexOf_error he
      cases he
    | label he => rcases Scope.pcOf_error he with ⟨name, he⟩ | he <;> cases he
    | @count width _ _ hle => exact ⟨width, rfl, hle⟩
    | code _ hfailure =>
      obtain ⟨item, -, hitem⟩ := hfailure
      cases hitem with
      | label _ he => rcases Scope.pcOf_error he with ⟨name, he⟩ | he <;> cases he
  · rintro ⟨width, rfl, hle⟩
    rw [error?, if_neg (Nat.not_lt.2 hle)]

end Check

namespace Emit

variable {α β : Type} {pool : Pool} {scope : Scope} {checks : List Check}

/-- The writing fails as its checks do, and what it gives satisfies `post`. -/
def Follows (pool : Pool) (scope : Scope) (action : Emit α) (checks : List Check) (post : α → Prop) : Prop :=
  Outcome pool scope action (fun a => Check.first? pool checks = none ∧ post a)
    (fun e => Check.first? pool checks = some e)

namespace Follows

variable {post : α → Prop}

theorem mono {action : Emit α} {post' : α → Prop} (h : Follows pool scope action checks post)
    (himp : ∀ a, post a → post' a) : Follows pool scope action checks post' :=
  Outcome.mono h (fun a ha => ⟨ha.1, himp a ha.2⟩) fun _ he => he

theorem congr {action : Emit α} {checks' : List Check} (h : Follows pool scope action checks post)
    (heq : checks' = checks) : Follows pool scope action checks' post := heq ▸ h

theorem pure {a : α} (h : post a) : Follows pool scope (Pure.pure a) [] post := Outcome.pure ⟨rfl, h⟩

theorem bind {action : Emit α} {next : α → Emit β} {after : List Check} {post' : β → Prop}
    (ha : Follows pool scope action checks post) (hnext : ∀ a, post a → Follows pool scope (next a) after post') :
    Follows pool scope (action >>= next) (checks ++ after) post' := by
  obtain ⟨result, hyields, hresult⟩ := ha
  have happend : Check.first? pool (checks ++ after) = _ := Check.first?_append checks after
  cases result with
  | error e =>
    refine ⟨.error e, hyields.bind_error, ?_⟩
    show Check.first? pool (checks ++ after) = some e
    rw [happend, show Check.first? pool checks = some e from hresult]
    rfl
  | ok a =>
    obtain ⟨hnone, hpost⟩ := hresult
    obtain ⟨last, hlast, hlast'⟩ := hnext a hpost
    rw [hnone, Option.none_or] at happend
    refine ⟨last, hyields.bind_ok hlast, ?_⟩
    cases last with
    | ok b => exact ⟨happend.trans hlast'.1, hlast'.2⟩
    | error e => exact happend.trans hlast'

theorem read : Follows pool scope (MonadReader.read : Emit Pool) [] (· = pool) :=
  Outcome.read.mono (fun _ h => ⟨rfl, h⟩) fun _ he => he

/-- What is known of the value by other means. -/
theorem with_ensures {action : Emit α} {p : Prop} {post' : α → Prop} (h : Follows pool scope action checks post)
    (h' : p → Ensures pool scope action post') :
    Follows pool scope action checks (fun a => post a ∧ (p → post' a)) := by
  obtain ⟨result, hyields, hresult⟩ := h
  refine ⟨result, hyields, ?_⟩
  cases result with
  | error e => exact hresult
  | ok a =>
    refine ⟨hresult.1, hresult.2, fun hp => ?_⟩
    obtain ⟨after, hafter⟩ := hyields #[]
    exact ((h' hp).of_ok rfl hafter).2

theorem value? {action : Emit α} (h : Follows pool scope action checks post) :
    Follows pool scope action checks
      (fun a => post a ∧ ∀ warnings, Emit.value? action pool ⟨scope, warnings⟩ = some a) := by
  obtain ⟨result, hyields, hresult⟩ := h
  refine ⟨result, hyields, ?_⟩
  cases result with
  | error e => exact hresult
  | ok a => exact ⟨hresult.1, hresult.2, fun warnings => hyields.value?_eq warnings⟩

theorem inCode {layout : Layout} {action : Emit α}
    (h : Follows pool { scope with code := some layout } action checks post) :
    Follows pool scope (Emit.inCode layout action) checks post :=
  Outcome.inCode h

theorem inMethod {name : String} {action : Emit α}
    (h : Follows pool { scope with method := some name } action checks post) :
    Follows pool scope (Emit.inMethod name action) checks post :=
  Outcome.inMethod h

/-! ### What a run shows -/

theorem of_ok {action : Emit α} (h : Follows pool scope action checks post) {s s' : Reported Scope} {a : α}
    (hs : s.state = scope) (hrun : action pool s = .ok a s') :
    (∀ check ∈ checks, check.error? pool = none) ∧ post a := by
  obtain ⟨result, hyields, hresult⟩ := h
  obtain ⟨state, warnings⟩ := s
  subst hs
  obtain ⟨after, hafter⟩ := hyields warnings
  rw [hrun] at hafter
  cases result with
  | error e => cases hafter
  | ok b =>
    cases hafter
    exact ⟨Check.first?_eq_none_iff.1 hresult.1, hresult.2⟩

/-- A writing fails with an error exactly if this is the error of a check that is reached. -/
theorem error_iff {action : Emit α} (h : Follows pool scope action checks post) {s : Reported Scope}
    (hs : s.state = scope) {e : AssemblyError} :
    (∃ s', action pool s = .error e s') ↔ ∃ before check after, checks = before ++ check :: after ∧
      check.error? pool = some e ∧ ∀ earlier ∈ before, earlier.error? pool = none := by
  rw [← Check.first?_eq_some_iff]
  obtain ⟨result, hyields, hresult⟩ := h
  obtain ⟨state, warnings⟩ := s
  subst hs
  obtain ⟨after, hafter⟩ := hyields warnings
  rw [hafter]
  cases result with
  | ok a =>
    constructor
    · rintro ⟨s', hs'⟩
      cases hs'
    · intro hsome
      rw [hresult.1] at hsome
      cases hsome
  | error e' =>
    have hfirst : Check.first? pool checks = some e' := hresult
    rw [hfirst]
    constructor
    · rintro ⟨s', hs'⟩
      cases hs'
      rfl
    · intro heq
      cases heq
      exact ⟨_, rfl⟩

/-! ### The parts that everything is made of -/

theorem cell {cell : Cell} : Follows pool scope (Emit.cell cell) [.cell cell]
    (fun bytes => pool.indexOf cell = .ok (pool.index cell) ∧ bytes = Bytes.be 2 (pool.index cell)) := by
  unfold Emit.cell
  by_cases hzero : cell = .zero
  · rw [if_pos hzero]
    refine Outcome.throw ?_
    simp [Check.first?, Check.error?, hzero]
  · rw [if_neg hzero]
    refine Outcome.read.bind fun found hfound => ?_
    rw [hfound]
    cases hindex : pool.indexOf cell with
    | ok index =>
      have hfirst : Check.first? pool [.cell cell] = none := by simp [Check.first?, Check.error?, hzero, hindex]
      have heq : pool.index cell = index := by rw [Pool.index, hindex]; rfl
      refine Outcome.pure ⟨hfirst, ?_, ?_⟩ <;> rw [heq]
    | error e =>
      refine Outcome.throw ?_
      simp [Check.first?, Check.error?, hzero, hindex]

theorem labelPc {label : Label} : Follows pool scope (Emit.labelPc label) [.label scope label]
    (scope.pcOf label = .ok ·) := by
  refine Outcome.labelPc.mono (fun pc hpc => ⟨?_, hpc⟩) fun e he => ?_
  · simp [Check.first?, Check.error?, hpc]
  · simp [Check.first?, Check.error?, he]

theorem count {width items : Nat} {what : String} :
    Follows pool scope (Emit.count width what items) [.count width what items]
      (fun bytes => items < Bytes.capacity width ∧ bytes = Bytes.be width items) := by
  unfold Emit.count
  by_cases hfits : items < Bytes.capacity width
  · rw [if_pos hfits]
    exact Outcome.pure ⟨by simp [Check.first?, Check.error?, hfits], hfits, rfl⟩
  · rw [if_neg hfits]
    refine Outcome.throw ?_
    simp [Check.first?, Check.error?, hfits]

/-- Code is one check, with what it writes as a whole. -/
theorem code {body : Body} : Follows pool scope body.emit [.code scope body] (fun _ => True) := by
  obtain ⟨result, hyields, -⟩ : Outcome pool scope body.emit _ _ := Body.outcome_emit
  refine ⟨result, hyields, ?_⟩
  have herror := hyields.error?_eq #[]
  cases result with
  | ok bytes => exact ⟨by simp [Check.first?, Check.error?, herror], trivial⟩
  | error e => simp [Check.first?, Check.error?, herror]

theorem mapM {items : List α} {item : α → Emit β} {needs : α → List Check} {post : α → β → Prop}
    (h : ∀ a ∈ items, Follows pool scope (item a) (needs a) (post a)) :
    Follows pool scope (items.mapM item) (items.flatMap needs) (List.Forall₂ post items) := by
  induction items with
  | nil => exact pure .nil
  | cons a items ih =>
    rw [List.mapM_cons, List.flatMap_cons]
    refine (h a (by simp)).bind fun b hb => ?_
    refine ((ih fun x hx => h x (by simp [hx])).bind fun bs hbs => ?_).congr (List.append_nil _).symm
    exact pure (.cons hb hbs)

theorem each {items : List α} {item : α → Emit Bytes} {needs : α → List Check} {post : α → Bytes → Prop}
    (h : ∀ a ∈ items, Follows pool scope (item a) (needs a) (post a)) :
    Follows pool scope (Emit.each items item) (items.flatMap needs)
      (fun bytes => ∃ parts, bytes = parts.flatten ∧ List.Forall₂ post items parts) :=
  ((mapM h).bind fun parts hparts => pure ⟨parts, rfl, hparts⟩).congr (List.append_nil _).symm

theorem counted {width : Nat} {what : String} {items : List α} {item : α → Emit Bytes} {needs : α → List Check}
    {post : α → Bytes → Prop} (h : ∀ a ∈ items, Follows pool scope (item a) (needs a) (post a)) :
    Follows pool scope (Emit.counted width what items item) (Check.counted width what items needs)
      (fun bytes => ∃ parts, bytes = Bytes.be width items.length ++ parts.flatten ∧
        items.length < Bytes.capacity width ∧ List.Forall₂ post items parts) := by
  refine (count.bind fun head hhead => (each h).bind fun tail htail => pure ?_).congr (by simp [Check.counted])
  obtain ⟨parts, rfl, hparts⟩ := htail
  exact ⟨parts, by rw [hhead.2], hhead.1, hparts⟩

/-- Items in a row, for a writing that goes along the list and collects the parts in reverse. -/
theorem row (all : List α → List Bytes → Emit Bytes) {item : α → Emit Bytes} {needs : α → List Check}
    {post : α → Bytes → Prop} (hnil : ∀ done, all [] done = Pure.pure done.reverse.flatten)
    (hcons : ∀ a rest done, all (a :: rest) done = item a >>= fun bytes => all rest (bytes :: done))
    {items : List α} (h : ∀ a ∈ items, Follows pool scope (item a) (needs a) (post a)) :
    Follows pool scope (all items []) (items.flatMap needs)
      (fun bytes => ∃ parts, bytes = parts.flatten ∧ List.Forall₂ post items parts) := by
  suffices ∀ done : List Bytes, Follows pool scope (all items done) (items.flatMap needs)
      (fun bytes => ∃ parts, bytes = done.reverse.flatten ++ parts.flatten ∧ List.Forall₂ post items parts) from
    this []
  induction items with
  | nil =>
    intro done
    rw [hnil]
    exact pure ⟨[], by simp, .nil⟩
  | cons a items ih =>
    intro done
    rw [hcons, List.flatMap_cons]
    refine (h a (by simp)).bind fun bytes hbytes => ?_
    refine (ih (fun x hx => h x (by simp [hx])) (bytes :: done)).mono ?_
    rintro _ ⟨parts, rfl, hparts⟩
    exact ⟨bytes :: parts, by simp, .cons hbytes hparts⟩

end Follows

end Emit

end JvmAssembler
