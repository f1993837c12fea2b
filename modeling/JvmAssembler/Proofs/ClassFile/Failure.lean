import JvmAssembler.Proofs.ClassFile.Prepare

/-!
# Why a prepared class cannot be written

The cells of a prepared class have indices, and the code of its methods has a layout. So no check of it fails for a
reference (`Check.isReferenceError_of_error?`), and the instructions that were laid out can be wrong in their operands
only (`Body.isOperandError_of_error?`).
-/

namespace JvmAssembler

/-- Whether the error is about a constant without a value or an index. -/
def AssemblyError.isReferenceError : AssemblyError → Bool
  | unresolvedConstant _ | unresolvedOperand _ _ | invalidReference _ | poolFinalized => true
  | _ => false

/-- Whether the error is about an operand that does not fit its instruction. -/
def AssemblyError.isOperandError : AssemblyError → Bool
  | malformedOperand _ _ _ | ldcOverflow _ _ _ | switchMismatch _ _ => true
  | _ => false

theorem Instruction.Failure.isReferenceError {pool : Pool} {scope : Scope} {instruction : Instruction} {pc : Nat}
    {e : AssemblyError} (h : instruction.Failure pool scope pc e)
    (hindexed : ∀ cell, instruction.operand = .constant cell → ∃ index, pool.indexOf cell = .ok index) :
    e.isReferenceError = false := by
  cases h with
  | constant _ hop hindex =>
    obtain ⟨index, hok⟩ := hindexed _ hop
    cases hok.symm.trans hindex
  | label _ hpc => rcases Scope.pcOf_error hpc with ⟨name, rfl⟩ | rfl <;> rfl
  | _ => rfl

theorem Check.isReferenceError_of_error? {pool : Pool} {check : Check} {e : AssemblyError}
    (h : check.error? pool = some e) (hindexed : ∀ cell ∈ check.lookups, ∃ index, pool.indexOf cell = .ok index) :
    e.isReferenceError = false := by
  cases failure_of_error? h with
  | zero => rfl
  | @cell c e he =>
    obtain ⟨index, hindex⟩ := hindexed c (by simp [lookups])
    cases hindex.symm.trans he
  | label he => rcases Scope.pcOf_error he with ⟨name, rfl⟩ | rfl <;> rfl
  | count _ => rfl
  | notLaidOut _ => rfl
  | code _ hfailure =>
    obtain ⟨⟨instruction, pc⟩, hitem, hfailure⟩ := hfailure
    exact hfailure.isReferenceError fun cell hop => hindexed cell (Body.mem_cells (List.of_mem_zip hitem).1 hop)

/-- A pool with indices fails to be written only for a text that is too long. -/
theorem Pool.Valid.encode_error {pool : Pool} {references : List Reference} {table : OffsetTable Cell}
    (h : pool.Valid references) (hlayout : pool.layout = some table) {e : AssemblyError}
    (he : pool.encode = .error e) : ∃ length, e = .utf8TooLong length := by
  have hspec := h.encode_spec hlayout
  cases hlong : pool.constants.findSome? Constant.tooLong? with
  | none =>
    rw [hlong] at hspec
    obtain ⟨bytes, hbytes, -⟩ := hspec
    cases hbytes.symm.trans he
  | some found =>
    simp only [hlong] at hspec
    obtain rfl := Except.error.inj (hspec.symm.trans he)
    obtain ⟨value, -, hvalue⟩ := List.exists_of_findSome?_eq_some hlong
    cases value with
    | utf8 text =>
      rw [Constant.tooLong?] at hvalue
      split at hvalue
      · cases hvalue
      · exact ⟨_, (Option.some.inj hvalue).symm⟩
    | _ => cases hvalue

/-- In code that was laid out, and whose constants have indices, only operands may be wrong. -/
theorem Body.isOperandError_of_error? {pool : Pool} {body : Body} {layout : Layout} {text : String}
    (hlayout : body.layout = some layout) (hcomputed : body.computeLayout text = .ok layout)
    (hindexed : ∀ cell ∈ body.cells, ∃ index, pool.indexOf cell = .ok index) {s : Reported Scope} {e : AssemblyError}
    (h : Emit.error? body.emit pool s = some e) : e.isOperandError = true := by
  rcases Body.error?_emit h with ⟨hnone, -⟩ | ⟨found, hfound, hfailure⟩
  · cases hnone.symm.trans hlayout
  · obtain rfl := Option.some.inj (hfound.symm.trans hlayout)
    rcases Body.failure_of_computeLayout hcomputed hfailure with ⟨_, _, _, rfl⟩ | ⟨_, _, _, rfl⟩ | ⟨_, _, rfl⟩ |
      ⟨instruction, hinstruction, cell, reason, hop, hreason⟩
    · rfl
    · rfl
    · rfl
    · obtain ⟨index, hindex⟩ := hindexed cell (Body.mem_cells hinstruction hop)
      cases hindex.symm.trans hreason

namespace ClassFile

variable {model model' : ClassFile}

/-- The error of a class file that is not written is the error of its pool, or of the first check that fails. -/
theorem write_error {warnings : Array Warning} {e : AssemblyError} (h : (model.write warnings).1 = .error e) :
    model.pool.encode = .error e ∨ ∃ before check after, model.checks = before ++ check :: after ∧
      check.error? model.pool = some e ∧ ∀ earlier ∈ before, earlier.error? model.pool = none := by
  rcases model.write_cases warnings with ⟨e', hpool, he⟩ | ⟨pool, -, ⟨e', s, hbody, he⟩ | ⟨body, s, -, hok⟩⟩
  · obtain rfl := Except.error.inj (h.symm.trans he)
    exact .inl hpool
  · obtain rfl := Except.error.inj (h.symm.trans he)
    exact .inr ((model.follows_emitBody.error_iff rfl).1 ⟨s, hbody⟩)
  · cases h.symm.trans hok

/-- Writing a class that was prepared fails for no reference. It fails at a check that is named here, and if this is
about the code that was laid out, some operand is wrong. -/
theorem write_error_of_prepare {references : List Reference} {warnings warnings' : Array Warning}
    (hpool : Pool.Reached model.pool references) (hcells : ∀ cell ∈ model.cells, cell.id < model.pool.slots.size)
    (hprepare : prepare ⟨model, warnings⟩ = .ok () ⟨model', warnings'⟩) :
    (∀ reported e, (model'.write reported).1 = .error e → e.isReferenceError = false ∧
      (model'.pool.encode = .error e ∨ ∃ before check after, model'.checks = before ++ check :: after ∧
        check.error? model'.pool = some e ∧ ∀ earlier ∈ before, earlier.error? model'.pool = none)) ∧
    ∀ method ∈ model'.methods, ∀ code, method.code? = some code →
      ∀ s s' e, code.body.emit model'.pool s = .error e s' → e.isOperandError = true := by
  have hprepared := prepared_of_prepare hpool hcells hprepare
  obtain ⟨more, table, hreached, hlayout⟩ := hprepared.settles hpool
  have hindexed : ∀ cell ∈ model'.cells, ∃ index, model'.pool.indexOf cell = .ok index := by
    intro cell hcell
    obtain ⟨index, hindex, -⟩ := hreached.valid.exists_indexOf hlayout (hprepared.cells_lt hpool hcells cell hcell)
    exact ⟨index, hindex⟩
  constructor
  · intro reported e he
    refine ⟨?_, write_error he⟩
    rcases write_error he with hencode | ⟨before, check, after, hchecks, hcheck, -⟩
    · obtain ⟨length, rfl⟩ := hreached.valid.encode_error hlayout hencode
      rfl
    · refine Check.isReferenceError_of_error? hcheck fun cell hcell => hindexed cell ?_
      rw [← lookups_checks, hchecks]
      exact List.mem_flatMap.2 ⟨check, by simp, hcell⟩
  · intro method hmethod code hcode s s' e he
    obtain ⟨start, -, hlaid⟩ := exists_laidOut hprepared.methods hmethod
    obtain ⟨layout, text, hbody, hcomputed⟩ := hlaid.code? hcode
    have hconstants : ∀ cell ∈ code.body.cells, ∃ index, model'.pool.indexOf cell = .ok index := by
      intro cell hcell
      refine hindexed cell (List.mem_append_left _ (List.mem_append_right _ ?_))
      exact List.mem_flatMap.2 ⟨method, hmethod, Method.cells_body hcode hcell⟩
    have herror : Emit.error? code.body.emit model'.pool s = some e := by rw [Emit.error?, he]
    exact Body.isOperandError_of_error? hbody hcomputed hconstants herror

/-- A method with a constant that was asked for by its index, and with a jump to nowhere. -/
private def targetless : ClassFile where
  pool := Pool.forward
  thisClass := ⟨2⟩
  methods := [{
    flags := .none
    name := ⟨3⟩
    descriptor := ⟨1⟩
    attributes := [{
      name := ⟨3⟩
      payload := .code {
        maxStack := 1
        maxLocals := 0
        body := { instructions := #[⟨.standard 0x12, .constant ⟨1⟩, none, 0⟩, ⟨.standard 0xA7, .none, none, 0⟩] }
        handlers := []
        attributes := [] } }] }]

set_option maxRecDepth 2000 in
/-- The constant has an index by now, and the jump is what is left. -/
theorem write_error_of_prepare_targetless : ∃ s', prepare ⟨targetless, #[]⟩ = .ok () s' ∧
    (s'.state.write #[]).1 = .error (.malformedOperand "\x00é" 2 "goto") ∧
    ∀ reported e, (s'.state.write reported).1 = .error e → e.isReferenceError = false := by
  have hcells : ∀ cell ∈ targetless.cells, cell.id < targetless.pool.slots.size := by decide
  have hrun : ∃ s', prepare ⟨targetless, #[]⟩ = .ok () s' ∧
    (s'.state.write #[]).1 = .error (.malformedOperand "\x00é" 2 "goto") := ⟨_, rfl, rfl⟩
  obtain ⟨s', hprepare, herror⟩ := hrun
  obtain ⟨hwrite, -⟩ := write_error_of_prepare Pool.reached_forward hcells hprepare
  exact ⟨s', hprepare, herror, fun reported e he => (hwrite reported e he).1⟩

end ClassFile

end JvmAssembler
