import JvmAssembler.Proofs.Bytecode.Overflow
import JvmAssembler.Proofs.Bytecode.RoundTrip

/-!
# Why code cannot be written

`Instruction.Failure` lists what may go wrong when an instruction is written: a constant without an index, a label
without a program counter, an unknown opcode, a table that is too long, or an operand that does not fit the
opcode. Laying out code rules out all of this that depends on labels and opcodes
(`Body.failure_of_computeLayout`), so that what is left is about operands.
-/

namespace JvmAssembler

/-- What comes of writing an instruction. -/
theorem Instruction.outcome_emit {pool : Pool} {scope : Scope} {instruction : Instruction} {pc : Nat} :
    Emit.Outcome pool scope (instruction.emit pc) (fun _ => True) (instruction.Failure pool scope pc) :=
  reports_emit.outcome fun _ _ _ => trivial

namespace Body

variable {pool : Pool} {scope : Scope} {body : Body} {layout : Layout}

/-- What may go wrong when code is written with a layout. -/
def Failure (pool : Pool) (scope : Scope) (body : Body) (layout : Layout) (e : AssemblyError) : Prop :=
  ∃ item ∈ body.instructions.toList.zip layout.starts.toList,
    item.1.Failure pool { scope with code := some layout } item.2 e

theorem outcome_emitWith : Emit.Outcome pool scope (body.emitWith layout) (fun _ => True)
    (body.Failure pool scope layout) :=
  Emit.Outcome.inCode (Emit.Outcome.each fun item hitem =>
    Instruction.outcome_emit.mono (fun _ _ => trivial) fun _ he => ⟨item, hitem, he⟩)

theorem outcome_emit : Emit.Outcome pool scope body.emit (fun _ => True)
    (fun e => body.layout = none ∧ e = .codeNotLaidOut ∨
      ∃ layout, body.layout = some layout ∧ body.Failure pool scope layout e) := by
  unfold emit
  cases hlayout : body.layout with
  | none => exact .throw (.inl ⟨rfl, rfl⟩)
  | some layout =>
    exact outcome_emitWith.mono (fun _ _ => trivial) fun e he => .inr ⟨layout, rfl, he⟩

theorem error?_emit {s : Reported Scope} {e : AssemblyError} (h : Emit.error? body.emit pool s = some e) :
    body.layout = none ∧ e = .codeNotLaidOut ∨
      ∃ layout, body.layout = some layout ∧ body.Failure pool s.state layout e := by
  obtain ⟨scope, warnings⟩ := s
  obtain ⟨result, hyields, hresult⟩ : Emit.Outcome pool scope body.emit _ _ := outcome_emit
  rw [hyields.error?_eq] at h
  cases result with
  | ok bytes => cases h
  | error e' =>
    obtain rfl := Option.some.inj h
    exact hresult

/-- Laying out code finds a program counter for every label that an instruction goes to. -/
theorem pcOf_of_computeLayout {method : String} (h : body.computeLayout method = .ok layout)
    {instruction : Instruction} (hinstruction : instruction ∈ body.instructions.toList) {target : Label}
    (htarget : target ∈ instruction.targets) : ∃ pc, layout.pcOf target = .ok pc := by
  obtain ⟨-, -, htargets⟩ := computeLayout_eq_ok_iff.1 h
  exact htargets instruction hinstruction target htarget

/-- Of what may go wrong, laying out code leaves what is about operands. -/
theorem failure_of_computeLayout {method : String} (h : body.computeLayout method = .ok layout) {e : AssemblyError}
    (he : body.Failure pool scope layout e) :
    (∃ method pc opcode, e = .malformedOperand method pc opcode) ∨
      (∃ method pc index, e = .ldcOverflow method pc index) ∨
      (∃ keys targets, e = .switchMismatch keys targets) ∨
      ∃ instruction ∈ body.instructions.toList, ∃ cell reason, instruction.operand = .constant cell ∧
        pool.indexOf cell = .error reason := by
  obtain ⟨⟨instruction, pc⟩, hitem, hfailure⟩ := he
  obtain ⟨hlaid, -⟩ := computeLayout_spec h
  have hmem := (List.of_mem_zip hitem).1
  obtain ⟨n, hlength, -⟩ := hlaid.exists_length hitem
  have hn : instruction.length pc = .ok n := hlength
  have hle : pc + n ≤ maxLength := hlaid.add_length_le hitem hlength
  replace hfailure : instruction.Failure pool { scope with code := some layout } pc e := hfailure
  cases hfailure with
  | malformed method => exact .inl ⟨_, _, _, rfl⟩
  | ldc method value => exact .inr (.inl ⟨_, _, _, rfl⟩)
  | mismatch keys targets => exact .inr (.inr (.inl ⟨_, _, rfl⟩))
  | constant method hop hindex => exact .inr (.inr (.inr ⟨instruction, hmem, _, _, hop, hindex⟩))
  | @label target e htarget hpc =>
    obtain ⟨found, hfound⟩ := pcOf_of_computeLayout h hmem htarget
    have hpc' : layout.pcOf target = .error e := hpc
    rw [hfound] at hpc'
    cases hpc'
  | opcode hopcode hinfo =>
    -- An unknown opcode has no length either.
    simp only [Instruction.length, hopcode, hinfo] at hn
    cases hn
  | @table switch hsize hkind hcount =>
    -- So many keys need more bytes than code may have.
    obtain rfl := hsize n hn
    have hlt : switch.size pc < lengthLimit := by
      unfold maxLength at hle
      unfold lengthLimit
      omega
    have hbytes := Switch.size_table hkind hlt
    have hcapacity : Bytes.capacity 2 = 65536 := rfl
    unfold maxLength at hle
    omega

end Body

end JvmAssembler
