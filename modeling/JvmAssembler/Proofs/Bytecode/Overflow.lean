import JvmAssembler.Proofs.Bytecode.Instruction

/-!
# Operands that do not fit

An instruction is its opcode and its fields, each in the bytes that its own number gives, and the fields that do not
fit are reported (`Instruction.reports_emit`). The numbers of a switch are words, so they always fit
(`Switch.reports_emit`). The index of `ldc` is never cut: where it does not fit, the instruction is not written.
-/

namespace JvmAssembler

namespace Switch

variable {switch : Switch} {pool : Pool} {scope : Scope} {pc : Nat} {err : AssemblyError → Prop}

theorem whole_word (z : Int) : OperandField.Whole [word z] (Bytes.beInt 4 z) where
  fits := by
    intro field hfield
    obtain rfl := List.mem_singleton.1 hfield
    have hcapacity : Bytes.capacity 4 = 4294967296 := rfl
    have hlow : -(4294967296 / 2) ≤ z.bmod 4294967296 := Int.le_bmod (by decide)
    have hhigh : z.bmod 4294967296 < (4294967296 + 1) / 2 := Int.bmod_lt (by decide)
    simp only [OperandField.Fits, word, OperandField.signed, Bytes.signed, hcapacity, ↓reduceIte]
    omega
  written := .beInt (by rw [word, OperandField.signed, Bytes.signed, Int.bmod_emod])

open Emit.Reports (pure)

theorem reports_distance {target : SwitchTarget}
    (h : ∀ label e, target = .label label → scope.pcOf label = .error e → err e) :
    Emit.Reports pool scope (distance pc target)
      (fun bytes new => new = [] ∧
        ∃ fields, distanceFields? scope pc target = some fields ∧ OperandField.Whole fields bytes) err := by
  unfold distance
  cases target with
  | label label =>
    refine (Emit.Reports.labelPc fun e => h label e rfl).bind_quiet fun targetPc hpc => ?_
    refine pure ⟨rfl, _, ?_, whole_word _⟩
    rw [distanceFields?, Scope.distance?, hpc]
    rfl
  | pc target => exact pure ⟨rfl, _, rfl, whole_word _⟩

/-- A switch reports nothing, because its numbers are words. It fails if it cannot be planned, or if a label that it
goes to has no program counter. -/
theorem reports_emit (hplan : ∀ e, switch.plan pc = .error e → err e)
    (hlabel : ∀ label ∈ switch.labels, ∀ e, scope.pcOf label = .error e → err e) :
    Emit.Reports pool scope (switch.emit pc)
      (fun bytes new => new = [] ∧
        ∃ fields, switch.fields? scope pc = some fields ∧ OperandField.Whole fields bytes) err := by
  have htarget : ∀ {target : SwitchTarget}, (∀ label, target = .label label → label ∈ switch.labels) →
      Emit.Reports pool scope (distance pc target) _ err :=
    fun hmem => reports_distance fun label e heq he => hlabel label (hmem label heq) e he
  unfold emit fields?
  refine (Emit.Reports.ofExcept hplan).bind_quiet fun plan hok => ?_
  cases hkind : switch.kind with
  | table =>
    obtain rfl := plan_table hkind hok
    refine (htarget fun label => mem_labels_of_defaultTarget).bind_quiet fun default ⟨first, hfirst, hdefault⟩ => ?_
    simp only [toList_tableSlots, ← alignment_eq, hfirst]
    refine (Emit.Reports.each fun target hmem => htarget fun label heq => ?_).bind_quiet
      fun targets ⟨parts, hparts, hrow⟩ => ?_
    · obtain ⟨i, -, rfl⟩ := List.mem_map.1 hmem
      exact mem_labels_of_targetOf heq
    obtain ⟨rest, hrest, hwhole⟩ := OperandField.Whole.row hrow
    refine pure ⟨rfl, _, by rw [hrest]; rfl, ?_⟩
    rw [hparts]
    exact ((((OperandField.whole_zeros _).append hdefault).append (whole_word _)).append (whole_word _)).append hwhole
  | lookup =>
    obtain ⟨-, rfl⟩ := plan_lookup hkind hok
    refine (htarget fun label => mem_labels_of_defaultTarget).bind_quiet fun default ⟨first, hfirst, hdefault⟩ => ?_
    simp only [← alignment_eq, hfirst]
    have hpair : ∀ pair ∈ switch.keys.zip (switch.targets.map SwitchTarget.label), Emit.Reports pool scope
        (do return Bytes.beInt 4 pair.1.toInt ++ (← distance pc pair.2))
        (fun bytes new => new = [] ∧
          ∃ fields, (do return word pair.1.toInt :: (← distanceFields? scope pc pair.2)) = some fields ∧
            OperandField.Whole fields bytes) err := by
      intro pair hmem
      refine (htarget fun label heq => ?_).bind_quiet fun bytes ⟨fields, hfields, hbytes⟩ => ?_
      · obtain ⟨target, htarget, heq'⟩ := List.mem_map.1 (List.of_mem_zip hmem).2
        obtain rfl := SwitchTarget.label.inj (heq'.trans heq)
        exact List.mem_append_left _ htarget
      · exact pure ⟨rfl, _, by rw [hfields]; rfl, (whole_word _).append hbytes⟩
    refine (Emit.Reports.each hpair).bind_quiet fun pairs ⟨parts, hparts, hrow⟩ => ?_
    obtain ⟨rest, hrest, hwhole⟩ := OperandField.Whole.row hrow
    refine pure ⟨rfl, _, by rw [hrest]; rfl, ?_⟩
    rw [hparts, ← Bytes.beInt_natCast]
    exact (((OperandField.whole_zeros _).append hdefault).append (whole_word _)).append hwhole

end Switch

/-- The bytes of an opcode. -/
def Opcode.bytes : Opcode → Bytes
  | standard byte => [byte]
  | privileged byte => [0xFE, byte]
  | nonPrivileged byte => [0xFF, byte]

namespace Instruction

variable {pool : Pool} {scope : Scope} {pc : Nat} {instruction : Instruction} {field : OperandField}

open OperandField (signed unsigned packed)
open Emit.Reports (pure)

/-! ### Whole instructions -/

/-- A switch behind an opcode that it may stand behind. -/
private theorem reports_switch {byte : UInt8} {info : OpcodeInfo} {switch : Switch}
    (hopcode : instruction.opcode = .standard byte) (hinfo : (Opcode.standard byte).info = .ok info)
    (hformat : info.format ∈ [OperandFormat.tableSwitch, .lookupSwitch]) (hop : instruction.operand = .switch switch) :
    Emit.Reports pool scope (instruction.emitOperand info pc) (Accounts pool scope instruction pc info.format)
      (instruction.Failure pool scope pc) := by
  simp only [List.mem_cons, List.not_mem_nil, or_false] at hformat
  have hlength : ∀ n, instruction.length pc = .ok n → n = switch.size pc := by
    intro n hn
    rcases hformat with hformat | hformat
    all_goals
      simp only [length, hopcode, hinfo, hformat, hop] at hn
      split at hn
      · exact (Except.ok.inj hn).symm
      · cases hn
  have hfields : instruction.operandFields? pool scope pc info.format = switch.fields? scope pc ∧
      instruction.emitOperand info pc = switch.emit pc := by
    unfold operandFields? emitOperand
    rcases hformat with hformat | hformat
    all_goals simp only [hformat, hop, and_self]
  rw [hfields.2]
  refine (Switch.reports_emit (fun e he => ?_) fun label hlabel e he => ?_).imp ?_
  · rcases Switch.plan_error he with rfl | ⟨hkind, hcount, rfl⟩
    · exact .mismatch _ _
    · exact .table hlength hkind hcount
  · exact .label (by simpa [targets, hop, Switch.labels] using hlabel) he
  · rintro bytes new ⟨hnew, fields, hsome, hwhole⟩
    exact ⟨fields, hfields.1.trans hsome, hwhole.written, by rw [hnew, overflows_eq_nil hwhole.fits]⟩

/-- What follows the opcode of an instruction of the table. -/
theorem reports_emitOperand {byte : UInt8} {info : OpcodeInfo} (hopcode : instruction.opcode = .standard byte)
    (hinfo : (Opcode.standard byte).info = .ok info) :
    Emit.Reports pool scope (instruction.emitOperand info pc) (Accounts pool scope instruction pc info.format)
      (instruction.Failure pool scope pc) := by
  by_cases hregular : info.format ∉ irregular
  · rw [emitOperand_of_regular hregular]
    exact (reports_fixedOperand (info_spec hinfo).1 hregular).imp fun _ _ h => h.2
  · simp only [irregular, List.mem_cons, List.not_mem_nil, or_false, Decidable.not_not] at hregular
    rcases hregular with hformat | hformat | hformat | hformat
    · cases hop : instruction.operand with
      | none =>
        simp only [emitOperand, hformat, hop]
        exact pure ⟨[], by unfold operandFields?; simp only [hop], .nil, .refl _⟩
      | _ =>
        simp only [emitOperand, hformat, hop]
        exact reports_refuse
    · cases hop : instruction.operand with
      | switch switch => exact reports_switch hopcode hinfo (by simp [hformat]) hop
      | _ =>
        simp only [emitOperand, hformat, hop]
        exact reports_refuse
    · cases hop : instruction.operand with
      | switch switch => exact reports_switch hopcode hinfo (by simp [hformat]) hop
      | _ =>
        simp only [emitOperand, hformat, hop]
        exact reports_refuse
    · cases hop : instruction.operand with
      | wide opcode index =>
        simp only [emitOperand, hformat, hop]
        exact (reports_wide hop).imp fun _ _ h => h.2
      | _ =>
        simp only [emitOperand, hformat, hop]
        exact reports_refuse

/-- An instruction is its opcode and its fields, and it reports the fields that do not fit. -/
theorem reports_emit : Emit.Reports pool scope (instruction.emit pc)
    (fun bytes new => ∃ fields operand, instruction.fields? pool scope pc = some fields ∧
      bytes = instruction.opcode.bytes ++ operand ∧ OperandField.Written fields operand ∧
      new.Perm (instruction.overflows scope pc fields))
    (instruction.Failure pool scope pc) := by
  unfold emit fields?
  cases hopcode : instruction.opcode with
  | privileged byte => exact pure ⟨[], [], rfl, rfl, .nil, .refl _⟩
  | nonPrivileged byte => exact pure ⟨[], [], rfl, rfl, .nil, .refl _⟩
  | standard byte =>
    -- The look-up stays closed: opening the table would cost more than the rest of the proof.
    generalize hresult : (Opcode.standard byte).info = result
    have herror : ∀ e, result = .error e → instruction.Failure pool scope pc e := by
      rintro e rfl
      have hunknown : e = .unknownOpcode byte := by
        unfold Opcode.info at hresult
        split at hresult
        · cases hresult
        · exact (Except.error.inj hresult).symm
      subst hunknown
      exact .opcode hopcode hresult
    refine (Emit.Reports.ofExcept herror).bind_quiet fun info hinfo => ?_
    rw [hinfo] at hresult
    obtain ⟨-, hformat, -, -⟩ := info_spec hresult
    refine (reports_emitOperand hopcode hresult).bind fun operand new ⟨fields, hfields, hwritten, hnew⟩ => ?_
    refine pure ⟨fields, operand, ?_, rfl, hwritten, by rwa [List.append_nil]⟩
    simp only [hformat, Option.bind_some, hfields]

/-! ### The index of `ldc` -/

/-- The number of an `ldc` is its field. -/
private theorem outcome_operandValue_of_ldc {err : AssemblyError → Prop}
    (hfields : instruction.operandFields? pool scope pc .ldcIndex = some [field]) :
    Emit.Outcome pool scope (instruction.operandValue .ldcIndex pc) (fun value => field = unsigned 1 value) err := by
  unfold operandFields? at hfields
  unfold operandValue
  cases hop : instruction.operand with
  | value v =>
    simp only [hop, Option.some.injEq, List.cons.injEq, and_true] at hfields
    exact .pure hfields.symm
  | constant cell =>
    simp only [hop] at hfields
    obtain ⟨index, hindex, heq⟩ := Option.bind_eq_some_iff.1 hfields
    have hfound : Emit.Outcome pool scope (constantIndex pc cell) (· = index) err := by
      refine Emit.Outcome.read.bind ?_
      rintro _ rfl
      rw [Pool.index?] at hindex
      cases hresult : Pool.indexOf _ cell with
      | ok found =>
        rw [hresult] at hindex
        exact .pure (Option.some.inj hindex)
      | error e =>
        rw [hresult] at hindex
        cases hindex
    refine hfound.bind ?_
    rintro _ rfl
    obtain ⟨rfl, -⟩ := List.cons.inj (Option.some.inj heq)
    exact .pure rfl
  | _ => simp only [hop] at hfields; cases hfields

theorem info_of_getElem? {byte : UInt8} {info : OpcodeInfo} (h : opcodeTable[byte.toNat]? = some info) :
    (Opcode.standard byte).info = .ok info := by
  have hinfo : (Opcode.standard byte).info? = some info := h
  unfold Opcode.info
  rw [hinfo]

/-- The index of `ldc` is never cut. -/
theorem outcome_emit_of_ldc (hopcode : instruction.opcode = .standard 0x12)
    (hfields : instruction.fields? pool scope pc = some [field]) (hfits : ¬ field.Fits) :
    Emit.Outcome pool scope (instruction.emit pc) (fun _ => False)
      (· = .ldcOverflow (scope.method.getD "") pc field.value) := by
  have hformat : formatOf? 0x12 = some .ldcIndex := by decide
  simp only [fields?, hopcode, hformat, Option.bind_some] at hfields
  rw [formatOf?_eq] at hformat
  obtain ⟨info, hget, hldc⟩ := Option.map_eq_some_iff.1 hformat
  have hregular : info.format ∉ irregular := by
    rw [hldc]
    decide
  have hlength : info.length = 2 := by
    rw [length_of_mem_opcodeTable (Array.mem_of_getElem? hget) (by simp_all [irregular]), hldc]
    rfl
  have hoperand : Emit.Outcome pool scope (instruction.fixedOperand info pc) (fun _ => False)
      (· = .ldcOverflow (scope.method.getD "") pc field.value) := by
    unfold fixedOperand
    rw [if_pos (by omega), hldc]
    refine (outcome_operandValue_of_ldc hfields).bind ?_
    rintro value rfl
    have hrange : ¬ (0 ≤ value ∧ value ≤ 255) := by
      have hcapacity : Bytes.capacity 1 = 256 := rfl
      simp only [OperandField.Fits, unsigned, hcapacity, Bool.false_eq_true, ↓reduceIte] at hfits
      omega
    rw [if_pos ⟨rfl, hrange⟩]
    refine Emit.Outcome.methodName.bind ?_
    rintro _ rfl
    exact .throw rfl
  have hinfo : (Opcode.standard 0x12).info = .ok info := info_of_getElem? hget
  have hfound : Emit.Outcome pool scope (Emit.ofExcept (Opcode.standard 0x12).info) (· = info)
      (· = .ldcOverflow (scope.method.getD "") pc field.value) := by
    rw [hinfo]
    exact .pure rfl
  unfold emit
  simp only [hopcode]
  refine hfound.bind ?_
  rintro _ rfl
  rw [emitOperand_of_regular hregular]
  exact hoperand.bind fun _ h => h.elim

/-- An instruction that can be written is its opcode with the low-order bytes of each field, whatever the other fields
are, and it reports one warning for each field that its number does not fit, and nothing else. An `ldc` whose index
does not fit is not written. -/
theorem emit_fields (pool : Pool) (instruction : Instruction) (pc : Nat) (s : Reported Scope) :
    (∀ bytes s', instruction.emit pc pool s = .ok bytes s' → ∃ fields operand new,
      instruction.fields? pool s.state pc = some fields ∧ bytes = instruction.opcode.bytes ++ operand ∧
        OperandField.Written fields operand ∧ s' = ⟨s.state, s.warnings ++ List.toArray new⟩ ∧
        new.Perm ((fields.filter fun field => ¬ field.Fits).map (instruction.overflow s.state pc))) ∧
      ∀ field, instruction.opcode = .standard 0x12 → instruction.fields? pool s.state pc = some [field] →
        ¬ field.Fits →
        Emit.error? (instruction.emit pc) pool s = some (.ldcOverflow (s.state.method.getD "") pc field.value) := by
  constructor
  · intro bytes s' hemit
    obtain ⟨new, hs, fields, operand, hfields, hbytes, hwritten, hnew⟩ := Emit.Reports.of_ok reports_emit hemit
    exact ⟨fields, operand, new, hfields, hbytes, hwritten, hs, hnew⟩
  · intro field hopcode hfields hfits
    obtain ⟨result, hyields, hresult⟩ := outcome_emit_of_ldc hopcode hfields hfits
    rw [hyields.error?_eq]
    cases result with
    | ok bytes => cases hresult
    | error e => exact congrArg some hresult

theorem emit_fields_of_overflow :
    (∃ s', (iinc 300 200).emit 0 .empty ⟨{}, #[]⟩ = .ok [0x84, 0x2C, 0xC8] s' ∧ s'.warnings.size = 2) ∧
      Emit.error? (emit { opcode := .standard 0x12, operand := .value 300 } 7) .empty ⟨{}, #[]⟩ =
        some (.ldcOverflow "" 7 300) := by
  constructor
  · have hvalue : Emit.value? ((iinc 300 200).emit 0) .empty ⟨{}, #[]⟩ = some [0x84, 0x2C, 0xC8] := by decide +kernel
    have hfields : (iinc 300 200).fields? .empty {} 0 = some (packed 1 300 [signed 1 200]) := by decide +kernel
    obtain ⟨s', hemit⟩ := Emit.exists_of_value? hvalue
    obtain ⟨fields, operand, new, hsome, -, -, rfl, hnew⟩ := (emit_fields .empty (iinc 300 200) 0 ⟨{}, #[]⟩).1 _ _ hemit
    obtain rfl := Option.some.inj (hsome.symm.trans hfields)
    refine ⟨_, hemit, ?_⟩
    simp only [Array.size_append, List.size_toArray, hnew.length_eq]
    decide +kernel
  · exact (emit_fields .empty _ 7 ⟨{}, #[]⟩).2 (unsigned 1 300) rfl (by decide +kernel) (by decide)

end Instruction

end JvmAssembler
