import JvmAssembler.Proofs.Bytecode.Operand
import JvmAssembler.Proofs.Bytecode.Switch

/-!
# Instructions as bytes

An instruction at a program counter takes as many bytes as its length says, and a reader finds in them the opcode and
the operand of the instruction (`Instruction.ensures_emit`). The operand is found in the fields that it is written as
(`Instruction.reads_of_written`).
-/

namespace JvmAssembler.Instruction

variable {pool : Pool} {scope : Scope} {layout : Layout} {pc : Nat} {instruction : Instruction}

/-! ### Reading fields -/

theorem distance?_eq {label : Label} (hcode : scope.code = some layout) :
    scope.distance? pc label = layout.distance? pc label := by
  rw [Scope.distance?, Scope.pcOf, hcode]
  rfl

/-- The bytes of the fields behind `wide` are read back. -/
private theorem reads_wide {opcode : UInt8} {v : Int32} {fields : List OperandField} {bytes : Bytes}
    (hop : instruction.operand = .wide opcode v)
    (hfields : (if opcode = Opcode.iincByte then do
        return [.unsigned 1 opcode.toNat, .unsigned 2 v.toInt, .signed 2 (← instruction.extra).toInt]
      else some [.unsigned 1 opcode.toNat, .unsigned 2 v.toInt]) = some fields)
    (hbytes : bytes = fields.flatMap fun field => Bytes.beInt field.width field.value) :
    ∃ operand, instruction.resolvedOperand? pool layout pc .wide = some operand ∧
      Reads (readOperand pc .wide) bytes operand := by
  split at hfields
  · rename_i hiinc
    obtain ⟨extra, hextra, hsome⟩ := Option.bind_eq_some_iff.1 hfields
    obtain rfl := Option.some.inj hsome
    rw [hbytes, List.flatMap_cons, List.flatMap_cons, List.flatMap_singleton]
    refine ⟨.wideIncrement (Bytes.unsigned 2 v.toInt) (Bytes.signed 2 extra.toInt), ?_,
      (Reads.byte opcode).bind ((Reads.unsigned _ _).bind ?_)⟩
    · unfold resolvedOperand?
      simp only [hop, hiinc, hextra]
      rfl
    · rw [Opcode.iincByte] at hiinc
      rw [if_pos hiinc]
      exact (Reads.signed _ _).map _
  · rename_i hother
    obtain rfl := Option.some.inj hfields
    rw [hbytes, List.flatMap_cons, List.flatMap_cons, List.flatMap_nil]
    refine ⟨.wide opcode (Bytes.unsigned 2 v.toInt), ?_, (Reads.byte opcode).bind ((Reads.unsigned _ _).bind ?_)⟩
    · unfold resolvedOperand?
      simp only [hop, hother]
      rfl
    · rw [Opcode.iincByte] at hother
      rw [if_neg hother]
      exact Reads.pure _

/-- The bytes of the fields of an operand are read back as the operand. -/
theorem reads_of_written {format : OperandFormat} {fields : List OperandField} {bytes : Bytes}
    (hcode : scope.code = some layout) (hformat : format ∉ [OperandFormat.tableSwitch, .lookupSwitch])
    (hfields : instruction.operandFields? pool scope pc format = some fields)
    (hwritten : OperandField.Written fields bytes) :
    ∃ operand, instruction.resolvedOperand? pool layout pc format = some operand ∧
      Reads (readOperand pc format) bytes operand := by
  have hbytes := hwritten.eq
  unfold operandFields? at hfields
  -- The cases of the definition, in its order.
  split at hfields
  case h_1 hop =>
    obtain rfl := Option.some.inj hfields
    rw [hbytes]
    exact ⟨.none, by unfold resolvedOperand?; simp only [hop], Reads.pure _⟩
  case h_2 hop | h_3 hop | h_10 hop | h_12 hop =>
    obtain rfl := Option.some.inj hfields
    rw [hbytes, List.flatMap_singleton]
    exact ⟨_, by unfold resolvedOperand?; simp only [hop]; rfl, (Reads.signed _ _).map _⟩
  case h_4 hop | h_5 hop | h_6 hop | h_8 hop =>
    obtain rfl := Option.some.inj hfields
    rw [hbytes, List.flatMap_singleton]
    exact ⟨_, by unfold resolvedOperand?; simp only [hop]; rfl, (Reads.unsigned _ _).map _⟩
  case h_7 hop | h_9 hop =>
    obtain ⟨index, hindex, hsome⟩ := Option.bind_eq_some_iff.1 hfields
    obtain rfl := Option.some.inj hsome
    rw [hbytes, List.flatMap_singleton]
    refine ⟨_, ?_, (Reads.unsigned _ _).map _⟩
    unfold resolvedOperand?
    simp only [hop, hindex]
    rfl
  case h_11 hop | h_13 hop =>
    obtain ⟨distance, hdistance, hsome⟩ := Option.bind_eq_some_iff.1 hfields
    obtain rfl := Option.some.inj hsome
    rw [distance?_eq hcode] at hdistance
    rw [hbytes, List.flatMap_singleton]
    refine ⟨_, ?_, (Reads.signed _ _).map _⟩
    unfold resolvedOperand?
    simp only [hop, hdistance]
    rfl
  case h_14 hop =>
    obtain ⟨extra, hextra, hsome⟩ := Option.bind_eq_some_iff.1 hfields
    obtain rfl := Option.some.inj hsome
    rw [hbytes, OperandField.packed, List.flatMap_cons, List.flatMap_singleton]
    refine ⟨_, ?_, (Reads.unsigned _ _).bind ((Reads.signed _ _).map _)⟩
    unfold resolvedOperand?
    simp only [hop, hextra]
    rfl
  case h_15 hop =>
    obtain ⟨index, hindex, hrest⟩ := Option.bind_eq_some_iff.1 hfields
    obtain ⟨extra, hextra, hsome⟩ := Option.bind_eq_some_iff.1 hrest
    obtain rfl := Option.some.inj hsome
    rw [hbytes, OperandField.packed, List.flatMap_cons, List.flatMap_singleton]
    refine ⟨_, ?_, (Reads.unsigned _ _).bind ((Reads.unsigned _ _).map _)⟩
    unfold resolvedOperand?
    simp only [hop, hindex, hextra]
    rfl
  case h_16 hop =>
    obtain ⟨index, hindex, hrest⟩ := Option.bind_eq_some_iff.1 hfields
    obtain ⟨count, hcount, hsome⟩ := Option.bind_eq_some_iff.1 hrest
    obtain rfl := Option.some.inj hsome
    rw [hbytes, OperandField.packed, List.flatMap_cons, List.flatMap_cons, List.flatMap_singleton]
    refine ⟨_, ?_, (Reads.unsigned _ _).bind ((Reads.unsigned _ _).bind ((Reads.zeros 1).map _))⟩
    unfold resolvedOperand?
    simp only [hop, hindex, hcount]
    rfl
  case h_17 hop =>
    obtain ⟨index, hindex, hsome⟩ := Option.bind_eq_some_iff.1 hfields
    obtain rfl := Option.some.inj hsome
    rw [hbytes, OperandField.packed, List.flatMap_cons, List.flatMap_singleton]
    refine ⟨_, ?_, (Reads.unsigned _ _).bind ((Reads.zeros 2).map _)⟩
    unfold resolvedOperand?
    simp only [hop, hindex]
    rfl
  case h_18 | h_19 => simp at hformat
  case h_20 hop => exact reads_wide hop hfields hbytes
  case h_21 => cases hfields

theorem Accounts.reads {format : OperandFormat} {bytes : Bytes} {new : List Warning}
    (h : Accounts pool scope instruction pc format bytes new) (hcode : scope.code = some layout)
    (hformat : format ∉ [OperandFormat.tableSwitch, .lookupSwitch]) :
    ∃ operand, instruction.resolvedOperand? pool layout pc format = some operand ∧
      Reads (readOperand pc format) bytes operand := by
  obtain ⟨fields, hfields, hwritten, -⟩ := h
  exact reads_of_written hcode hformat hfields hwritten

/-! ### Whole instructions -/

theorem info_spec {byte : UInt8} {info : OpcodeInfo} (h : (Opcode.standard byte).info = .ok info) :
    info ∈ opcodeTable ∧ formatOf? byte = some info.format ∧ byte ≠ 0xFE ∧ byte ≠ 0xFF := by
  have hget : opcodeTable[byte.toNat]? = some info := by
    unfold Opcode.info at h
    split at h
    · rename_i found hfound
      obtain rfl := Except.ok.inj h
      exact hfound
    · cases h
  have hformat : formatOf? byte = some info.format := by rw [formatOf?_eq, hget]; rfl
  have hpriv : formatOf? 0xFE = none := by decide
  have hnon : formatOf? 0xFF = none := by decide
  refine ⟨Array.mem_of_getElem? hget, hformat, ?_, ?_⟩
  · rintro rfl
    rw [hpriv] at hformat
    cases hformat
  · rintro rfl
    rw [hnon] at hformat
    cases hformat

private theorem length_of_regular {byte : UInt8} {info : OpcodeInfo} (hopcode : instruction.opcode = .standard byte)
    (hinfo : (Opcode.standard byte).info = .ok info) (h : info.format ∉ irregular) :
    instruction.length pc = .ok info.length := by
  simp only [length, hopcode, hinfo]
  split <;> simp_all [irregular]

/-- What follows the opcode of an instruction of the table. -/
theorem ensures_emitOperand {byte : UInt8} {info : OpcodeInfo} {n : Nat} (hcode : scope.code = some layout)
    (hopcode : instruction.opcode = .standard byte) (hinfo : (Opcode.standard byte).info = .ok info)
    (hlength : instruction.length pc = .ok n) (hn : n < lengthLimit) :
    Emit.Ensures pool scope (instruction.emitOperand info pc) (fun bytes => 1 + bytes.length = n ∧
      ∃ operand, instruction.resolvedOperand? pool layout pc info.format = some operand ∧
        Reads (readOperand pc info.format) bytes operand) := by
  have hmem := (info_spec hinfo).1
  by_cases hreg : info.format ∉ irregular
  · rw [length_of_regular hopcode hinfo hreg] at hlength
    obtain rfl := Except.ok.inj hlength
    rw [emitOperand_of_regular hreg]
    refine (reports_fixedOperand hmem hreg).ensures fun bytes new hbytes => ⟨hbytes.1, hbytes.2.reads hcode ?_⟩
    simp_all [irregular]
  · simp only [irregular, List.mem_cons, List.not_mem_nil, or_false, Decidable.not_not] at hreg
    rcases hreg with hformat | hformat | hformat | hformat
    · have hone := length_of_mem_opcodeTable hmem (by rw [hformat]; decide)
      simp only [length, hopcode, hinfo, hformat] at hlength
      obtain rfl := Except.ok.inj hlength
      cases hop : instruction.operand with
      | none =>
        unfold resolvedOperand?
        simp only [emitOperand, hformat, hop]
        exact Emit.Ensures.pure ⟨by rw [hone, hformat]; rfl, _, rfl, Reads.pure _⟩
      | _ =>
        simp only [emitOperand, hformat, hop]
        exact reports_refuse.ensures fun _ _ h => h
    · cases hop : instruction.operand with
      | switch switch =>
        simp only [length, hopcode, hinfo, hformat, hop] at hlength
        split at hlength
        · obtain rfl := Except.ok.inj hlength
          unfold resolvedOperand?
          simp only [emitOperand, hformat, hop]
          exact (Switch.ensures_length_emit hn).and (Switch.ensures_reads_table hcode ‹_›)
        · cases hlength
      | _ => simp only [length, hopcode, hinfo, hformat, hop] at hlength; cases hlength
    · cases hop : instruction.operand with
      | switch switch =>
        simp only [length, hopcode, hinfo, hformat, hop] at hlength
        split at hlength
        · obtain rfl := Except.ok.inj hlength
          have hsize := Switch.size_lookup ‹_› hn
          unfold resolvedOperand?
          simp only [emitOperand, hformat, hop]
          refine (Switch.ensures_length_emit hn).and (Switch.ensures_reads_lookup hcode ‹_› ?_)
          have hcap : Bytes.capacity 4 = lengthLimit + 1 := rfl
          omega
        · cases hlength
      | _ => simp only [length, hopcode, hinfo, hformat, hop] at hlength; cases hlength
    · cases hop : instruction.operand with
      | wide opcode index =>
        simp only [length, hopcode, hinfo, hformat, hop] at hlength
        obtain rfl := Except.ok.inj hlength
        simp only [emitOperand, hformat, hop]
        exact (reports_wide hop).ensures fun bytes new hbytes => ⟨hbytes.1, hbytes.2.reads hcode (by decide)⟩
      | _ => simp only [length, hopcode, hinfo, hformat, hop] at hlength; cases hlength

/-- An instruction takes as many bytes as its length says, and a reader finds the instruction in them. -/
theorem ensures_emit {n : Nat} (hcode : scope.code = some layout) (hlength : instruction.length pc = .ok n)
    (hn : n < lengthLimit) :
    Emit.Ensures pool scope (instruction.emit pc) (fun bytes => bytes.length = n ∧
      ∃ read, instruction.resolved? pool layout pc = some read ∧ Reads (readInstruction pc) bytes read) := by
  unfold emit resolved?
  cases hopcode : instruction.opcode with
  | privileged byte =>
    simp only [length, hopcode] at hlength
    obtain rfl := Except.ok.inj hlength
    exact Emit.Ensures.pure ⟨rfl, _, rfl, Reads.cons (Reads.cons (Reads.pure _))⟩
  | nonPrivileged byte =>
    simp only [length, hopcode] at hlength
    obtain rfl := Except.ok.inj hlength
    exact Emit.Ensures.pure ⟨rfl, _, rfl, Reads.cons (Reads.cons (Reads.pure _))⟩
  | standard byte =>
    -- The look-up stays closed: opening the table would cost more than the rest of the proof.
    generalize hresult : (Opcode.standard byte).info = result
    refine Emit.Ensures.ofExcept.bind fun info hinfo => ?_
    rw [hinfo] at hresult
    obtain ⟨_, hformat, hpriv, hnon⟩ := info_spec hresult
    refine (ensures_emitOperand hcode hopcode hresult hlength hn).bind ?_
    rintro bytes ⟨hbytes, operand, hoperand, hreads⟩
    refine Emit.Ensures.pure ⟨by rw [List.length_cons]; omega, ⟨.standard byte, operand⟩, ?_, ?_⟩
    · simp only [hformat, hoperand, Option.bind_eq_bind, Option.bind_some]
      rfl
    · refine Reads.cons ?_
      rw [if_neg hpriv, if_neg hnon, hformat]
      exact hreads.map _

end JvmAssembler.Instruction
