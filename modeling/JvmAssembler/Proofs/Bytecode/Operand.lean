import JvmAssembler.Proofs.Bytecode.Decode
import JvmAssembler.Proofs.Bytecode.OperandField
import JvmAssembler.Proofs.Report

/-!
# Operands and their fields

`Instruction.fields?` is the row of fields behind the opcode of an instruction, and `Instruction.Failure` lists what may
go wrong when the instruction is written. An operand of fixed length is written as one number, which carries its fields
(`Instruction.reports_operandValue`): its bytes are those of the fields, and the fields that do not fit are reported.
-/

namespace JvmAssembler

/-- The distance from a program counter to a label of the code that is being written. -/
def Scope.distance? (scope : Scope) (pc : Nat) (label : Label) : Option Int :=
  (scope.pcOf label).toOption.map fun target => (target : Int) - pc

namespace Switch

/-- A number of a switch, which is computed as a 32-bit word. -/
def word (value : Int) : OperandField := .signed 4 (Bytes.signed 4 value)

/-- The distance from the switch at a program counter to a target. -/
def distanceFields? (scope : Scope) (pc : Nat) : SwitchTarget → Option (List OperandField)
  | .label label => (scope.distance? pc label).map fun distance => [word distance]
  | .pc target => some [word ((target : Int) - pc)]

/-- The fields behind the opcode of a switch: zeros up to the next multiple of four, the default distance, and then
the bounds of a table with a distance for each key between them, or the keys of a lookup with their distances. -/
def fields? (switch : Switch) (scope : Scope) (pc : Nat) : Option (List OperandField) := do
  let default ← distanceFields? scope pc (switch.defaultTarget pc)
  let head := [.unsigned (alignment pc) 0] ++ default
  match switch.kind with
  | .table =>
    let targets := (List.range switch.bounds.2.2).map fun (i : Nat) => switch.targetOf pc (switch.bounds.1 + i)
    return head ++ [word switch.bounds.1] ++ [word switch.bounds.2.1] ++
      (← OperandField.row? (distanceFields? scope pc) targets)
  | .lookup =>
    let pairs := switch.keys.zip (switch.targets.map SwitchTarget.label)
    return head ++ [word switch.keys.length] ++
      (← OperandField.row? (fun pair => do return word pair.1.toInt :: (← distanceFields? scope pc pair.2)) pairs)

end Switch

namespace Instruction

open OperandField (signed unsigned packed)

/-- The fields of an operand of a format, if the instruction has what the format asks for. -/
def operandFields? (pool : Pool) (scope : Scope) (pc : Nat) (instruction : Instruction) (format : OperandFormat) :
    Option (List OperandField) :=
  match format, instruction.operand with
  | .none, .none => some []
  | .byte, .value v => some [signed 1 v.toInt]
  | .short, .value v => some [signed 2 v.toInt]
  | .localIndex, .value v | .arrayType, .value v | .ldcIndex, .value v => some [unsigned 1 v.toInt]
  | .ldcIndex, .constant cell => return [unsigned 1 (← pool.index? cell)]
  | .poolIndex, .value v => some [unsigned 2 v.toInt]
  | .poolIndex, .constant cell => return [unsigned 2 (← pool.index? cell)]
  | .branch, .value v => some [signed 2 v.toInt]
  | .branch, .label label => return [signed 2 (← scope.distance? pc label)]
  | .wideBranch, .value v => some [signed 4 v.toInt]
  | .wideBranch, .label label => return [signed 4 (← scope.distance? pc label)]
  | .increment, .value v => return packed 1 v.toInt [signed 1 (← instruction.extra).toInt]
  | .multiArray, .constant cell =>
    return packed 2 (← pool.index? cell) [unsigned 1 (← instruction.extra).toInt]
  | .interfaceCall, .constant cell =>
    return packed 2 (← pool.index? cell) [unsigned 1 (← instruction.interfaceCount? pool cell), unsigned 1 0]
  | .dynamicCall, .constant cell => return packed 2 (← pool.index? cell) [unsigned 2 0]
  | .tableSwitch, .switch switch | .lookupSwitch, .switch switch => switch.fields? scope pc
  | .wide, .wide opcode v =>
    if opcode = Opcode.iincByte then
      return [unsigned 1 opcode.toNat, unsigned 2 v.toInt, signed 2 (← instruction.extra).toInt]
    else some [unsigned 1 opcode.toNat, unsigned 2 v.toInt]
  | _, _ => none

/-- The fields behind the opcode of an instruction at a program counter. A two-byte opcode has none. -/
def fields? (pool : Pool) (scope : Scope) (pc : Nat) (instruction : Instruction) : Option (List OperandField) :=
  match instruction.opcode with
  | .privileged _ | .nonPrivileged _ => some []
  | .standard byte => (formatOf? byte).bind (instruction.operandFields? pool scope pc)

/-- What may go wrong when an instruction is written at a program counter. -/
inductive Failure (pool : Pool) (scope : Scope) (instruction : Instruction) (pc : Nat) : AssemblyError → Prop where
  | malformed (method : String) : Failure pool scope instruction pc (instruction.malformed method pc)
  | ldc (method : String) (value : Int) : Failure pool scope instruction pc (.ldcOverflow method pc value)
  | mismatch (keys targets : Nat) : Failure pool scope instruction pc (.switchMismatch keys targets)
  | constant (method : String) {cell : Cell} {e : AssemblyError} : instruction.operand = .constant cell →
      pool.indexOf cell = .error e → Failure pool scope instruction pc (.unresolvedOperand method pc)
  | label {target : Label} {e : AssemblyError} : target ∈ instruction.targets → scope.pcOf target = .error e →
      Failure pool scope instruction pc e
  | opcode {byte : UInt8} : instruction.opcode = .standard byte →
      (Opcode.standard byte).info = .error (.unknownOpcode byte) →
      Failure pool scope instruction pc (.unknownOpcode byte)
  | table {switch : Switch} : (∀ n, instruction.length pc = .ok n → n = switch.size pc) → switch.kind = .table →
      Bytes.capacity 2 ≤ switch.bounds.2.2 → Failure pool scope instruction pc (.codeOverflow (switch.size pc))

variable {pool : Pool} {scope : Scope} {pc : Nat} {instruction : Instruction} {field : OperandField}
  {fields rest : List OperandField} {value : Int} {format : OperandFormat}

/-! ### Warnings about fields -/

/-- The warning about a field that its number does not fit. -/
def overflow (instruction : Instruction) (scope : Scope) (pc : Nat) (field : OperandField) : Warning :=
  ⟨instruction.position,
    .operandOverflow (scope.method.getD "") pc instruction.opcode.mnemonic field.reported⟩

/-- The warnings about fields: one for each that its number does not fit. -/
def overflows (instruction : Instruction) (scope : Scope) (pc : Nat) (fields : List OperandField) : List Warning :=
  (fields.filter fun field => ¬ field.Fits).map (instruction.overflow scope pc)

theorem overflows_append : instruction.overflows scope pc (fields ++ rest) =
    instruction.overflows scope pc fields ++ instruction.overflows scope pc rest := by
  rw [overflows, List.filter_append, List.map_append]
  rfl

theorem overflows_eq_nil (h : ∀ field ∈ fields, field.Fits) : instruction.overflows scope pc fields = [] := by
  have hfilter : fields.filter (fun field => ¬ field.Fits) = [] := by simpa using h
  rw [overflows, hfilter, List.map_nil]

theorem overflows_zero (width : Nat) : instruction.overflows scope pc [unsigned width 0] = [] :=
  overflows_eq_nil (OperandField.whole_zeros width).fits

/-! ### Numbers and their fields -/

/-- A number of an operand format is one field, or a row of fields side by side: the check of its range is that of
the first field, and its bytes are those of the fields. -/
structure Carries (format : OperandFormat) (value : Int) (first : OperandField) (rest : List OperandField) : Prop where
  reported : first.reported = value
  fits_iff : fits format.operandLength format.isSigned value = true ↔ first.Fits
  written : OperandField.Written (first :: rest) (Bytes.beInt format.operandLength value)

namespace Carries

/-- A number that is a field of its own. -/
theorem single (hlength : 0 < format.operandLength) :
    Carries format value ⟨value, format.operandLength, format.isSigned, value⟩ [] where
  reported := rfl
  fits_iff := OperandField.fits_iff hlength
  written := .beInt rfl

/-- A number in which fields stand side by side. -/
theorem packed (value : Int) {width : Nat} {z : Int}
    (hlength : format.operandLength = width + total OperandField.width rest) (hsigned : format.isSigned = false)
    (hz : z = value * OperandField.room rest + OperandField.number rest) :
    Carries format z ⟨value, width, false, value * OperandField.room rest + OperandField.number rest⟩ rest where
  reported := hz.symm
  fits_iff := by
    rw [hlength, hsigned, hz]
    exact OperandField.fits_packed
  written := by
    rw [hlength, hz]
    exact OperandField.written_packed width value rest

end Carries

open Emit.Reports (pure throw)

theorem reports_refuse {α : Type} {post : α → List Warning → Prop} :
    Emit.Reports pool scope (instruction.refuse pc) post (instruction.Failure pool scope pc) :=
  Emit.Reports.methodName.bind fun method _ _ => throw (.malformed method)

/-- The check of a number reports a warning exactly if the number does not fit. -/
theorem reports_checkFits (field : OperandField) {width : Nat} {isSigned : Bool} {err : AssemblyError → Prop}
    (hvalue : field.reported = value) (hfits : fits width isSigned value = true ↔ field.Fits) :
    Emit.Reports pool scope (instruction.checkFits pc value width isSigned)
      (fun _ new => new = instruction.overflows scope pc [field]) err := by
  unfold checkFits
  split
  · rename_i h
    exact pure (overflows_eq_nil (by simpa using hfits.1 h)).symm
  · rename_i h
    refine Emit.Reports.methodName.bind_quiet ?_
    rintro _ rfl
    refine Emit.Reports.warn.imp fun _ new hnew => ?_
    rw [hnew, overflows, List.filter_cons_of_pos (by simpa [← hfits] using h), ← hvalue]
    rfl

theorem reports_field (field : OperandField) {width : Nat} {isSigned : Bool} {err : AssemblyError → Prop}
    (hvalue : field.reported = value) (hfits : fits width isSigned value = true ↔ field.Fits) :
    Emit.Reports pool scope (instruction.field pc value width isSigned)
      (fun bytes new => bytes = Bytes.beInt width value ∧ new = instruction.overflows scope pc [field]) err :=
  (reports_checkFits field hvalue hfits).bind fun _ _ hnew => pure ⟨rfl, by rw [hnew, List.append_nil]⟩

theorem reports_requireExtra : Emit.Reports pool scope (instruction.requireExtra pc)
    (fun z new => new = [] ∧ ∃ extra, instruction.extra = some extra ∧ z = extra.toInt)
    (instruction.Failure pool scope pc) := by
  unfold requireExtra
  split
  · exact pure ⟨rfl, _, ‹_›, rfl⟩
  · exact reports_refuse

theorem reports_constantIndex {cell : Cell} (hop : instruction.operand = .constant cell) :
    Emit.Reports pool scope (constantIndex pc cell) (fun index new => new = [] ∧ pool.index? cell = some index)
      (instruction.Failure pool scope pc) := by
  refine Emit.Reports.read.bind_quiet ?_
  rintro _ rfl
  cases hindex : Pool.indexOf _ cell with
  | ok index => exact pure ⟨rfl, by rw [Pool.index?, hindex]; rfl⟩
  | error e => exact Emit.Reports.methodName.bind fun method _ _ => throw (.constant method hop hindex)

theorem reports_interfaceCount {cell : Cell} : Emit.Reports pool scope (instruction.interfaceCount pc cell)
    (fun z new => new = [] ∧ instruction.interfaceCount? pool cell = some z) (instruction.Failure pool scope pc) := by
  unfold interfaceCount interfaceCount?
  cases instruction.extra with
  | some extra => exact pure ⟨rfl, rfl⟩
  | none =>
    refine Emit.Reports.read.bind_quiet ?_
    rintro _ rfl
    cases hslots : interfaceSlots? _ cell with
    | some slots => exact pure ⟨rfl, rfl⟩
    | none => exact reports_refuse

theorem reports_distance (pc : Nat) {label : Label} (hop : instruction.operand = .label label) :
    Emit.Reports pool scope (Emit.labelPc label)
      (fun target new => new = [] ∧ scope.distance? pc label = some ((target : Int) - pc))
      (instruction.Failure pool scope pc) := by
  have hlabel : label ∈ instruction.targets := by simp [targets, hop]
  refine (Emit.Reports.labelPc fun e he => .label hlabel he).imp fun target new ⟨hnew, hpc⟩ => ⟨hnew, ?_⟩
  rw [Scope.distance?, hpc]
  rfl

/-- The check of a byte behind the first field of a packed operand. -/
private theorem reports_checkByte {err : AssemblyError → Prop} (isSigned : Bool) :
    Emit.Reports pool scope (instruction.checkFits pc value 1 isSigned)
      (fun _ new => new = instruction.overflows scope pc [⟨value, 1, isSigned, value⟩]) err :=
  reports_checkFits _ rfl (OperandField.fits_iff (by decide))

/-- An operand of fixed length is a number that carries its fields. The fields behind the first are checked
before the number is complete. -/
theorem reports_operandValue : Emit.Reports pool scope (instruction.operandValue format pc)
    (fun value new => ∃ first rest, instruction.operandFields? pool scope pc format = some (first :: rest) ∧
      Carries format value first rest ∧ new = instruction.overflows scope pc rest)
    (instruction.Failure pool scope pc) := by
  unfold operandValue
  -- The cases of the definition, in its order: jumps to labels, plain numbers, constants, packed operands.
  split
  case h_1 hop | h_2 hop =>
    refine (reports_distance pc hop).bind_quiet fun target htarget => pure ⟨_, _, ?_, .single (by decide), rfl⟩
    unfold operandFields?
    simp only [hop, htarget]
    rfl
  case h_11 hop | h_12 hop =>
    refine (reports_constantIndex hop).bind_quiet fun index hindex => pure ⟨_, _, ?_, .single (by decide), rfl⟩
    unfold operandFields?
    simp only [hop, hindex]
    rfl
  case h_13 index hop =>
    refine reports_requireExtra.bind_quiet fun amount ⟨extra, hextra, hamount⟩ => ?_
    refine (reports_checkByte true).bind fun _ new hnew => ?_
    refine pure ⟨_, [signed 1 amount], ?_, .packed index.toInt rfl rfl ?_, by rw [hnew, List.append_nil]; rfl⟩
    · unfold operandFields?
      simp only [hop, hextra, hamount]
      rfl
    · simp [OperandField.number, OperandField.room, Bytes.capacity, signed]
  case h_14 cell hop =>
    refine reports_requireExtra.bind_quiet fun dimensions ⟨extra, hextra, hdimensions⟩ => ?_
    refine (reports_checkByte false).bind fun _ new hnew => ?_
    refine (reports_constantIndex hop).bind_quiet fun index hindex => ?_
    refine pure ⟨_, [unsigned 1 dimensions], ?_, .packed index rfl rfl ?_, by rw [hnew, List.append_nil]; rfl⟩
    · unfold operandFields?
      simp only [hop, hextra, hdimensions, hindex]
      rfl
    · simp [OperandField.number, OperandField.room, Bytes.capacity, unsigned]
  case h_15 cell hop =>
    refine reports_interfaceCount.bind_quiet fun count hcount => ?_
    refine (reports_checkByte false).bind fun _ new hnew => ?_
    refine (reports_constantIndex hop).bind_quiet fun index hindex => ?_
    refine pure ⟨_, [unsigned 1 count, unsigned 1 0], ?_, .packed index rfl rfl ?_, ?_⟩
    · unfold operandFields?
      simp only [hop, hcount, hindex]
      rfl
    · simp [OperandField.number, OperandField.room, Bytes.capacity, unsigned]
      omega
    · rw [← List.singleton_append, overflows_append, overflows_zero, hnew]
      rfl
  case h_16 cell hop =>
    refine (reports_constantIndex hop).bind_quiet fun index hindex => ?_
    refine pure ⟨_, [unsigned 2 0], ?_, .packed index rfl rfl ?_, ?_⟩
    · unfold operandFields?
      simp only [hop, hindex]
      rfl
    · simp [OperandField.number, OperandField.room, Bytes.capacity, unsigned]
    · rw [overflows_zero]
  case h_17 => exact reports_refuse
  all_goals
    rename_i hop
    exact pure ⟨_, _, by unfold operandFields?; simp only [hop]; rfl, .single (by decide), rfl⟩

/-! ### Operands -/

/-- The fields of an operand are written, and those that do not fit are reported. -/
def Accounts (pool : Pool) (scope : Scope) (instruction : Instruction) (pc : Nat) (format : OperandFormat)
    (bytes : Bytes) (new : List Warning) : Prop :=
  ∃ fields, instruction.operandFields? pool scope pc format = some fields ∧ OperandField.Written fields bytes ∧
    new.Perm (instruction.overflows scope pc fields)

/-- The formats whose operands are not one number of a fixed width. -/
def irregular : List OperandFormat := [.none, .tableSwitch, .lookupSwitch, .wide]

theorem emitOperand_of_regular {info : OpcodeInfo} (h : info.format ∉ irregular) :
    instruction.emitOperand info pc = instruction.fixedOperand info pc := by
  unfold emitOperand
  split <;> simp_all [irregular]

/-- The lengths of the opcodes with an operand of fixed length are among those that can be written. -/
theorem reports_fixedOperand {info : OpcodeInfo} (hmem : info ∈ opcodeTable) (hregular : info.format ∉ irregular) :
    Emit.Reports pool scope (instruction.fixedOperand info pc)
      (fun bytes new => 1 + bytes.length = info.length ∧ Accounts pool scope instruction pc info.format bytes new)
      (instruction.Failure pool scope pc) := by
  have hlength : info.length = 1 + info.format.operandLength :=
    length_of_mem_opcodeTable hmem (by simp_all [irregular])
  have hbounds : 2 ≤ info.length ∧ info.length ≤ 5 := by
    rw [hlength]
    revert hregular
    cases info.format <;> decide
  unfold fixedOperand
  rw [if_pos hbounds]
  refine reports_operandValue.bind fun value new ⟨first, rest, hfields, hcarries, hnew⟩ => ?_
  split
  · exact Emit.Reports.methodName.bind fun method _ _ => throw (.ldc method value)
  · rw [hlength, Nat.add_sub_cancel_left]
    refine (reports_field first hcarries.reported hcarries.fits_iff).imp fun bytes more ⟨hbytes, hmore⟩ => ?_
    refine ⟨by rw [hbytes, Bytes.length_beInt], first :: rest, hfields, hbytes ▸ hcarries.written, ?_⟩
    -- The first field is the last to be checked.
    rw [← List.singleton_append, overflows_append, hnew, hmore]
    exact List.perm_append_comm

/-- A number that is a field of its own. -/
private theorem reports_single {width : Nat} {err : AssemblyError → Prop} (hwidth : 0 < width) (isSigned : Bool) :
    Emit.Reports pool scope (instruction.field pc value width isSigned)
      (fun bytes new => OperandField.Written [⟨value, width, isSigned, value⟩] bytes ∧ bytes.length = width ∧
        new = instruction.overflows scope pc [⟨value, width, isSigned, value⟩]) err := by
  refine (reports_field ⟨value, width, isSigned, value⟩ rfl (OperandField.fits_iff hwidth)).imp ?_
  rintro _ new ⟨rfl, hnew⟩
  exact ⟨.beInt rfl, Bytes.length_beInt .., hnew⟩

/-- What follows `wide`. -/
theorem reports_wide {opcode : UInt8} {index : Int32} (hop : instruction.operand = .wide opcode index) :
    Emit.Reports pool scope
      (do
        let head ← instruction.field pc index.toInt 2 false
        if opcode = Opcode.iincByte then
          let increment ← instruction.requireExtra pc
          return opcode :: head ++ (← instruction.field pc increment 2 true)
        else return opcode :: head)
      (fun bytes new => 1 + bytes.length = (if opcode = Opcode.iincByte then 6 else 4) ∧
        Accounts pool scope instruction pc .wide bytes new)
      (instruction.Failure pool scope pc) := by
  have hlt := opcode.toNat_lt
  have hopcode : OperandField.Written [unsigned 1 opcode.toNat] [opcode] := by
    show OperandField.Written _ ([opcode] ++ [])
    refine .cons rfl ?_ .nil
    simp [Bytes.toNat, unsigned, Bytes.capacity]
    omega
  have hfits : ∀ field ∈ [unsigned 1 opcode.toNat], field.Fits := by
    simp [OperandField.Fits, unsigned, Bytes.capacity]
    omega
  refine (reports_single (by decide) false).bind ?_
  rintro head new ⟨hhead, hheadLength, hnew⟩
  split
  · rename_i hiinc
    refine reports_requireExtra.bind_quiet ?_
    rintro increment ⟨extra, hextra, hincrement⟩
    refine (reports_single (by decide) true).bind ?_
    rintro tail more ⟨htail, htailLength, hmore⟩
    refine pure ⟨by simp [hheadLength, htailLength], _, ?_, hopcode.append (hhead.append htail), ?_⟩
    · unfold operandFields?
      simp only [hop, hiinc, hextra, hincrement]
      rfl
    · rw [overflows_append, overflows_append, overflows_eq_nil hfits, hnew, hmore]
      simp
  · rename_i hother
    refine pure ⟨by simp [hheadLength], _, ?_, hopcode.append hhead, ?_⟩
    · unfold operandFields?
      simp only [hop, hother]
      rfl
    · rw [overflows_append, overflows_eq_nil hfits, hnew]
      simp

end Instruction

end JvmAssembler
