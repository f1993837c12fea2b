import JvmAssembler.Proofs.Bytecode.Instruction
import JvmAssembler.Proofs.Bytecode.Layout

/-!
# Code that was written can be read

A reader of bytes finds the instructions of a body again, each where the layout puts it. One step of the
reader is `Instruction.ensures_emit`; `readCode_parts` chains the steps along the layout.
-/

namespace JvmAssembler

namespace Body

variable {pool : Pool} {scope : Scope} {layout : Layout}

/-- The bytes of an instruction: as long as laying out took them to be, and read back as the instruction. -/
def IsWritten (pool : Pool) (layout : Layout) (item : Instruction × Nat) (bytes : Bytes) : Prop :=
  item.1.length item.2 = .ok bytes.length ∧
    ∃ read, item.1.resolved? pool layout item.2 = some read ∧ Reads (readInstruction item.2) bytes read

/-- Nothing is read without a byte. -/
private theorem length_pos_of_reads {pc : Nat} {bytes : Bytes} {read : ReadInstruction}
    (h : Reads (readInstruction pc) bytes read) : 0 < bytes.length := by
  cases bytes with
  | nil => cases h []
  | cons b bytes => exact Nat.succ_pos _

theorem Laid.exists_length {pc stop : Nat} {instructions : List Instruction} {starts : List Nat}
    (h : Laid pc instructions starts stop) {item : Instruction × Nat} (hitem : item ∈ instructions.zip starts) :
    ∃ n, item.1.length item.2 = .ok n ∧ n < lengthLimit := by
  induction h with
  | nil => cases hitem
  | cons hlength hle _ ih =>
    rw [List.zip_cons_cons, List.mem_cons] at hitem
    rcases hitem with rfl | hitem
    · refine ⟨_, hlength, ?_⟩
      unfold maxLength at hle
      unfold lengthLimit
      omega
    · exact ih hitem

/-- Every instruction of a layout is written as it should be. -/
theorem Laid.ensures_parts {pc stop : Nat} {instructions : List Instruction} {starts : List Nat}
    (h : Laid pc instructions starts stop) (hcode : scope.code = some layout) :
    Emit.Ensures pool scope (Emit.each (instructions.zip starts) fun (instruction, pc) => instruction.emit pc)
      (fun bytes => ∃ parts, bytes = parts.flatten ∧
        List.Forall₂ (IsWritten pool layout) (instructions.zip starts) parts) := by
  refine Emit.Ensures.each fun item hitem => ?_
  obtain ⟨n, hlength, hn⟩ := h.exists_length hitem
  refine (Instruction.ensures_emit hcode hlength hn).mono ?_
  rintro bytes ⟨rfl, hread⟩
  exact ⟨hlength, hread⟩

theorem Laid.length_parts {pc stop : Nat} {instructions : List Instruction} {starts : List Nat}
    (h : Laid pc instructions starts stop) {parts : List Bytes}
    (hparts : List.Forall₂ (IsWritten pool layout) (instructions.zip starts) parts) :
    pc + parts.flatten.length = stop := by
  induction h generalizing parts with
  | nil =>
    cases hparts
    rfl
  | cons hlength _ _ ih =>
    rw [List.zip_cons_cons] at hparts
    cases hparts with
    | @cons _ bytes _ parts hpart hparts =>
      have hn := Except.ok.inj (hlength.symm.trans hpart.1)
      have hrest := ih hparts
      rw [List.flatten_cons, List.length_append]
      omega

/-- A step of the reader, over the bytes of one instruction. -/
theorem readCode_append {length pc : Nat} {bytes rest : Bytes} {read : ReadInstruction}
    (hpc : pc < length) (hread : Reads (readInstruction pc) bytes read) :
    readCode length pc (bytes ++ rest) =
      (readCode length (pc + bytes.length) rest).map fun (tail, rest) => ((pc, read) :: tail, rest) := by
  have hpos := length_pos_of_reads hread
  have hnext : pc + ((bytes ++ rest).length - rest.length) = pc + bytes.length := by
    rw [List.length_append]
    omega
  rw [readCode, if_pos hpc, hread rest]
  simp only [hnext]
  rw [if_pos (by omega)]

/-- Reading the bytes of a layout from a program counter on gives the instructions, each with its start. -/
theorem Laid.readCode_parts {pc stop : Nat} {instructions : List Instruction} {starts : List Nat}
    (h : Laid pc instructions starts stop) {parts : List Bytes}
    (hparts : List.Forall₂ (IsWritten pool layout) (instructions.zip starts) parts) :
    ∃ reads, List.Forall₂ (fun item read => item.1.resolved? pool layout item.2 = some read)
        (instructions.zip starts) reads ∧
      ∀ rest, readCode stop pc (parts.flatten ++ rest) = some (starts.zip reads, rest) := by
  have hlength := h.length_parts hparts
  induction h generalizing parts with
  | @nil pc =>
    cases hparts
    refine ⟨[], .nil, fun rest => ?_⟩
    rw [readCode, if_neg (Nat.lt_irrefl pc), if_pos rfl]
    rfl
  | @cons pc n stop instruction rest starts hn hle hrest ih =>
    rw [List.zip_cons_cons] at hparts ⊢
    cases hparts with
    | @cons _ bytes _ parts hpart hparts =>
      obtain ⟨hbytes, read, hresolved, hread⟩ := hpart
      obtain rfl := Except.ok.inj (hn.symm.trans hbytes)
      obtain ⟨reads, hreads, htail⟩ := ih hparts (hrest.length_parts hparts)
      refine ⟨read :: reads, .cons hresolved hreads, fun after => ?_⟩
      -- The layout does not end inside this instruction, since its bytes count towards the end.
      have hpc : pc < stop := by
        have hpos := length_pos_of_reads hread
        rw [List.flatten_cons, List.length_append] at hlength
        omega
      rw [List.flatten_cons, List.append_assoc, readCode_append hpc hread, htail after]
      rfl

/-- What is written of code with a layout of its instructions. -/
theorem ensures_emitWith {body : Body}
    (h : Laid 0 body.instructions.toList layout.starts.toList layout.length) :
    Emit.Ensures pool scope (body.emitWith layout) (fun bytes => ∃ parts, bytes = parts.flatten ∧
      List.Forall₂ (IsWritten pool layout) (body.instructions.toList.zip layout.starts.toList) parts) :=
  Emit.Ensures.inCode (h.ensures_parts rfl)

/-- The code of a body that was built by calls is as long as its layout says. -/
theorem Built.ensures_length {body : Body} (h : body.Built) (hlayout : body.layout = some layout) :
    Emit.Ensures pool scope (body.emitWith layout) (fun bytes => bytes.length = layout.length) := by
  have hlaid := h.current layout hlayout
  refine (ensures_emitWith hlaid).mono ?_
  rintro _ ⟨parts, rfl, hparts⟩
  have hlength := hlaid.length_parts hparts
  omega

/-- Code that was laid out and written is read back whole: every instruction is found at its start, with the
fields that it stands for, and nothing is left over. -/
theorem readCode_emit {body laid : Body} {method : String} {s s' : Reported Scope} {bytes : Bytes}
    (hlay : body.layOut method = .ok laid) (hemit : laid.emit pool s = .ok bytes s') :
    ∃ layout reads, laid.layout = some layout ∧
      layout.starts.size = body.instructions.size ∧
      bytes.length = layout.length ∧
      List.Forall₂ (fun item read => item.1.resolved? pool layout item.2 = some read)
        (body.instructions.toList.zip layout.starts.toList) reads ∧
      ∀ rest, readCode layout.length 0 (bytes ++ rest) = some (layout.starts.toList.zip reads, rest) := by
  obtain ⟨layout, rfl, hlayout⟩ := layOut_spec hlay
  have hlaid := (computeLayout_spec hlayout).1
  obtain ⟨-, parts, rfl, hparts⟩ := (ensures_emitWith hlaid).of_ok rfl hemit
  obtain ⟨reads, hreads, hread⟩ := hlaid.readCode_parts hparts
  have hlength := hlaid.length_parts hparts
  exact ⟨layout, reads, rfl, hlaid.length_eq, by omega, hreads, hread⟩

/-- Jumps, both switches, a widened increment and a two-byte opcode with an operand that is not written. -/
private def jumpingBody : Body where
  instructions := #[{ opcode := .standard 0xA7, operand := .label ⟨1⟩ },
    .switch { kind := .table, keys := [3, 1], targets := [⟨0⟩, ⟨1⟩] },
    { opcode := .wide, operand := .wide 0x84 300, extra := some (-2) },
    { opcode := .privileged 7, operand := .value 9 },
    .switch { kind := .lookup, keys := [-5, 40], targets := [⟨0⟩, ⟨2⟩], default := some ⟨1⟩ },
    { opcode := .standard 0xB1 }]
  labels := { infos := #[⟨"start", some 0⟩, ⟨"loop", some 1⟩, ⟨"end", some 6⟩] }

private def jumpingLayout : Layout where
  starts := #[0, 3, 28, 34, 36, 64]
  labels := #[⟨"start", some 0⟩, ⟨"loop", some 3⟩, ⟨"end", some 65⟩]
  length := 65

private def jumpingBytes : Bytes :=
  [0xA7, 0, 3,
    0xAA, 0, 0, 0, 25, 0, 0, 0, 1, 0, 0, 0, 3, 0, 0, 0, 0, 0, 0, 0, 25, 255, 255, 255, 253,
    0xC4, 0x84, 1, 44, 255, 254,
    0xFE, 7,
    0xAB, 0, 0, 0, 255, 255, 255, 223, 0, 0, 0, 2, 255, 255, 255, 251, 255, 255, 255, 220, 0, 0, 0, 40, 0, 0, 0, 29,
    0xB1]

theorem readCode_emit_jumpingBody :
    ∃ laid s', jumpingBody.layOut "run" = .ok laid ∧
      laid.emit Pool.empty ⟨{}, #[]⟩ = .ok jumpingBytes s' ∧
      ∃ layout reads, laid.layout = some layout ∧
        layout.starts.size = jumpingBody.instructions.size ∧
        jumpingBytes.length = layout.length ∧
        List.Forall₂ (fun item read => item.1.resolved? Pool.empty layout item.2 = some read)
          (jumpingBody.instructions.toList.zip layout.starts.toList) reads ∧
        ∀ rest, readCode layout.length 0 (jumpingBytes ++ rest) = some (layout.starts.toList.zip reads, rest) := by
  have hlay : jumpingBody.layOut "run" = .ok { jumpingBody with layout := some jumpingLayout } := by
    have hlayout : jumpingBody.computeLayout "run" = .ok jumpingLayout := by decide +kernel
    rw [layOut, hlayout]
    rfl
  have hvalue : Emit.value? (Body.emit { jumpingBody with layout := some jumpingLayout }) Pool.empty ⟨{}, #[]⟩ =
      some jumpingBytes := by
    decide +kernel
  obtain ⟨s', hemit⟩ := Emit.exists_of_value? hvalue
  exact ⟨_, s', hlay, hemit, readCode_emit hlay hemit⟩

end Body

end JvmAssembler
