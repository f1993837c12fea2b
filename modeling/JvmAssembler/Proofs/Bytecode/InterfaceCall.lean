import JvmAssembler.Proofs.Bytecode.Overflow
import JvmAssembler.Proofs.Descriptor
import JvmAssembler.Proofs.Pool.History

/-!
# The arguments of interface calls

The instruction that calls a method of an interface says how many slots its arguments take, the receiver included. Where
the number is not given, it is counted in the descriptor of the method, so it is that of the types in the descriptor
(`Descriptor.argumentSlots_listing`) and one more.
-/

namespace JvmAssembler

namespace Descriptor

theorem total_type (types : List FieldType) :
    total Argument.slots (types.map Argument.type) = total FieldType.slots types := by
  rw [total, List.map_map]
  rfl

/-- The slots of types in parentheses are counted, whatever follows the parentheses. -/
theorem argumentSlots_listing (types : List FieldType) (suffix : List Char)
    (hfits : total FieldType.slots types < slotLimit) :
    argumentSlots (String.ofList (listing FieldType.text types suffix)) = some (total FieldType.slots types) := by
  refine argumentSlots_eq_some_iff.2 ⟨types.map Argument.type, suffix, ?_, total_type types, hfits⟩
  rw [String.toList_ofList, listing_type]

end Descriptor

/-- The cell stands for a method that has the descriptor. -/
def Pool.HasDescriptor (pool : Pool) (cell : Cell) (text : String) : Prop :=
  ∃ kind owner signature name descriptor, pool.get? cell = some (.member kind owner signature) ∧ kind ≠ .field ∧
    pool.get? signature = some (.nameAndType name descriptor) ∧ pool.utf8? descriptor = some text

namespace Instruction

variable {pool : Pool} {scope : Scope} {pc : Nat} {instruction : Instruction} {cell : Cell}

theorem interfaceSlots?_eq {text : String} (h : pool.HasDescriptor cell text) :
    interfaceSlots? pool cell = (Descriptor.argumentSlots text).map (· + 1) := by
  obtain ⟨kind, owner, signature, name, descriptor, hmember, hkind, hsignature, htext⟩ := h
  simp only [interfaceSlots?, hmember, hsignature, htext, Option.bind_eq_bind, Option.bind_some, if_neg hkind]
  cases Descriptor.argumentSlots text <;> rfl

/-- An instruction with an operand of fixed length is its opcode and the number of its operand. -/
theorem outcome_emit_of_operandValue {byte : UInt8} {format : OperandFormat} {ok : Bytes → Prop}
    {err : AssemblyError → Prop} (hopcode : instruction.opcode = .standard byte)
    (hformat : formatOf? byte = some format) (hregular : format ∉ irregular) (hldc : format ≠ .ldcIndex)
    (h : Emit.Outcome pool scope (instruction.operandValue format pc)
      (fun value => ok (byte :: Bytes.beInt format.operandLength value)) err) :
    Emit.Outcome pool scope (instruction.emit pc) ok err := by
  rw [formatOf?_eq] at hformat
  obtain ⟨info, hget, rfl⟩ := Option.map_eq_some_iff.1 hformat
  have hlength : info.length = 1 + info.format.operandLength :=
    length_of_mem_opcodeTable (Array.mem_of_getElem? hget) (by simp_all [irregular])
  have hbounds : 2 ≤ info.length ∧ info.length ≤ 5 := by
    rw [hlength]
    revert hregular
    cases info.format <;> decide
  have hfound : Emit.Outcome pool scope (Emit.ofExcept (Opcode.standard byte).info) (· = info) err := by
    rw [info_of_getElem? hget]
    exact .pure rfl
  have hnumber : ∀ value, Emit.Outcome pool scope
      (instruction.field pc value (info.length - 1) info.format.isSigned)
      (· = Bytes.beInt info.format.operandLength value) err := by
    intro value
    rw [hlength, Nat.add_sub_cancel_left]
    exact (reports_field ⟨value, _, _, value⟩ rfl (OperandField.fits_iff (by omega))).outcome fun _ _ h => h.1
  unfold emit
  simp only [hopcode]
  refine hfound.bind ?_
  rintro _ rfl
  rw [emitOperand_of_regular hregular]
  unfold fixedOperand
  rw [if_pos hbounds]
  refine Emit.Outcome.bind (h.bind fun value hvalue => ?_) fun operand hoperand => .pure hoperand
  rw [if_neg fun hldc' => hldc hldc'.1]
  refine (hnumber value).mono ?_ fun _ he => he
  rintro _ rfl
  exact hvalue

/-- The fields of an interface call in one number: the index of the method, the slots and a zero. -/
theorem beInt_interfaceCall (index count : Nat) :
    Bytes.beInt 4 (((index : Int) * 256 + (count : Int) % 256) * 256) =
      Bytes.be 2 index ++ [UInt8.ofNat count, 0] := by
  have hlast : ∀ z : Int, Bytes.beInt 4 (z * 256) = Bytes.beInt 3 z ++ Bytes.beInt 1 0 := by
    intro z
    rw [← Bytes.beInt_append 3 1, Int.zero_emod, Int.add_zero]
    rfl
  have hfirst : Bytes.beInt 3 ((index : Int) * 256 + (count : Int) % 256) =
      Bytes.beInt 2 index ++ Bytes.beInt 1 count :=
    Bytes.beInt_append 2 1 index count
  rw [hlast, hfirst, Bytes.beInt_natCast, Bytes.beInt_natCast, Bytes.beInt_zero, List.append_assoc]
  simp [Bytes.be, Bytes.capacity]

/-- A call that does not say how many slots its arguments take counts them. -/
theorem outcome_interfaceCall {count : Nat} {ok : Int → Prop} (hop : instruction.operand = .constant cell)
    (hextra : instruction.extra = none) (hcount : interfaceSlots? pool cell = some count)
    (hok : ∀ index : Nat, pool.index? cell = some index → ok (((index : Int) * 256 + (count : Int) % 256) * 256)) :
    Emit.Outcome pool scope (instruction.operandValue .interfaceCall pc) ok (fun _ => pool.index? cell = none) := by
  have hslots : Emit.Outcome pool scope (instruction.interfaceCount pc cell) (· = (count : Int))
      (fun _ => pool.index? cell = none) := by
    unfold interfaceCount
    rw [hextra]
    refine Emit.Outcome.read.bind ?_
    rintro _ rfl
    rw [hcount]
    exact .pure rfl
  have hindex : Emit.Outcome pool scope (constantIndex pc cell) (pool.index? cell = some ·)
      (fun _ => pool.index? cell = none) := by
    refine Emit.Outcome.read.bind ?_
    rintro _ rfl
    rw [Pool.index?]
    cases Pool.indexOf _ cell with
    | ok index => exact .pure rfl
    | error e => exact Emit.Outcome.methodName.bind fun _ _ => .throw rfl
  unfold operandValue
  rw [hop]
  refine hslots.bind ?_
  rintro _ rfl
  have hchecked : Emit.Outcome pool scope (instruction.checkFits pc count 1 false) (fun _ => True)
      (fun _ => pool.index? cell = none) :=
    (reports_checkFits ⟨count, 1, false, count⟩ rfl (OperandField.fits_iff (by decide))).outcome fun _ _ _ => trivial
  exact hchecked.bind fun _ _ => hindex.bind fun index hsome => .pure (hok index hsome)

/-- An interface call without a number of slots is written with the one that is counted. -/
theorem value?_emit_interfaceCall {count : Nat} (hopcode : instruction.opcode = .standard 0xB9)
    (hop : instruction.operand = .constant cell) (hextra : instruction.extra = none)
    (hcount : interfaceSlots? pool cell = some count) (s : Reported Scope) :
    Emit.value? (instruction.emit pc) pool s =
      (pool.index? cell).map fun index => 0xB9 :: (Bytes.be 2 index ++ [UInt8.ofNat count, 0]) := by
  have hwritten : Emit.Outcome pool s.state (instruction.emit pc)
      (fun bytes => ∃ index, pool.index? cell = some index ∧
        bytes = 0xB9 :: (Bytes.be 2 index ++ [UInt8.ofNat count, 0]))
      (fun _ => pool.index? cell = none) := by
    have hformat : formatOf? 0xB9 = some .interfaceCall := by decide
    refine outcome_emit_of_operandValue hopcode hformat (by decide) (by decide) ?_
    refine outcome_interfaceCall hop hextra hcount fun index hindex => ⟨index, hindex, ?_⟩
    rw [← beInt_interfaceCall]
    rfl
  obtain ⟨result, hyields, hresult⟩ := hwritten
  rw [show s = ⟨s.state, s.warnings⟩ from rfl, hyields.value?_eq]
  cases result with
  | ok bytes =>
    obtain ⟨index, hindex, rfl⟩ := hresult
    rw [hindex]
    rfl
  | error e =>
    rw [show pool.index? cell = none from hresult]
    rfl

open Descriptor (FieldType argumentSlots listing)

/-- The slots of the types that a descriptor lists are counted, whatever follows the list. A call of an interface method
with that descriptor that does not say how many slots there are is written with those of its arguments and of the
receiver, cut to a byte. -/
theorem slots_of_types (types : List FieldType) (suffix : List Char)
    (hfits : total FieldType.slots types < 0x100000000) :
    argumentSlots (String.ofList (listing FieldType.text types suffix)) = some (total FieldType.slots types) ∧
      ∀ pool cell, Pool.HasDescriptor pool cell (String.ofList (listing FieldType.text types suffix)) →
        ∀ instruction : Instruction, instruction.opcode = .standard 0xB9 → instruction.operand = .constant cell →
          instruction.extra = none → ∀ pc s, Emit.value? (instruction.emit pc) pool s =
            (pool.index? cell).map fun index =>
              0xB9 :: (Bytes.be 2 index ++ [UInt8.ofNat (1 + total FieldType.slots types), 0]) := by
  have hslots := Descriptor.argumentSlots_listing types suffix hfits
  refine ⟨hslots, fun pool cell hcell instruction hopcode hop hextra pc s => ?_⟩
  have hcount : interfaceSlots? pool cell = some (1 + total FieldType.slots types) := by
    rw [interfaceSlots?_eq hcell, hslots, Nat.add_comm]
    rfl
  exact value?_emit_interfaceCall hopcode hop hextra hcount s

/-- Types that are not to be told apart by their first characters. -/
private def mixedTypes : List FieldType :=
  [.base .long, .array (.array (.base .long)), .object ⟨['A', '[', ')', 'J'], by decide⟩, .base .double]

/-- A pool with an interface method that has arguments of those types. -/
private def calledPool : Pool :=
  (PoolOp.finalize #[]).apply (((Pool.empty.addEntry (.utf8 "(J[[JLA[)J;D)V")).addEntry
    (.nameAndType ⟨1⟩ ⟨1⟩)).addEntry (.member .interfaceMethod ⟨1⟩ ⟨2⟩))

/-- The arrays and the class take one slot, and the receiver makes seven. -/
theorem slots_of_types_mixed : argumentSlots "(J[[JLA[)J;D)V" = some 6 ∧
    Emit.value? (emit { opcode := .standard 0xB9, operand := .constant ⟨3⟩ } 0) calledPool ⟨{}, #[]⟩ =
      some [0xB9, 0, 3, 7, 0] := by
  have htext : String.ofList (listing FieldType.text mixedTypes ['V']) = "(J[[JLA[)J;D)V" := by decide
  obtain ⟨hslots, hcall⟩ := slots_of_types mixedTypes ['V'] (by decide)
  rw [htext] at hslots hcall
  have hmethod : calledPool.HasDescriptor ⟨3⟩ "(J[[JLA[)J;D)V" :=
    ⟨.interfaceMethod, ⟨1⟩, ⟨2⟩, ⟨1⟩, ⟨1⟩, rfl, by decide, rfl, rfl⟩
  exact ⟨hslots, hcall calledPool ⟨3⟩ hmethod _ rfl rfl rfl 0 ⟨{}, #[]⟩⟩

end Instruction

end JvmAssembler
