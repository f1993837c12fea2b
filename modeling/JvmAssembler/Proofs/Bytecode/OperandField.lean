import JvmAssembler.Bytecode.Instruction
import JvmAssembler.Proofs.Reader

/-!
# The fields of operands

The operand of an instruction is a row of fields, each a number in a given width. Some rows are written as one number,
in which the fields stand side by side (`OperandField.packed`); whether the first field fits can then be told from the
whole number (`OperandField.fits_packed`), and the bytes of a field depend on its own number only
(`OperandField.written_packed`).
-/

namespace JvmAssembler

/-- A number in an operand, and the field that it is written in. -/
structure OperandField where
  value : Int
  /-- The width of the field in bytes. -/
  width : Nat
  isSigned : Bool
  /-- The number that a warning about the field gives. -/
  reported : Int
  deriving DecidableEq, Repr

namespace OperandField

/-- Whether the number is one of those that the field can hold. -/
def Fits (field : OperandField) : Prop :=
  if field.isSigned then
    -(Bytes.capacity field.width : Int) ≤ 2 * field.value ∧ 2 * field.value < Bytes.capacity field.width
  else 0 ≤ field.value ∧ field.value < Bytes.capacity field.width

instance (field : OperandField) : Decidable field.Fits := inferInstanceAs (Decidable (ite _ _ _))

/-- The bytes of fields in a row: of each number the low-order ones, most significant first. -/
inductive Written : List OperandField → Bytes → Prop where
  | nil : Written [] []
  | cons {field : OperandField} {fields : List OperandField} {bytes rest : Bytes} : bytes.length = field.width →
      (Bytes.toNat bytes : Int) = field.value % Bytes.capacity field.width → Written fields rest →
      Written (field :: fields) (bytes ++ rest)

/-- A number with a sign. -/
def signed (width : Nat) (value : Int) : OperandField := ⟨value, width, true, value⟩

/-- A number without a sign. -/
def unsigned (width : Nat) (value : Int) : OperandField := ⟨value, width, false, value⟩

/-- How many numbers there are in the width of fields side by side. -/
def room (fields : List OperandField) : Nat := Bytes.capacity (total width fields)

/-- The number in which fields stand side by side. -/
def number : List OperandField → Int
  | [] => 0
  | field :: rest => field.value % Bytes.capacity field.width * room rest + number rest

/-- A number without a sign in front of other fields, all of which are written as one number. A warning about the
first gives that number. -/
def packed (width : Nat) (value : Int) (rest : List OperandField) : List OperandField :=
  ⟨value, width, false, value * room rest + number rest⟩ :: rest

variable {field : OperandField} {fields more rest : List OperandField} {bytes : Bytes}

theorem room_pos (fields : List OperandField) : (0 : Int) < room fields := Int.natCast_pos.2 (Bytes.capacity_pos _)

theorem room_cons : room (field :: rest) = Bytes.capacity field.width * room rest := by
  rw [room, total_cons, Bytes.capacity_add]
  rfl

theorem Written.append {a b : Bytes} (h : Written fields a) (h' : Written more b) :
    Written (fields ++ more) (a ++ b) := by
  induction h with
  | nil => exact h'
  | cons hlength hnumber _ ih =>
    rw [List.append_assoc]
    exact .cons hlength hnumber ih

theorem Written.beInt {z : Int} (hz : z % Bytes.capacity field.width = field.value % Bytes.capacity field.width) :
    Written [field] (Bytes.beInt field.width z) := by
  rw [← List.append_nil (Bytes.beInt field.width z)]
  refine .cons (Bytes.length_beInt _ _) ?_ .nil
  have hpos : (0 : Int) < Bytes.capacity field.width := Int.natCast_pos.2 (Bytes.capacity_pos _)
  rw [Bytes.beInt, Bytes.toNat_be, Int.natCast_emod, Int.toNat_of_nonneg (Int.emod_nonneg _ (Int.ne_of_gt hpos)),
    Int.emod_emod, hz]

/-- The bytes of fields in a row are those of their numbers. -/
theorem Written.eq (h : Written fields bytes) :
    bytes = fields.flatMap fun field => Bytes.beInt field.width field.value := by
  induction h with
  | nil => rfl
  | cons hlength hnumber _ ih =>
    rw [List.flatMap_cons, ← ih, Bytes.beInt, ← hnumber, Int.toNat_natCast, ← hlength, Bytes.be_toNat]

/-- Fields that all fit, and their bytes. -/
structure Whole (fields : List OperandField) (bytes : Bytes) : Prop where
  fits : ∀ field ∈ fields, field.Fits
  written : Written fields bytes

theorem Whole.append {a b : Bytes} (h : Whole fields a) (h' : Whole more b) : Whole (fields ++ more) (a ++ b) where
  fits field hfield := (List.mem_append.1 hfield).elim (h.fits field) (h'.fits field)
  written := h.written.append h'.written

/-- The fields of items one after the other. -/
def row? {α : Type} (fields? : α → Option (List OperandField)) (items : List α) : Option (List OperandField) :=
  return (← items.mapM fields?).flatten

theorem Whole.row {α : Type} {fields? : α → Option (List OperandField)} {items : List α} {parts : List Bytes}
    (h : List.Forall₂ (fun a bytes => ∃ fields, fields? a = some fields ∧ Whole fields bytes) items parts) :
    ∃ fields, row? fields? items = some fields ∧ Whole fields parts.flatten := by
  have hrows : ∃ rows, items.mapM fields? = some rows ∧ Whole rows.flatten parts.flatten := by
    induction h with
    | nil => exact ⟨[], rfl, by simp, .nil⟩
    | cons hpart _ ih =>
      obtain ⟨fields, hfields, hpart⟩ := hpart
      obtain ⟨rows, hrows, hrest⟩ := ih
      exact ⟨fields :: rows, by rw [List.mapM_cons, hfields, hrows]; rfl, hpart.append hrest⟩
  obtain ⟨rows, hrows, hwhole⟩ := hrows
  exact ⟨rows.flatten, by rw [row?, hrows]; rfl, hwhole⟩

theorem whole_zeros (width : Nat) : Whole [unsigned width 0] (List.replicate width 0) where
  fits := by
    intro field hfield
    obtain rfl := List.mem_singleton.1 hfield
    exact ⟨Int.le_refl 0, Int.natCast_pos.2 (Bytes.capacity_pos width)⟩
  written := by
    rw [← Bytes.beInt_zero]
    exact .beInt rfl

theorem number_bounds (fields : List OperandField) :
    0 ≤ number fields ∧ number fields < room fields := by
  induction fields with
  | nil => exact ⟨Int.le_refl 0, by decide⟩
  | cons field rest ih =>
    have hwidth : (0 : Int) < Bytes.capacity field.width := Int.natCast_pos.2 (Bytes.capacity_pos _)
    have hrest := room_pos rest
    have hlow := Int.emod_nonneg field.value (Int.ne_of_gt hwidth)
    have hhigh := Int.emod_lt_of_pos field.value hwidth
    rw [number, room_cons, Int.natCast_mul]
    generalize (room rest : Int) = K at *
    have hle : (field.value % Bytes.capacity field.width + 1) * K ≤ Bytes.capacity field.width * K :=
      Int.mul_le_mul_of_nonneg_right (by omega) (Int.le_of_lt hrest)
    have hnonneg := Int.mul_nonneg hlow (Int.le_of_lt hrest)
    rw [Int.add_mul] at hle
    omega

/-- A number and the number behind it, in one number. -/
private theorem beInt_packed (width : Nat) (value : Int) (rest : List OperandField) :
    Bytes.beInt (width + total OperandField.width rest) (value * room rest + number rest) =
      Bytes.beInt width value ++ Bytes.beInt (total OperandField.width rest) (number rest) := by
  obtain ⟨hlow, hhigh⟩ := number_bounds rest
  rw [room] at hhigh ⊢
  rw [← Bytes.beInt_append, Int.emod_eq_of_lt hlow hhigh]

theorem written_number (fields : List OperandField) :
    Written fields (Bytes.beInt (total width fields) (number fields)) := by
  induction fields with
  | nil => exact .nil
  | cons field rest ih =>
    rw [number, total_cons, beInt_packed]
    exact (Written.beInt (Int.emod_emod ..)).append ih

/-- A field in a packed number takes the bytes that it would take on its own. -/
theorem written_packed (width : Nat) (value : Int) (rest : List OperandField) :
    Written (packed width value rest)
      (Bytes.beInt (width + total OperandField.width rest) (value * room rest + number rest)) := by
  rw [beInt_packed]
  exact (Written.beInt rfl).append (written_number rest)

/-! ### Checks of the range -/

theorem fits_iff {width : Nat} (hwidth : 0 < width) {isSigned : Bool} {value reported : Int} :
    Instruction.fits width isSigned value = true ↔ Fits ⟨value, width, isSigned, reported⟩ := by
  obtain ⟨w, rfl⟩ : ∃ w, width = w + 1 := ⟨width - 1, by omega⟩
  have hcapacity : Bytes.capacity (w + 1) = 256 * Bytes.capacity w := rfl
  cases isSigned with
  | true =>
    simp only [Instruction.fits, Fits, ↓reduceIte, decide_eq_true_eq, hcapacity]
    omega
  | false => simp only [Instruction.fits, Fits, Bool.false_eq_true, ↓reduceIte, decide_eq_true_eq]

/-- A packed number is too large or negative exactly if its first field is. -/
theorem fits_packed {width : Nat} {value : Int} {rest : List OperandField} {reported : Int} :
    Instruction.fits (width + total OperandField.width rest) false (value * room rest + number rest) = true ↔
      Fits ⟨value, width, false, reported⟩ := by
  obtain ⟨hlow, hhigh⟩ := number_bounds rest
  have hpos := room_pos rest
  have hroom : Bytes.capacity (total OperandField.width rest) = room rest := rfl
  simp only [Instruction.fits, Fits, Bool.false_eq_true, ↓reduceIte, decide_eq_true_eq, Bytes.capacity_add, hroom,
    Int.natCast_mul]
  generalize (room rest : Int) = K at *
  -- Dividing by the room of the other fields leaves the first.
  have hdiv : (value * K + number rest) / K = value := by
    rw [Int.add_comm, Int.add_mul_ediv_right _ _ (Int.ne_of_gt hpos), Int.ediv_eq_zero_of_lt hlow hhigh, Int.zero_add]
  rw [← Int.ediv_nonneg_iff_of_pos hpos, ← Int.ediv_lt_iff_lt_mul hpos, hdiv]

end OperandField

end JvmAssembler
