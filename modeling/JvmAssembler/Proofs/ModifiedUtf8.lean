import JvmAssembler.ModifiedUtf8
import JvmAssembler.Widths

/-!
# Reading modified UTF-8

Decoding is done in two steps: bytes are read as UTF-16 code units, and code units as characters, where a high and
a low surrogate together are one character. `decode_encode` is proved by following a character through both steps.
What the encoding of a text looks like, its length and the bytes that may occur in it, follows from that of its
characters.
-/

namespace JvmAssembler.ModifiedUtf8

/-- Whether a byte continues a two- or three-byte form. -/
def IsTail (b : UInt8) : Prop := b.toNat / 0x40 = 0b10

instance (b : UInt8) : Decidable (IsTail b) := inferInstanceAs (Decidable (_ = _))

/-- The code units that bytes hold, in their one-, two- and three-byte forms. -/
def units? : Bytes → Option (List Nat)
  | [] => some []
  | a :: rest =>
    if 0x01 ≤ a.toNat ∧ a.toNat ≤ 0x7F then (units? rest).map (a.toNat :: ·)
    else if a.toNat / 0x20 = 0b110 then
      match rest with
      | b :: rest =>
        if IsTail b then (units? rest).map ((a.toNat % 0x20 * 0x40 + b.toNat % 0x40) :: ·) else none
      | [] => none
    else if a.toNat / 0x10 = 0b1110 then
      match rest with
      | b :: c :: rest =>
        if IsTail b ∧ IsTail c then
          (units? rest).map ((a.toNat % 0x10 * 0x1000 + b.toNat % 0x40 * 0x40 + c.toNat % 0x40) :: ·)
        else none
      | _ => none
    else none

/-- The characters that code units stand for. A surrogate stands for nothing on its own. -/
def chars? : List Nat → Option (List Char)
  | [] => some []
  | unit :: rest =>
    if 0xD800 ≤ unit ∧ unit < 0xDC00 then
      match rest with
      | low :: rest =>
        if 0xDC00 ≤ low ∧ low < 0xE000 then
          (chars? rest).map (Char.ofNat (0x10000 + (unit - 0xD800) * 0x400 + (low - 0xDC00)) :: ·)
        else none
      | [] => none
    else if 0xDC00 ≤ unit ∧ unit < 0xE000 then none
    else (chars? rest).map (Char.ofNat unit :: ·)

/-- The text that bytes are the encoding of. -/
def decode (bytes : Bytes) : Option String := do
  return String.ofList (← chars? (← units? bytes))

/-- The code units of a character. -/
def unitsOf (c : Char) : List Nat :=
  if c.toNat ≤ 0xFFFF then [c.toNat] else [highSurrogate c.toNat, lowSurrogate c.toNat]

private theorem toNat_bounds (c : Char) : c.toNat < 0xD800 ∨ 0xDFFF < c.toNat ∧ c.toNat < 0x110000 := c.valid

/-! ### From bytes to code units -/

theorem units?_twoBytes {code : Nat} (h : code ≤ 0x07FF) (rest : Bytes) :
    units? (twoBytes code ++ rest) = (units? rest).map (code :: ·) := by
  have ha : (UInt8.ofNat (0xC0 + code / 0x40 % 0x20)).toNat = 0xC0 + code / 0x40 := by
    rw [UInt8.toNat_ofNat']
    omega
  have hb : (UInt8.ofNat (0x80 + code % 0x40)).toNat = 0x80 + code % 0x40 := by
    rw [UInt8.toNat_ofNat']
    omega
  have hcode : (0xC0 + code / 0x40) % 0x20 * 0x40 + (0x80 + code % 0x40) % 0x40 = code := by omega
  have hone : ¬ (0x01 ≤ 0xC0 + code / 0x40 ∧ 0xC0 + code / 0x40 ≤ 0x7F) := by omega
  have htwo : (0xC0 + code / 0x40) / 0x20 = 0b110 := by omega
  have htail : (0x80 + code % 0x40) / 0x40 = 0b10 := by omega
  rw [twoBytes, List.cons_append, List.cons_append, List.nil_append, units?]
  simp only [IsTail, ha, hb, if_neg hone, if_pos htwo, if_pos htail, hcode]

theorem units?_threeBytes {code : Nat} (h : code ≤ 0xFFFF) (rest : Bytes) :
    units? (threeBytes code ++ rest) = (units? rest).map (code :: ·) := by
  have ha : (UInt8.ofNat (0xE0 + code / 0x1000 % 0x10)).toNat = 0xE0 + code / 0x1000 := by
    rw [UInt8.toNat_ofNat']
    omega
  have hb : (UInt8.ofNat (0x80 + code / 0x40 % 0x40)).toNat = 0x80 + code / 0x40 % 0x40 := by
    rw [UInt8.toNat_ofNat']
    omega
  have hc : (UInt8.ofNat (0x80 + code % 0x40)).toNat = 0x80 + code % 0x40 := by
    rw [UInt8.toNat_ofNat']
    omega
  have hcode : (0xE0 + code / 0x1000) % 0x10 * 0x1000 + (0x80 + code / 0x40 % 0x40) % 0x40 * 0x40 +
      (0x80 + code % 0x40) % 0x40 = code := by omega
  have hone : ¬ (0x01 ≤ 0xE0 + code / 0x1000 ∧ 0xE0 + code / 0x1000 ≤ 0x7F) := by omega
  have htwo : ¬ (0xE0 + code / 0x1000) / 0x20 = 0b110 := by omega
  have hthree : (0xE0 + code / 0x1000) / 0x10 = 0b1110 := by omega
  have htails : (0x80 + code / 0x40 % 0x40) / 0x40 = 0b10 ∧ (0x80 + code % 0x40) / 0x40 = 0b10 := by omega
  rw [threeBytes, List.cons_append, List.cons_append, List.cons_append, List.nil_append, units?]
  simp only [IsTail, ha, hb, hc, if_neg hone, if_neg htwo, if_pos hthree, if_pos htails, hcode]

theorem units?_encodeChar (c : Char) (rest : Bytes) :
    units? (encodeChar c ++ rest) = (units? rest).map (unitsOf c ++ ·) := by
  have hbounds := toNat_bounds c
  rw [encodeChar, unitsOf]
  by_cases hone : 0x0001 ≤ c.toNat ∧ c.toNat ≤ 0x007F
  · have hbyte : (UInt8.ofNat c.toNat).toNat = c.toNat := by
      rw [UInt8.toNat_ofNat']
      omega
    have hunit : c.toNat ≤ 0xFFFF := by omega
    rw [if_pos hone, if_pos hunit, List.cons_append, List.nil_append, units?.eq_def]
    simp only [hbyte, if_pos hone, List.cons_append, List.nil_append]
  by_cases htwo : c.toNat ≤ 0x07FF
  · have hunit : c.toNat ≤ 0xFFFF := by omega
    simp only [if_neg hone, if_pos htwo, if_pos hunit, units?_twoBytes htwo, List.cons_append, List.nil_append]
  by_cases hthree : c.toNat ≤ 0xFFFF
  · simp only [if_neg hone, if_neg htwo, if_pos hthree, units?_threeBytes hthree, List.cons_append, List.nil_append]
  · have hhigh : highSurrogate c.toNat ≤ 0xFFFF := by
      unfold highSurrogate
      omega
    have hlow : lowSurrogate c.toNat ≤ 0xFFFF := by
      unfold lowSurrogate
      omega
    simp only [if_neg hone, if_neg htwo, if_neg hthree, List.append_assoc, units?_threeBytes hhigh,
      units?_threeBytes hlow, Option.map_map, List.cons_append, List.nil_append]
    rfl

/-! ### From code units to characters -/

theorem chars?_unitsOf (c : Char) (rest : List Nat) :
    chars? (unitsOf c ++ rest) = (chars? rest).map (c :: ·) := by
  have hbounds := toNat_bounds c
  rw [unitsOf]
  by_cases hunit : c.toNat ≤ 0xFFFF
  · have hhigh : ¬ (0xD800 ≤ c.toNat ∧ c.toNat < 0xDC00) := by omega
    have hlow : ¬ (0xDC00 ≤ c.toNat ∧ c.toNat < 0xE000) := by omega
    rw [if_pos hunit, List.cons_append, List.nil_append, chars?.eq_def]
    simp only [if_neg hhigh, if_neg hlow, Char.ofNat_toNat]
  · have hhigh : 0xD800 ≤ highSurrogate c.toNat ∧ highSurrogate c.toNat < 0xDC00 := by
      unfold highSurrogate
      omega
    have hlow : 0xDC00 ≤ lowSurrogate c.toNat ∧ lowSurrogate c.toNat < 0xE000 := by
      unfold lowSurrogate
      omega
    have hcode : 0x10000 + (highSurrogate c.toNat - 0xD800) * 0x400 + (lowSurrogate c.toNat - 0xDC00) = c.toNat := by
      unfold highSurrogate lowSurrogate
      omega
    simp only [if_neg hunit, List.cons_append, List.nil_append, chars?, if_pos hhigh, if_pos hlow, hcode,
      Char.ofNat_toNat]

/-- Decoding gives back the text that was encoded. -/
theorem decode_encode (text : String) : decode (encode text) = some text := by
  have hunits : ∀ chars : List Char, units? (chars.flatMap encodeChar) = some (chars.flatMap unitsOf) := by
    intro chars
    induction chars with
    | nil => rfl
    | cons c chars ih => rw [List.flatMap_cons, units?_encodeChar, ih, Option.map_some, List.flatMap_cons]
  have hchars : ∀ chars : List Char, chars? (chars.flatMap unitsOf) = some chars := by
    intro chars
    induction chars with
    | nil => rfl
    | cons c chars ih => rw [List.flatMap_cons, chars?_unitsOf, ih, Option.map_some]
  show ((units? (encode text)).bind fun units => (chars? units).bind fun chars => some (String.ofList chars)) =
    some text
  rw [encode, hunits, Option.bind_some, hchars, Option.bind_some, String.ofList_toList]

/-! ### The bytes of an encoded text -/

/-- The number of bytes that a character takes. -/
def charLength (c : Char) : Nat :=
  if 0x0001 ≤ c.toNat ∧ c.toNat ≤ 0x007F then 1
  else if c.toNat = 0x0000 ∨ 0x0080 ≤ c.toNat ∧ c.toNat ≤ 0x07FF then 2
  else if c.toNat ≤ 0xFFFF then 3
  else 6

theorem length_encodeChar (c : Char) : (encodeChar c).length = charLength c := by
  rw [encodeChar, charLength]
  by_cases hone : 0x0001 ≤ c.toNat ∧ c.toNat ≤ 0x007F
  · rw [if_pos hone, if_pos hone, List.length_singleton]
  by_cases htwo : c.toNat ≤ 0x07FF
  · have hrange : c.toNat = 0x0000 ∨ 0x0080 ≤ c.toNat ∧ c.toNat ≤ 0x07FF := by omega
    rw [if_neg hone, if_neg hone, if_pos htwo, if_pos hrange]
    rfl
  · have hrange : ¬ (c.toNat = 0x0000 ∨ 0x0080 ≤ c.toNat ∧ c.toNat ≤ 0x07FF) := by omega
    rw [if_neg hone, if_neg hone, if_neg htwo, if_neg hrange]
    split <;> rfl

/-- The bytes that an encoded text may be made of. -/
def IsText (b : UInt8) : Prop := b ≠ 0 ∧ b ≤ 0xEF

private theorem isText_ofNat {n : Nat} (hpos : 0 < n) (hle : n ≤ 0xEF) : IsText (UInt8.ofNat n) := by
  have hnat : (UInt8.ofNat n).toNat = n := by
    rw [UInt8.toNat_ofNat']
    omega
  refine ⟨fun hzero => ?_, UInt8.le_iff_toNat_le.2 (by rw [hnat]; exact hle)⟩
  rw [hzero] at hnat
  exact absurd hnat (Nat.ne_of_lt hpos)

theorem isText_twoBytes (code : Nat) : ∀ b ∈ twoBytes code, IsText b := by
  intro b hb
  simp only [twoBytes, List.mem_cons, List.not_mem_nil, or_false] at hb
  rcases hb with rfl | rfl <;> exact isText_ofNat (by omega) (by omega)

theorem isText_threeBytes (code : Nat) : ∀ b ∈ threeBytes code, IsText b := by
  intro b hb
  simp only [threeBytes, List.mem_cons, List.not_mem_nil, or_false] at hb
  rcases hb with rfl | rfl | rfl <;> exact isText_ofNat (by omega) (by omega)

theorem isText_encodeChar (c : Char) : ∀ b ∈ encodeChar c, IsText b := by
  intro b hb
  rw [encodeChar] at hb
  split at hb
  · rename_i hone
    obtain rfl := List.mem_singleton.1 hb
    exact isText_ofNat hone.1 (by omega)
  split at hb
  · exact isText_twoBytes _ b hb
  split at hb
  · exact isText_threeBytes _ b hb
  · rcases List.mem_append.1 hb with hb | hb <;> exact isText_threeBytes _ b hb

/-- Texts have different encodings, which decode to the texts, hold neither a zero byte nor one above `0xEF`, and are
as long as their characters say. -/
theorem encode_faithful :
    Function.Injective encode ∧ ∀ text : String, decode (encode text) = some text ∧
      (∀ b ∈ encode text, b ≠ 0 ∧ b ≤ 0xEF) ∧
      (encode text).length = total charLength text.toList := by
  refine ⟨fun text other heq => ?_, fun text => ⟨decode_encode text, fun b hb => ?_, ?_⟩⟩
  · have hdecode := decode_encode text
    rw [heq, decode_encode] at hdecode
    exact (Option.some.inj hdecode).symm
  · obtain ⟨c, -, hc⟩ := List.mem_flatMap.1 hb
    exact isText_encodeChar c b hc
  · rw [encode]
    induction text.toList with
    | nil => rfl
    | cons c chars ih => rw [List.flatMap_cons, List.length_append, length_encodeChar, ih, total_cons]

end JvmAssembler.ModifiedUtf8
