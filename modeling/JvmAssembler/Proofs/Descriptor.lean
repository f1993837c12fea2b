import JvmAssembler.Descriptor
import JvmAssembler.Widths
import Mathlib.Data.Set.List

/-!
# The arguments of a descriptor

The type of an argument is a primitive type, a class, or an array of such types (`FieldType`), and the arguments of a
method stand one after the other in parentheses (`listing`). Counting their slots goes through such a list argument by
argument (`scan_text`, `scan_listing`), and what it counts is such a list (`exists_listing`), with one exception: the
element type of an array may be any character (`Argument.unknown`). No argument starts with another one
(`Argument.text_append_inj`), so a text is a list of arguments in one way at most.
-/

namespace JvmAssembler.Descriptor

/-! ### Types -/

/-- A primitive type. -/
inductive BaseType where
  | byte | char | double | float | int | long | short | boolean
  deriving DecidableEq, Repr

namespace BaseType

/-- The letter that stands for a primitive type. -/
def letter : BaseType → Char
  | byte => 'B' | char => 'C' | double => 'D' | float => 'F'
  | int => 'I' | long => 'J' | short => 'S' | boolean => 'Z'

/-- The slots that a value takes. -/
def slots : BaseType → Nat
  | double | long => 2
  | _ => 1

theorem letter_injective {a b : BaseType} (h : a.letter = b.letter) : a = b := by
  revert h
  cases a <;> cases b <;> decide

end BaseType

/-- The name of a class in a descriptor, which only a semicolon ends. -/
structure ClassName where
  chars : List Char
  no_semicolon : ';' ∉ chars
  deriving DecidableEq, Repr

/-- The type of a field or of an argument. -/
inductive FieldType where
  | base (type : BaseType)
  | object (name : ClassName)
  | array (element : FieldType)
  deriving DecidableEq, Repr

namespace FieldType

def text : FieldType → List Char
  | base type => [type.letter]
  | object name => 'L' :: (name.chars ++ [';'])
  | array element => '[' :: element.text

/-- The slots that an argument of the type takes. -/
def slots : FieldType → Nat
  | base type => type.slots
  | object _ | array _ => 1

end FieldType

/-- The characters that types start with. -/
def typeStarts : List Char := ['B', 'C', 'D', 'F', 'I', 'J', 'S', 'Z', 'L', '[']

theorem mem_typeStarts_iff {c : Char} :
    c ∈ typeStarts ↔ (∃ type : BaseType, type.letter = c) ∨ c = 'L' ∨ c = '[' := by
  constructor
  · intro h
    simp only [typeStarts, List.mem_cons, List.not_mem_nil, or_false] at h
    rcases h with rfl | rfl | rfl | rfl | rfl | rfl | rfl | rfl | rfl | rfl
    exacts [.inl ⟨.byte, rfl⟩, .inl ⟨.char, rfl⟩, .inl ⟨.double, rfl⟩, .inl ⟨.float, rfl⟩, .inl ⟨.int, rfl⟩,
      .inl ⟨.long, rfl⟩, .inl ⟨.short, rfl⟩, .inl ⟨.boolean, rfl⟩, .inr (.inl rfl), .inr (.inr rfl)]
  · rintro (⟨type, rfl⟩ | rfl | rfl)
    · cases type <;> decide
    · decide
    · decide

/-- What is counted as one argument. -/
inductive Argument where
  | type (type : FieldType)
  /-- A character that starts no type, behind a bracket and `brackets` more of them. -/
  | unknown (brackets : Nat) (element : Char) (starts_none : element ∉ typeStarts)
  deriving DecidableEq, Repr

namespace Argument

def text : Argument → List Char
  | type t => t.text
  | unknown brackets element _ => List.replicate (brackets + 1) '[' ++ [element]

def slots : Argument → Nat
  | type t => t.slots
  | unknown _ _ _ => 1

/-- Whether an argument is of a type. -/
def IsType (argument : Argument) : Prop := ∃ t, type t = argument

/-- The array of an argument. -/
def bracket : Argument → Argument
  | type t => type t.array
  | unknown brackets element h => unknown (brackets + 1) element h

@[simp] theorem text_bracket (argument : Argument) : argument.bracket.text = '[' :: argument.text := by
  cases argument with
  | type t => rfl
  | unknown brackets element h => rfl

@[simp] theorem slots_bracket (argument : Argument) : argument.bracket.slots = 1 := by
  cases argument <;> rfl

/-- What an argument may be: not an array, or the array of an argument. -/
@[elab_as_elim] theorem bracketCases {motive : Argument → Prop} (base : ∀ t, motive (type (.base t)))
    (object : ∀ name, motive (type (.object name))) (unknown : ∀ c h, motive (unknown 0 c h))
    (bracket : ∀ a : Argument, motive a.bracket) (argument : Argument) : motive argument := by
  cases argument with
  | type t =>
    cases t with
    | base t => exact base t
    | object name => exact object name
    | array element => exact bracket (.type element)
  | unknown brackets c h =>
    cases brackets with
    | zero => exact unknown c h
    | succ brackets => exact bracket (.unknown brackets c h)

/-- Arguments, from the innermost element outwards. -/
@[elab_as_elim] theorem bracketInduction {motive : Argument → Prop} (base : ∀ t, motive (type (.base t)))
    (object : ∀ name, motive (type (.object name))) (unknown : ∀ c h, motive (unknown 0 c h))
    (bracket : ∀ a, motive a → motive a.bracket) (argument : Argument) : motive argument := by
  cases argument with
  | type t =>
    induction t with
    | base t => exact base t
    | object name => exact object name
    | array element ih => exact bracket (.type element) ih
  | unknown brackets c h =>
    induction brackets with
    | zero => exact unknown c h
    | succ brackets ih => exact bracket (.unknown brackets c h) ih

theorem exists_text_eq_cons (argument : Argument) : ∃ c rest, argument.text = c :: rest ∧ c ∈ typeStarts := by
  cases argument using bracketCases with
  | base t => exact ⟨_, [], rfl, by cases t <;> decide⟩
  | object name => exact ⟨'L', _, rfl, by decide⟩
  | unknown c h => exact ⟨'[', [c], rfl, by decide⟩
  | bracket a => exact ⟨'[', a.text, text_bracket a, by decide⟩

end Argument

/-- A text that starts with items in parentheses. -/
def listing {α : Type} (text : α → List Char) (items : List α) (suffix : List Char) : List Char :=
  '(' :: (items.flatMap text ++ ')' :: suffix)

/-- Whether a text starts with a list of types in parentheses. -/
def WellFormed (descriptor : String) : Prop :=
  ∃ types suffix, descriptor.toList = listing FieldType.text types suffix

/-! ### Counting along a list -/

/-- The scan behind an argument that takes `taken` slots. -/
def scanBehind (slots taken : Nat) (rest : List Char) : Option Nat :=
  if slots + taken < slotLimit then scan .argument (slots + taken) rest else none

variable {slots n : Nat} {text rest : List Char}

theorem scan_base (type : BaseType) :
    scan .argument slots (type.letter :: rest) = scanBehind slots type.slots rest := by
  cases type <;> rfl

/-- Behind a bracket, a character that starts no type is the element of an array. -/
theorem scan_element_of_notMem {c : Char} (h : c ∉ typeStarts) :
    scan .element slots (c :: rest) = scanBehind slots 1 rest := by
  simp only [typeStarts, List.mem_cons, not_or] at h
  rw [scan]
  · rfl
  · tauto
  · tauto

theorem scan_className (name : ClassName) :
    scan .className slots (name.chars ++ [';'] ++ rest) = scanBehind slots 1 rest := by
  obtain ⟨chars, hchars⟩ := name
  induction chars with
  | nil => rfl
  | cons c chars ih =>
    simp only [List.mem_cons, not_or] at hchars
    have hc : c ≠ ';' := fun h => hchars.1 h.symm
    rw [List.cons_append, List.cons_append, scan, if_neg hc]
    exact ih hchars.2

/-- Behind a bracket, every argument is the element of an array. -/
theorem scan_element (argument : Argument) :
    scan .element slots (argument.text ++ rest) = scanBehind slots 1 rest := by
  induction argument using Argument.bracketInduction with
  | base t => cases t <;> rfl
  | object name => exact scan_className name
  | unknown c h => exact scan_element_of_notMem h
  | bracket a ih =>
    rw [Argument.text_bracket]
    exact ih

/-- An argument adds its slots to the count. -/
theorem scan_text (argument : Argument) :
    scan .argument slots (argument.text ++ rest) = scanBehind slots argument.slots rest := by
  cases argument using Argument.bracketCases with
  | base t => exact scan_base t
  | object name => exact scan_className name
  | unknown c h => exact scan_element_of_notMem h
  | bracket a =>
    rw [Argument.text_bracket, Argument.slots_bracket]
    exact scan_element a

/-- A list of arguments has the slots of all of them, unless these are too many for a word. -/
theorem scan_listing (arguments : List Argument) (suffix : List Char) (h : slots < slotLimit) :
    scan .argument slots (arguments.flatMap Argument.text ++ ')' :: suffix) =
      if slots + total Argument.slots arguments < slotLimit then some (slots + total Argument.slots arguments)
      else none := by
  induction arguments generalizing slots with
  | nil => exact (if_pos h).symm
  | cons argument arguments ih =>
    rw [List.flatMap_cons, List.append_assoc, scan_text, scanBehind, total_cons, ← Nat.add_assoc]
    by_cases hfits : slots + argument.slots < slotLimit
    · rw [if_pos hfits, ih hfits]
    · have hlarge : ¬ slots + argument.slots + total Argument.slots arguments < slotLimit := by omega
      rw [if_neg hfits, if_neg hlarge]

/-! ### What is counted -/

theorem exists_name (h : scan .className slots text = some n) :
    ∃ (name : ClassName) (rest : List Char), text = name.chars ++ ';' :: rest ∧ scanBehind slots 1 rest = some n := by
  induction text with
  | nil => cases h
  | cons c text ih =>
    rw [scan] at h
    by_cases hc : c = ';'
    · subst hc
      exact ⟨⟨[], by simp⟩, text, rfl, h⟩
    · rw [if_neg hc] at h
      obtain ⟨⟨chars, hchars⟩, rest, rfl, hrest⟩ := ih h
      have hname : ';' ∉ c :: chars := by
        simp only [List.mem_cons, not_or]
        exact ⟨fun h => hc h.symm, hchars⟩
      exact ⟨⟨c :: chars, hname⟩, rest, rfl, hrest⟩

theorem exists_object (h : scan .className slots text = some n) :
    ∃ (name : ClassName) (rest : List Char), 'L' :: text = FieldType.text (.object name) ++ rest ∧
      scanBehind slots 1 rest = some n := by
  obtain ⟨name, rest, rfl, hrest⟩ := exists_name h
  exact ⟨name, rest, by simp [FieldType.text], hrest⟩

/-- Behind a bracket stands the element of an array. -/
theorem exists_array (h : scan .element slots text = some n) :
    ∃ (argument : Argument) (rest : List Char), '[' :: text = argument.text ++ rest ∧ argument.slots = 1 ∧
      scanBehind slots 1 rest = some n := by
  induction text with
  | nil => cases h
  | cons c text ih =>
    by_cases hstarts : c ∈ typeStarts
    · rcases mem_typeStarts_iff.1 hstarts with ⟨type, rfl⟩ | rfl | rfl
      · have hcount : scan .element slots (type.letter :: text) = _ := scan_element (.type (.base type))
        exact ⟨.type (.array (.base type)), text, rfl, rfl, hcount.symm.trans h⟩
      · obtain ⟨name, rest, htext, hrest⟩ := exists_object h
        exact ⟨.type (.array (.object name)), rest, by rw [htext]; rfl, rfl, hrest⟩
      · obtain ⟨argument, rest, htext, -, hrest⟩ := ih h
        exact ⟨argument.bracket, rest, by simp [htext], argument.slots_bracket, hrest⟩
    · exact ⟨.unknown 0 c hstarts, text, rfl, rfl, (scan_element_of_notMem hstarts).symm.trans h⟩

/-- The list ends, or it goes on with an argument. -/
theorem exists_argument (h : scan .argument slots text = some n) :
    (∃ suffix, text = ')' :: suffix) ∨
      ∃ (argument : Argument) (rest : List Char), text = argument.text ++ rest ∧
        scanBehind slots argument.slots rest = some n := by
  cases text with
  | nil => cases h
  | cons c text =>
    by_cases hclose : c = ')'
    · subst hclose
      exact .inl ⟨text, rfl⟩
    by_cases hstarts : c ∈ typeStarts
    · right
      rcases mem_typeStarts_iff.1 hstarts with ⟨type, rfl⟩ | rfl | rfl
      · exact ⟨.type (.base type), text, rfl, (scan_base type).symm.trans h⟩
      · obtain ⟨name, rest, htext, hrest⟩ := exists_object h
        exact ⟨.type (.object name), rest, htext, hrest⟩
      · obtain ⟨argument, rest, htext, hslots, hrest⟩ := exists_array h
        exact ⟨argument, rest, htext, by rw [hslots]; exact hrest⟩
    · rw [scan] at h
      · cases h
      · exact hclose
      -- What is left is that the character is none of those that start a type.
      all_goals
        rintro rfl
        exact hstarts (by decide)

/-- What is counted is a list of arguments. -/
theorem exists_listing {slots : Nat} {text : List Char} (h : scan .argument slots text = some n) :
    ∃ (arguments : List Argument) (suffix : List Char), text = arguments.flatMap Argument.text ++ ')' :: suffix := by
  rcases exists_argument h with ⟨suffix, rfl⟩ | ⟨argument, rest, rfl, hrest⟩
  · exact ⟨[], suffix, rfl⟩
  · have hcount : scan .argument (slots + argument.slots) rest = some n := by
      rw [scanBehind] at hrest
      split at hrest
      · exact hrest
      · cases hrest
    obtain ⟨c, tail, htext, -⟩ := argument.exists_text_eq_cons
    have hshorter : rest.length < (argument.text ++ rest).length := by
      simp only [htext, List.cons_append, List.length_cons, List.length_append]
      omega
    obtain ⟨arguments, suffix, hlist⟩ := exists_listing hcount
    exact ⟨argument :: arguments, suffix, by rw [List.flatMap_cons, List.append_assoc, ← hlist]⟩
termination_by text.length

/-- The slots that are counted are those of the arguments that the text lists. -/
theorem argumentSlots_eq_some_iff {descriptor : String} :
    argumentSlots descriptor = some n ↔ ∃ arguments suffix,
      descriptor.toList = listing Argument.text arguments suffix ∧ total Argument.slots arguments = n ∧
        n < slotLimit := by
  have hlimit : 0 < slotLimit := by decide
  constructor
  · intro h
    rw [argumentSlots] at h
    split at h
    · rename_i rest hopen
      obtain ⟨arguments, suffix, rfl⟩ := exists_listing h
      rw [scan_listing arguments suffix hlimit, Nat.zero_add] at h
      split at h
      · rename_i hfits
        obtain rfl := Option.some.inj h
        exact ⟨arguments, suffix, hopen, rfl, hfits⟩
      · cases h
    · cases h
  · rintro ⟨arguments, suffix, hlist, rfl, hfits⟩
    rw [argumentSlots, hlist]
    show scan .argument 0 (arguments.flatMap Argument.text ++ ')' :: suffix) = _
    rw [scan_listing arguments suffix hlimit, Nat.zero_add, if_pos hfits]

/-! ### One way to read a list -/

private theorem name_append_inj {a b x y : List Char} (ha : ';' ∉ a) (hb : ';' ∉ b)
    (h : a ++ ';' :: x = b ++ ';' :: y) : a = b ∧ x = y := by
  induction a generalizing b with
  | nil =>
    cases b with
    | nil => exact ⟨rfl, (List.cons.inj h).2⟩
    | cons c b => exact absurd (by rw [(List.cons.inj h).1]; simp) hb
  | cons c a ih =>
    cases b with
    | nil => exact absurd (by rw [(List.cons.inj h).1]; simp) ha
    | cons d b =>
      obtain ⟨rfl, htail⟩ := List.cons.inj h
      simp only [List.mem_cons, not_or] at ha hb
      obtain ⟨rfl, hrest⟩ := ih ha.2 hb.2 htail
      exact ⟨rfl, hrest⟩

namespace Argument

/-- What an argument is, by the character that it starts with. -/
theorem text_append_cases {argument : Argument} {c : Char} {y z : List Char} (h : argument.text ++ y = c :: z) :
    (∃ t : BaseType, c = t.letter ∧ argument = type (.base t) ∧ z = y) ∨
    (∃ name : ClassName, c = 'L' ∧ argument = type (.object name) ∧ z = name.chars ++ ';' :: y) ∨
    c = '[' ∧ ((∃ d hd, argument = unknown 0 d hd ∧ z = d :: y) ∨
      ∃ element : Argument, argument = element.bracket ∧ z = element.text ++ y) := by
  cases argument using bracketCases with
  | base t =>
    obtain ⟨rfl, rfl⟩ := List.cons.inj h
    exact .inl ⟨t, rfl, rfl, rfl⟩
  | object name =>
    obtain ⟨rfl, rfl⟩ := List.cons.inj h
    exact .inr (.inl ⟨name, rfl, rfl, by simp⟩)
  | unknown d hd =>
    obtain ⟨rfl, rfl⟩ := List.cons.inj h
    exact .inr (.inr ⟨rfl, .inl ⟨d, hd, rfl, rfl⟩⟩)
  | bracket element =>
    rw [text_bracket] at h
    obtain ⟨rfl, rfl⟩ := List.cons.inj h
    exact .inr (.inr ⟨rfl, .inr ⟨element, rfl, rfl⟩⟩)

theorem text_append_ne {argument : Argument} {c : Char} {y z : List Char} (hc : c ∉ typeStarts) :
    argument.text ++ y ≠ c :: z := by
  obtain ⟨d, rest, htext, hd⟩ := argument.exists_text_eq_cons
  rw [htext]
  rintro ⟨⟩
  exact hc hd

/-- No argument starts with another one. -/
theorem text_append_inj {a b : Argument} {x y : List Char} (h : a.text ++ x = b.text ++ y) : a = b ∧ x = y := by
  have hletter : ∀ t : BaseType, t.letter ≠ 'L' ∧ t.letter ≠ '[' := by
    intro t
    cases t <;> decide
  induction a using bracketInduction generalizing b with
  | base t =>
    rcases text_append_cases h.symm with ⟨u, htu, rfl, rfl⟩ | ⟨_, htu, _⟩ | ⟨htu, _⟩
    · exact ⟨by rw [BaseType.letter_injective htu], rfl⟩
    · exact absurd htu (hletter t).1
    · exact absurd htu (hletter t).2
  | object name =>
    rcases text_append_cases h.symm with ⟨u, hlu, _⟩ | ⟨name', -, rfl, hname⟩ | ⟨hl, _⟩
    · exact absurd hlu.symm (hletter u).1
    · have hends : name.chars ++ ';' :: x = name'.chars ++ ';' :: y := by simpa using hname
      obtain ⟨hchars, hrest⟩ := name_append_inj name.no_semicolon name'.no_semicolon hends
      obtain ⟨chars, _⟩ := name
      subst hchars
      exact ⟨rfl, hrest⟩
    · exact absurd hl (by decide)
  | unknown c hc =>
    rcases text_append_cases h.symm with ⟨u, hbu, _⟩ | ⟨_, hb, _⟩ | ⟨-, ⟨d, hd, rfl, hcd⟩ | ⟨element, -, helement⟩⟩
    · exact absurd hbu.symm (hletter u).2
    · exact absurd hb (by decide)
    · obtain ⟨rfl, rfl⟩ := List.cons.inj hcd
      exact ⟨rfl, rfl⟩
    · exact absurd helement.symm (text_append_ne hc)
  | bracket a ih =>
    rw [text_bracket] at h
    rcases text_append_cases h.symm with ⟨u, hbu, _⟩ | ⟨_, hb, _⟩ | ⟨-, ⟨d, hd, -, hcd⟩ | ⟨element, rfl, helement⟩⟩
    · exact absurd hbu.symm (hletter u).2
    · exact absurd hb (by decide)
    · exact absurd hcd (text_append_ne hd)
    · obtain ⟨rfl, hrest⟩ := ih helement
      exact ⟨rfl, hrest⟩

end Argument

theorem flatMap_text_inj {a b : List Argument} {x y : List Char}
    (h : a.flatMap Argument.text ++ ')' :: x = b.flatMap Argument.text ++ ')' :: y) : a = b ∧ x = y := by
  have hclose : ')' ∉ typeStarts := by decide
  induction a generalizing b with
  | nil =>
    cases b with
    | nil => exact ⟨rfl, (List.cons.inj h).2⟩
    | cons argument b =>
      rw [List.flatMap_cons, List.append_assoc] at h
      exact absurd h.symm (Argument.text_append_ne hclose)
  | cons argument a ih =>
    cases b with
    | nil =>
      rw [List.flatMap_cons, List.append_assoc] at h
      exact absurd h (Argument.text_append_ne hclose)
    | cons argument' b =>
      rw [List.flatMap_cons, List.append_assoc, List.flatMap_cons, List.append_assoc] at h
      obtain ⟨rfl, hrest⟩ := Argument.text_append_inj h
      obtain ⟨rfl, hsuffix⟩ := ih hrest
      exact ⟨rfl, hsuffix⟩

/-- Types are arguments. -/
theorem listing_type (types : List FieldType) (suffix : List Char) :
    listing Argument.text (types.map Argument.type) suffix = listing FieldType.text types suffix := by
  rw [listing, List.flatMap_map]
  rfl

/-- A list of arguments is well-formed exactly if all of them are of types. -/
theorem wellFormed_iff {descriptor : String} {arguments : List Argument} {suffix : List Char}
    (h : descriptor.toList = listing Argument.text arguments suffix) :
    WellFormed descriptor ↔ ∀ argument ∈ arguments, argument.IsType := by
  constructor
  · rintro ⟨types, suffix', htypes⟩
    rw [h, ← listing_type] at htypes
    obtain ⟨rfl, -⟩ := flatMap_text_inj (List.cons.inj htypes).2
    intro argument hargument
    obtain ⟨t, -, ht⟩ := List.mem_map.1 hargument
    exact ⟨t, ht⟩
  · intro htypes
    have hrange : arguments ∈ Set.range (List.map Argument.type) := by
      rw [Set.range_list_map]
      exact htypes
    obtain ⟨types, rfl⟩ := hrange
    exact ⟨types, suffix, by rw [h, listing_type]⟩

/-- Slots are counted for the texts that start with a list of arguments, if the slots of all of them fit a word. Such a
list is well-formed unless it has an array whose element type is a character that starts no type. -/
theorem argumentSlots_accepts (descriptor : String) (n : Nat) :
    argumentSlots descriptor = some n ↔ ∃ arguments suffix,
      descriptor.toList = listing Argument.text arguments suffix ∧ total Argument.slots arguments = n ∧
        n < 0x100000000 ∧ (WellFormed descriptor ↔ ∀ argument ∈ arguments, argument.IsType) := by
  rw [argumentSlots_eq_some_iff]
  constructor
  · rintro ⟨arguments, suffix, hlist, hslots, hfits⟩
    exact ⟨arguments, suffix, hlist, hslots, hfits, wellFormed_iff hlist⟩
  · rintro ⟨arguments, suffix, hlist, hslots, hfits, -⟩
    exact ⟨arguments, suffix, hlist, hslots, hfits⟩

/-- The slots of an array of `Q` are counted, although no type starts with that letter. -/
theorem argumentSlots_unknownElement : argumentSlots "([Q)V" = some 1 ∧ ¬ WellFormed "([Q)V" := by
  have hlist : "([Q)V".toList = listing Argument.text [.unknown 0 'Q' (by decide)] ['V'] := rfl
  refine ⟨argumentSlots_eq_some_iff.2 ⟨_, _, hlist, rfl, by decide⟩, fun hformed => ?_⟩
  obtain ⟨t, ht⟩ := (wellFormed_iff hlist).1 hformed _ (List.mem_singleton.2 rfl)
  cases ht

end JvmAssembler.Descriptor
