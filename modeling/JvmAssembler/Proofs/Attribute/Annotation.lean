import JvmAssembler.Attribute.Annotation
import JvmAssembler.Proofs.Emission

/-!
# The lengths of annotations

Values of annotations are nested to any depth. `ElementValue.nestedInduction` is induction with a hypothesis
for each value directly inside of a value, and with it the lengths of values and of annotations are those of
their bytes.
-/

namespace JvmAssembler

/-- The values directly inside of a value. -/
def ElementValue.parts : ElementValue → List ElementValue
  | .nested value => value.elements.map (·.value)
  | .array values => values
  | _ => []

private theorem ElementValue.sizeOf_lt_of_mem_parts {value part : ElementValue} (h : part ∈ value.parts) :
    sizeOf part < sizeOf value := by
  cases value with
  | constant | enumerator | classInfo => cases h
  | nested value =>
    obtain ⟨typeName, elements⟩ := value
    obtain ⟨⟨name, value⟩, hpair, rfl⟩ := List.mem_map.1 h
    have hlt := List.sizeOf_lt_of_mem hpair
    simp only [ElementValue.nested.sizeOf_spec, AnnotationOf.mk.sizeOf_spec, ElementPair.mk.sizeOf_spec] at hlt ⊢
    omega
  | array values =>
    have hlt : sizeOf part < sizeOf values := List.sizeOf_lt_of_mem h
    simp only [ElementValue.array.sizeOf_spec]
    omega

@[elab_as_elim]
theorem ElementValue.nestedInduction {motive : ElementValue → Prop}
    (step : ∀ value, (∀ part ∈ value.parts, motive part) → motive value) (value : ElementValue) : motive value :=
  (measure sizeOf).wf.induction value fun value ih => step value fun part hpart => ih part (sizeOf_lt_of_mem_parts hpart)

theorem ElementValue.lengthAll_eq (values : List ElementValue) :
    ElementValue.lengthAll values = total ElementValue.length values := by
  induction values with
  | nil => rfl
  | cons value values ih => rw [ElementValue.lengthAll, ih, total_cons]

theorem ElementPair.lengthAll_eq (pairs : List (ElementPair ElementValue)) :
    ElementPair.lengthAll pairs = total ElementPair.length pairs := by
  induction pairs with
  | nil => rfl
  | cons pair pairs ih => rw [ElementPair.lengthAll, ih, total_cons]

variable {pool : Pool} {scope : Scope}

private theorem ElementPair.ensures_length_of_value {pair : ElementPair ElementValue}
    (h : Emit.Ensures pool scope pair.value.emit (fun bytes => bytes.length = pair.value.length)) :
    Emit.Ensures pool scope (ElementPair.emit pair) (fun bytes => bytes.length = ElementPair.length pair) := by
  obtain ⟨name, value⟩ := pair
  refine Emit.Ensures.cell_length.bind fun index hindex => h.bind fun bytes hbytes => .pure ?_
  rw [List.length_append, hindex, hbytes, ElementPair.length]

private theorem AnnotationOf.ensures_length_of_values {item : Annotation}
    (h : ∀ pair ∈ item.elements,
      Emit.Ensures pool scope pair.value.emit (fun bytes => bytes.length = pair.value.length)) :
    Emit.Ensures pool scope (AnnotationOf.emit item) (fun bytes => bytes.length = AnnotationOf.length item) := by
  obtain ⟨typeName, elements⟩ := item
  refine Emit.Ensures.cell_length.bind fun index hindex => Emit.Ensures.count.bind fun count hcount => ?_
  have hrow := Emit.Ensures.row ElementPair.emitAll (fun _ => rfl) (fun _ _ _ => rfl)
    fun pair (hpair : pair ∈ elements) => ElementPair.ensures_length_of_value (h pair hpair)
  refine hrow.bind fun bytes hbytes => .pure ?_
  obtain ⟨parts, rfl, hparts⟩ := hbytes
  have hlength := Emit.length_flatten hparts
  rw [List.length_append, List.length_append, hindex, hcount.2, Bytes.length_be, hlength, AnnotationOf.length,
    ElementPair.lengthAll_eq]

theorem ElementValue.ensures_length (value : ElementValue) :
    Emit.Ensures pool scope value.emit (fun bytes => bytes.length = value.length) := by
  induction value using ElementValue.nestedInduction with
  | step value ih =>
    cases value with
    | constant type cell =>
      refine Emit.Ensures.cell_length.bind fun index hindex => .pure ?_
      rw [List.length_cons, hindex, ElementValue.length]
    | enumerator typeName constName =>
      refine Emit.Ensures.cell_length.bind fun type htype => Emit.Ensures.cell_length.bind fun name hname => .pure ?_
      rw [List.length_cons, List.length_append, htype, hname, ElementValue.length]
    | classInfo descriptor =>
      refine Emit.Ensures.cell_length.bind fun index hindex => .pure ?_
      rw [List.length_cons, hindex, ElementValue.length]
    | nested value =>
      have hvalues : ∀ pair ∈ value.elements,
          Emit.Ensures pool scope pair.value.emit (fun bytes => bytes.length = pair.value.length) :=
        fun pair hpair => ih pair.value (List.mem_map_of_mem hpair)
      refine (AnnotationOf.ensures_length_of_values hvalues).bind fun bytes hbytes => .pure ?_
      rw [List.length_cons, hbytes, ElementValue.length, Nat.add_comm]
    | array values =>
      refine Emit.Ensures.count.bind fun count hcount => ?_
      have hvalues : ∀ value ∈ values,
          Emit.Ensures pool scope value.emit (fun bytes => bytes.length = value.length) := ih
      have hrow := Emit.Ensures.row ElementValue.emitAll (fun _ => rfl) (fun _ _ _ => rfl) hvalues
      refine hrow.bind fun bytes hbytes => .pure ?_
      obtain ⟨parts, rfl, hparts⟩ := hbytes
      have hlength := Emit.length_flatten hparts
      rw [List.length_cons, List.length_append, hcount.2, Bytes.length_be, hlength, ElementValue.length,
        ElementValue.lengthAll_eq]
      omega

theorem ElementPair.ensures_length (pair : ElementPair ElementValue) :
    Emit.Ensures pool scope (ElementPair.emit pair) (fun bytes => bytes.length = ElementPair.length pair) :=
  ElementPair.ensures_length_of_value pair.value.ensures_length

theorem AnnotationOf.ensures_length (item : Annotation) :
    Emit.Ensures pool scope (AnnotationOf.emit item) (fun bytes => bytes.length = AnnotationOf.length item) :=
  AnnotationOf.ensures_length_of_values fun pair _ => pair.value.ensures_length

end JvmAssembler
