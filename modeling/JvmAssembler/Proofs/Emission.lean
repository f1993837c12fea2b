import JvmAssembler.Emission
import JvmAssembler.Proofs.Reader

/-!
# What writing ensures

`Emit.Ensures pool scope action post` says that `action`, run in `scope`, returns to that scope whether it
fails or not, and that its value satisfies `post` if it succeeds. There is a rule for each way of putting
writings together, so that what a part of a class file looks like follows its definition.
-/

namespace JvmAssembler

namespace Emit

variable {α β : Type} {pool : Pool} {scope : Scope}

/-- What a writing gives, if it succeeds. -/
def value? (action : Emit α) (pool : Pool) (s : Reported Scope) : Option α :=
  match action pool s with
  | .ok a _ => some a
  | .error _ _ => none

theorem exists_of_value? {action : Emit α} {s : Reported Scope} {a : α} (h : value? action pool s = some a) :
    ∃ s', action pool s = .ok a s' := by
  unfold value? at h
  split at h
  · rename_i s' hact
    cases h
    exact ⟨s', hact⟩
  · cases h

theorem length_flatten {items : List α} {parts : List Bytes} {length : α → Nat}
    (h : List.Forall₂ (fun a bytes => bytes.length = length a) items parts) :
    parts.flatten.length = total length items := by
  induction h with
  | nil => rfl
  | cons hpart _ ih => rw [List.flatten_cons, List.length_append, hpart, ih, total_cons]

theorem countedLength_const {width n : Nat} (items : List α) :
    Emit.countedLength width items (fun _ => n) = width + n * items.length := by
  rw [Emit.countedLength, total_const]

/-- The writing returns to its scope, and what it gives satisfies `post`. -/
def Ensures (pool : Pool) (scope : Scope) (action : Emit α) (post : α → Prop) : Prop :=
  ∀ warnings, match action pool ⟨scope, warnings⟩ with
    | .ok a s => s.state = scope ∧ post a
    | .error _ s => s.state = scope

namespace Ensures

theorem of_ok {action : Emit α} {post : α → Prop} (h : Ensures pool scope action post) {s s' : Reported Scope}
    {a : α} (hs : s.state = scope) (ha : action pool s = .ok a s') : s'.state = scope ∧ post a := by
  obtain ⟨state, warnings⟩ := s
  subst hs
  have := h warnings
  rwa [ha] at this

theorem mono {action : Emit α} {post post' : α → Prop} (h : Ensures pool scope action post)
    (himp : ∀ a, post a → post' a) : Ensures pool scope action post' := by
  intro warnings
  have := h warnings
  split at this
  · exact ⟨this.1, himp _ this.2⟩
  · exact this

theorem pure {post : α → Prop} {a : α} (h : post a) : Ensures pool scope (Pure.pure a) post :=
  fun _ => ⟨rfl, h⟩

theorem bind {action : Emit α} {next : α → Emit β} {mid : α → Prop} {post : β → Prop}
    (ha : Ensures pool scope action mid) (hnext : ∀ a, mid a → Ensures pool scope (next a) post) :
    Ensures pool scope (action >>= next) post := by
  intro warnings
  have h := ha warnings
  show match EStateM.bind (action pool) (fun a => next a pool) ⟨scope, warnings⟩ with
    | .ok b s => s.state = scope ∧ post b
    | .error _ s => s.state = scope
  unfold EStateM.bind
  cases hact : action pool ⟨scope, warnings⟩ with
  | ok a s =>
    rw [hact] at h
    obtain ⟨state, warnings'⟩ := s
    obtain ⟨rfl, hmid⟩ := h
    exact hnext a hmid warnings'
  | error e s =>
    rw [hact] at h
    exact h

theorem throw {e : AssemblyError} {post : α → Prop} : Ensures pool scope (throw e) post := fun _ => rfl

theorem read : Ensures pool scope (MonadReader.read : Emit Pool) (· = pool) := fun _ => ⟨rfl, rfl⟩

theorem get : Ensures pool scope (MonadState.get : Emit (Reported Scope)) (fun s => s.state = scope) :=
  fun _ => ⟨rfl, rfl⟩

theorem ofExcept {result : Except AssemblyError α} : Ensures pool scope (Emit.ofExcept result) (result = .ok ·) := by
  intro warnings
  cases result with
  | ok a => exact ⟨rfl, rfl⟩
  | error e => rfl

theorem inMethod {name : String} {action : Emit α} {post : α → Prop}
    (h : Ensures pool { scope with method := some name } action post) :
    Ensures pool scope (Emit.inMethod name action) post := by
  intro warnings
  have h := h warnings
  cases hact : action pool ⟨{ scope with method := some name }, warnings⟩ with
  | ok a s =>
    rw [hact] at h
    obtain ⟨state, warnings'⟩ := s
    obtain ⟨rfl, hpost⟩ := h
    simp only [Emit.inMethod, hact]
    exact ⟨trivial, hpost⟩
  | error e s =>
    rw [hact] at h
    obtain ⟨state, warnings'⟩ := s
    obtain rfl := h
    simp only [Emit.inMethod, hact]

theorem inCode {layout : Layout} {action : Emit α} {post : α → Prop}
    (h : Ensures pool { scope with code := some layout } action post) :
    Ensures pool scope (Emit.inCode layout action) post := by
  intro warnings
  have h := h warnings
  cases hact : action pool ⟨{ scope with code := some layout }, warnings⟩ with
  | ok a s =>
    rw [hact] at h
    obtain ⟨state, warnings'⟩ := s
    obtain ⟨rfl, hpost⟩ := h
    simp only [Emit.inCode, hact]
    exact ⟨trivial, hpost⟩
  | error e s =>
    rw [hact] at h
    obtain ⟨state, warnings'⟩ := s
    obtain rfl := h
    simp only [Emit.inCode, hact]

theorem mapM {items : List α} {item : α → Emit β} {post : α → β → Prop}
    (h : ∀ a ∈ items, Ensures pool scope (item a) (post a)) :
    Ensures pool scope (items.mapM item) (List.Forall₂ post items) := by
  induction items with
  | nil => exact pure .nil
  | cons a items ih =>
    rw [List.mapM_cons]
    refine (h a (by simp)).bind fun b hb => ?_
    refine (ih fun x hx => h x (by simp [hx])).bind fun bs hbs => ?_
    exact pure (.cons hb hbs)

/-- What is written for the items of a list, part by part. -/
theorem each {items : List α} {item : α → Emit Bytes} {post : α → Bytes → Prop}
    (h : ∀ a ∈ items, Ensures pool scope (item a) (post a)) :
    Ensures pool scope (Emit.each items item)
      (fun bytes => ∃ parts, bytes = parts.flatten ∧ List.Forall₂ post items parts) :=
  (mapM h).bind fun parts hparts => pure ⟨parts, rfl, hparts⟩

theorem and {action : Emit α} {post post' : α → Prop} (h : Ensures pool scope action post)
    (h' : Ensures pool scope action post') : Ensures pool scope action (fun a => post a ∧ post' a) := by
  intro warnings
  have h := h warnings
  have h' := h' warnings
  cases hact : action pool ⟨scope, warnings⟩ with
  | ok a s =>
    rw [hact] at h h'
    exact ⟨h.1, h.2, h'.2⟩
  | error e s =>
    rw [hact] at h
    exact h

/-- Items of a known length, one after the other. -/
theorem each_length {items : List α} {item : α → Emit Bytes} {length : α → Nat}
    (h : ∀ a ∈ items, Ensures pool scope (item a) (fun bytes => bytes.length = length a)) :
    Ensures pool scope (Emit.each items item) (fun bytes => bytes.length = total length items) := by
  refine (each h).mono ?_
  rintro _ ⟨parts, rfl, hparts⟩
  exact length_flatten hparts

/-- Items of one length, one after the other. -/
theorem each_length_const {items : List α} {item : α → Emit Bytes} {n : Nat}
    (h : ∀ a ∈ items, Ensures pool scope (item a) (fun bytes => bytes.length = n)) :
    Ensures pool scope (Emit.each items item) (fun bytes => bytes.length = n * items.length) := by
  refine (each_length h).mono fun bytes hbytes => ?_
  rw [hbytes, total_const]

/-- Items that a reader reads back, one after the other. -/
theorem each_reads {items : List α} {item : α → Emit Bytes} {value? : α → Option β} {reader : Reader β}
    (h : ∀ a ∈ items, Ensures pool scope (item a)
      (fun bytes => ∃ b, value? a = some b ∧ Reads reader bytes b)) :
    Ensures pool scope (Emit.each items item)
      (fun bytes => ∃ values, items.mapM value? = some values ∧
        Reads (Reader.many reader items.length) bytes values) := by
  refine (each h).mono ?_
  rintro _ ⟨parts, rfl, hparts⟩
  induction hparts with
  | nil => exact ⟨[], rfl, Reads.pure []⟩
  | cons hpart _ ih =>
    obtain ⟨b, hb, hread⟩ := hpart
    obtain ⟨values, hvalues, hreads⟩ := ih fun a ha => h a (by simp [ha])
    refine ⟨b :: values, ?_, ?_⟩
    · rw [List.mapM_cons, hb, hvalues]; rfl
    · exact hread.bind (hreads.map _)

/-- Items in a row, for a writing that goes along the list and collects the parts in reverse. -/
theorem row (all : List α → List Bytes → Emit Bytes) {item : α → Emit Bytes} {post : α → Bytes → Prop}
    (hnil : ∀ done, all [] done = Pure.pure done.reverse.flatten)
    (hcons : ∀ a rest done, all (a :: rest) done = item a >>= fun bytes => all rest (bytes :: done))
    {items : List α} (h : ∀ a ∈ items, Ensures pool scope (item a) (post a)) :
    Ensures pool scope (all items [])
      (fun bytes => ∃ parts, bytes = parts.flatten ∧ List.Forall₂ post items parts) := by
  suffices ∀ done : List Bytes, Ensures pool scope (all items done)
      (fun bytes => ∃ parts, bytes = done.reverse.flatten ++ parts.flatten ∧ List.Forall₂ post items parts) from
    this []
  induction items with
  | nil =>
    intro done
    rw [hnil]
    exact pure ⟨[], by simp, .nil⟩
  | cons a items ih =>
    intro done
    rw [hcons]
    refine (h a (by simp)).bind fun bytes hbytes => ?_
    refine (ih (fun x hx => h x (by simp [hx])) (bytes :: done)).mono ?_
    rintro _ ⟨parts, rfl, hparts⟩
    exact ⟨bytes :: parts, by simp, .cons hbytes hparts⟩

/-! ### The parts that everything is made of -/

theorem cell {cell : Cell} : Ensures pool scope (Emit.cell cell)
    (fun bytes => cell ≠ .zero ∧ ∃ index, pool.indexOf cell = .ok index ∧ bytes = Bytes.be 2 index) := by
  unfold Emit.cell
  split
  · exact throw
  · refine read.bind fun _ hpool => ofExcept.bind fun index hindex => pure ?_
    subst hpool
    exact ⟨‹_›, index, hindex, rfl⟩

theorem labelPc {label : Label} : Ensures pool scope (Emit.labelPc label)
    (fun pc => ∃ layout, scope.code = some layout ∧ layout.pcOf label = .ok pc) := by
  refine get.bind fun s hs => ?_
  subst hs
  cases hcode : s.state.code with
  | none => exact throw
  | some layout => exact ofExcept.mono fun pc hpc => ⟨layout, rfl, hpc⟩

theorem label {label : Label} : Ensures pool scope (Emit.label label)
    (fun bytes => ∃ layout pc, scope.code = some layout ∧ layout.pcOf label = .ok pc ∧ bytes = Bytes.be 2 pc) :=
  labelPc.bind fun pc ⟨layout, hcode, hpc⟩ => pure ⟨layout, pc, hcode, hpc, rfl⟩

theorem cell_length {cell : Cell} : Ensures pool scope (Emit.cell cell) (fun bytes => bytes.length = 2) := by
  refine Ensures.cell.mono ?_
  rintro _ ⟨_, index, _, rfl⟩
  exact Bytes.length_be 2 index

theorem cell?_length {cell : Option Cell} :
    Ensures pool scope (Emit.cell? cell) (fun bytes => bytes.length = 2) := by
  cases cell with
  | none => exact pure (Bytes.length_be 2 0)
  | some cell => exact cell_length

theorem label_length {label : Label} : Ensures pool scope (Emit.label label) (fun bytes => bytes.length = 2) := by
  refine Ensures.label.mono ?_
  rintro _ ⟨_, pc, _, _, rfl⟩
  exact Bytes.length_be 2 pc

theorem count {width items : Nat} {what : String} : Ensures pool scope (Emit.count width what items)
    (fun bytes => items < Bytes.capacity width ∧ bytes = Bytes.be width items) := by
  unfold Emit.count
  split
  · exact pure ⟨‹_›, rfl⟩
  · exact throw

theorem counted {width : Nat} {what : String} {items : List α} {item : α → Emit Bytes} {post : α → Bytes → Prop}
    (h : ∀ a ∈ items, Ensures pool scope (item a) (post a)) :
    Ensures pool scope (Emit.counted width what items item)
      (fun bytes => ∃ parts, bytes = Bytes.be width items.length ++ parts.flatten ∧
        items.length < Bytes.capacity width ∧ List.Forall₂ post items parts) := by
  refine count.bind fun head hhead => (each h).bind fun tail ⟨parts, htail, hparts⟩ => pure ⟨parts, ?_, hhead.1, hparts⟩
  rw [hhead.2, htail]

theorem counted_length {width : Nat} {what : String} {items : List α} {item : α → Emit Bytes} {length : α → Nat}
    (h : ∀ a ∈ items, Ensures pool scope (item a) (fun bytes => bytes.length = length a)) :
    Ensures pool scope (Emit.counted width what items item)
      (fun bytes => bytes.length = Emit.countedLength width items length) := by
  refine (counted h).mono ?_
  rintro _ ⟨parts, rfl, _, hparts⟩
  rw [List.length_append, Bytes.length_be, length_flatten hparts]
  rfl

theorem cells_length {items : List Cell} :
    Ensures pool scope (Emit.cells items) (fun bytes => bytes.length = Emit.cellsLength items) := by
  refine count.bind fun head hhead => (each_length_const fun a _ => cell_length).bind fun tail htail => pure ?_
  rw [List.length_append, hhead.2, Bytes.length_be, htail]
  rfl

end Ensures

end Emit

end JvmAssembler
