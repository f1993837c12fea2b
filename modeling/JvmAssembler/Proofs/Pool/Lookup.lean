import JvmAssembler.Proofs.Pool.Meaning
import Mathlib.Data.Fintype.EquivFin

/-!
# Looking up constants in a finalized pool

The table of contents learns of an entry when the entry is added. An entry that contains a cell of an explicit index
has no content by then; it has one once the index is bound, and the table is not told. So a finalized pool finds
every constant that is equal to an entry without such cells (`Recorded`), and every constant that is an entry as it is,
but it refuses a constant that is only equal to an entry with such a cell.
-/

namespace JvmAssembler.Pool

variable {pool pool' start : Pool} {references : List Reference} {cell : Cell} {value : Constant Cell}

/-! ### Cells inside of entries -/

/-- The first cell stands for an entry that refers to the second. -/
def Contains (pool : Pool) (outer inner : Cell) : Prop := ∃ value, pool.get? outer = some value ∧ inner ∈ value.refs

/-- No entry contains a cell that stands for it. -/
def Acyclic (pool : Pool) : Prop :=
  ∀ entry ∈ pool.order.toList, ∀ cell, Relation.TransGen pool.Contains entry cell → pool.canonical cell ≠ entry

/-- A cell is or contains one that was asked for by its index. -/
def ContainsReference (pool : Pool) (references : List Reference) (cell : Cell) : Prop :=
  ∃ reference ∈ references, Relation.ReflTransGen pool.Contains cell reference.cell

theorem ContainsReference.mono {more : List Reference} (h : pool.ContainsReference references cell)
    (hcontains : ∀ outer inner, pool.Contains outer inner → pool'.Contains outer inner)
    (hmore : ∀ reference ∈ references, reference ∈ more) : pool'.ContainsReference more cell := by
  obtain ⟨reference, hmem, hpath⟩ := h
  exact ⟨reference, hmore reference hmem, hpath.lift id hcontains⟩

/-- Entries keep what is inside of them. -/
theorem Stays.contains (h : Stays pool pool') (hwell : pool.WellBound) (hwell' : pool'.WellBound) {outer inner : Cell}
    (hcontains : pool.Contains outer inner) : pool'.Contains outer inner := by
  obtain ⟨value, hget, hinner⟩ := hcontains
  exact ⟨value, h.get? hwell hwell' hget, hinner⟩

theorem Acyclic.irrefl (h : pool.Acyclic) (hwell : pool.WellBound) (cell : Cell) :
    ¬ Relation.TransGen pool.Contains cell cell := by
  intro hcycle
  obtain ⟨inner, ⟨value, hget, hinner⟩, hrest⟩ := Relation.TransGen.head'_iff.1 hcycle
  have howner := get?_eq_some_iff.1 hget
  have hne : pool.canonical cell ≠ .zero := by
    intro hzero
    rw [hzero, hwell.zero] at howner
    obtain rfl := Binding.owned.inj (Option.some.inj howner)
    cases hinner
  -- The entry that the cell stands for contains the cell as well.
  have hentry : Relation.TransGen pool.Contains (pool.canonical cell) cell :=
    Relation.TransGen.head'_iff.2 ⟨inner, ⟨value, get?_of_owned howner, hinner⟩, hrest⟩
  exact h _ ((hwell.mem_order _).2 ⟨hne, value, howner⟩) cell hentry rfl

/-- The cells inside of a cell, among the cells that were handed out. -/
def Inside (pool : Pool) (inner outer : Fin pool.slots.size) : Prop := Relation.TransGen pool.Contains ⟨outer⟩ ⟨inner⟩

/-- There are finitely many cells, so that there is no endless way down. -/
theorem Acyclic.wellFounded (h : pool.Acyclic) (hwell : pool.WellBound) : WellFounded pool.Inside := by
  have htrans : IsTrans (Fin pool.slots.size) pool.Inside := ⟨fun _ _ _ hinner houter => houter.trans hinner⟩
  have hirrefl : Std.Irrefl pool.Inside := ⟨fun i => h.irrefl hwell ⟨i⟩⟩
  exact Finite.wellFounded_of_trans_of_irrefl pool.Inside

/-- In a finalized pool without cycles it is known what each cell contains. -/
theorem Acyclic.known (h : pool.Acyclic) (hvalid : pool.Valid references) (hfinal : pool.isFinalized = true) :
    pool.Known := by
  obtain ⟨table, htable⟩ := Option.isSome_iff_exists.1 hfinal
  have hwell := hvalid.wellBound
  suffices hall : ∀ i : Fin pool.slots.size, ∃ content, pool.content? ⟨i⟩ = some content from
    fun cell hcell => hall ⟨cell.id, hcell⟩
  intro i
  induction i using (h.wellFounded hwell).induction with
  | h i ih =>
    obtain ⟨value, hvalue⟩ := (hvalid.settled table htable).canonical_owns hwell (show (⟨i⟩ : Cell).id < _ from i.isLt)
    have hmeaning : pool.meaning? ⟨i⟩ = some value := by rw [meaning?, hvalue]
    rw [content?_eq, hmeaning, Option.bind_some, contentOf?_eq]
    refine Constant.exists_content? fun ref href => ?_
    have hinside : pool.Contains ⟨i⟩ ref := ⟨value, get?_eq_some_iff.2 hvalue, href⟩
    exact ih ⟨ref.id, hwell.refs_meaning_lt hmeaning href⟩ (.single hinside)

/-! ### Binding references -/

theorem meaning?_of_get? (h : pool.get? cell = some value) : pool.meaning? cell = some value := by
  rw [meaning?, get?_eq_some_iff.1 h]

/-- Without promises, a cell that stands for a constant stands for an entry. -/
theorem get?_of_meaning? (hpromised : ∀ cell kind name, pool.binding? cell ≠ some (.promised kind name))
    (h : pool.meaning? cell = some value) : pool.get? cell = some value := by
  rw [meaning?] at h
  split at h
  · rename_i found hbinding
    rw [get?_eq_some_iff, hbinding, Option.some.inj h]
  · rename_i kind name hbinding
    exact absurd hbinding (hpromised _ kind name)
  · cases h

namespace Completes

/-- A content that has become known contains a reference that has been bound. -/
theorem exists_indexed (h : Completes pool pool') {content : Content} (hafter : pool'.content? cell = some content)
    (hbefore : pool.content? cell = none) :
    ∃ inner index position, pool.binding? inner = some (.indexed index position) ∧
      Relation.ReflTransGen pool'.Contains cell inner := by
  -- The induction goes down to the parts of the content.
  suffices hdepth : ∀ (n : Nat) (content : Content) (cell : Cell), content.depth ≤ n →
      pool'.content? cell = some content → pool.content? cell = none →
      ∃ inner index position, pool.binding? inner = some (.indexed index position) ∧
        Relation.ReflTransGen pool'.Contains cell inner from hdepth _ content cell (Nat.le_refl _) hafter hbefore
  intro n
  induction n with
  | zero =>
    intro content cell hle
    have hpos := content.depth_pos
    omega
  | succ n ih =>
    intro content cell hle hafter hbefore
    by_cases hindexed : ∃ index position, pool.binding? cell = some (.indexed index position)
    · obtain ⟨index, position, hcell⟩ := hindexed
      exact ⟨cell, index, position, hcell, .refl⟩
    · have hmeaning := h.meaning?_eq fun index position hcell => hindexed ⟨index, position, hcell⟩
      rw [content?_eq] at hafter hbefore
      obtain ⟨value, hvalue, hcontent⟩ := Option.bind_eq_some_iff.1 hafter
      rw [contentOf?_eq] at hcontent
      rw [← hmeaning, hvalue, Option.bind_some] at hbefore
      obtain ⟨ref, href, hnone⟩ : ∃ ref ∈ value.refs, pool.content? ref = none := by
        by_contra hall
        push Not at hall
        obtain ⟨found, hfound⟩ := Constant.exists_content? fun ref href => Option.ne_none_iff_exists'.1 (hall ref href)
        rw [contentOf?_eq, hfound] at hbefore
        cases hbefore
      obtain ⟨part, hpart, hsome⟩ := Constant.exists_part_of_ref hcontent href
      obtain ⟨inner, index, position, hinner, hpath⟩ :=
        ih part ref (Content.depth_le_succ_iff.1 hle part hpart) hsome hnone
      exact ⟨inner, index, position, hinner, hpath.head ⟨value, get?_of_meaning? h.not_promised hvalue, href⟩⟩

/-- Inside of what is known before references are bound there are no references. -/
theorem not_indexed_of_contains (h : Completes pool pool') {content : Content}
    (hcell : pool.content? cell = some content) {inner : Cell}
    (hpath : Relation.ReflTransGen pool'.Contains cell inner) (index : UInt16) (position : Nat) :
    pool.binding? inner ≠ some (.indexed index position) := by
  have hknown : ∃ part, pool.content? inner = some part := by
    induction hpath with
    | refl => exact ⟨content, hcell⟩
    | @tail mid inner _ hstep ih =>
      obtain ⟨part, hpart⟩ := ih
      obtain ⟨value, hget, hinner⟩ := hstep
      rw [content?_eq] at hpart
      obtain ⟨before, hbefore, hcontent⟩ := Option.bind_eq_some_iff.1 hpart
      rw [contentOf?_eq] at hcontent
      obtain rfl : before = value :=
        Option.some.inj ((h.meaning?_of_some hbefore).symm.trans (meaning?_of_get? hget))
      obtain ⟨part', -, hpart'⟩ := Constant.exists_part_of_ref hcontent hinner
      exact ⟨part', hpart'⟩
  intro hindexed
  obtain ⟨part, hpart⟩ := hknown
  rw [content?_eq, meaning?_of_indexed hindexed] at hpart
  cases hpart

end Completes

/-! ### What the table of contents knows -/

/-- The table of contents knows the entries that contain no reference. -/
structure Recorded (pool : Pool) (references : List Reference) : Prop extends Faithful pool where
  byContent_of_content? : ∀ (cell : Cell) (content : Content), cell ≠ .zero → pool.Owns cell →
    pool.content? cell = some content → ¬ pool.ContainsReference references cell →
    pool.byContent[content]? = some cell

theorem Recorded.empty : Pool.empty.Recorded [] where
  toFaithful := .empty
  byContent_of_content? cell content hne howns hcontent _ :=
    Deduplicated.empty.byContent_of_content? cell content hne howns hcontent

theorem Recorded.apply (h : pool.Recorded references) (hvalid : pool.Valid references) (hnumbered : pool.Numbered)
    {op : PoolOp} (hcells : ∀ cell ∈ op.cells, cell.id < pool.slots.size) :
    (op.apply pool).Recorded (references ++ op.references pool) := by
  have hvalid' := hvalid.apply hcells
  have hstays := (hvalid.stays hnumbered hcells).1
  -- An entry without references did not contain any before.
  have hold : ∀ cell content, cell ≠ .zero →
      ¬ (op.apply pool).ContainsReference (references ++ op.references pool) cell →
      pool.Owns cell → pool.content? cell = some content → pool.byContent[content]? = some cell := by
    intro cell content hne hfree howns hcontent
    refine h.byContent_of_content? cell content hne howns hcontent fun hcontains => hfree ?_
    exact hcontains.mono (fun _ _ => hstays.contains hvalid.wellBound hvalid'.wellBound)
      fun _ => List.mem_append_left _
  have hrecorded : Continues pool (op.apply pool) → (op.apply pool).Recorded (references ++ op.references pool) :=
    fun hcontinues => ⟨hcontinues.faithful, fun cell content hne howns hcontent hfree =>
      hcontinues.byContent_of_content? (hold cell content hne hfree) howns hcontent⟩
  cases hop : op.isFinalize with
  | false => exact hrecorded (h.toFaithful.openSteps (hvalid.openSteps hcells hop))
  | true =>
    cases op with
    | finalize warnings =>
      obtain ⟨bound, hsteps, hsame, hcompletes | ⟨heq, -⟩⟩ := hvalid.exists_completes warnings
      swap
      · exact hrecorded (heq ▸ h.toFaithful.bindSteps hsteps)
      have hcontinues := h.toFaithful.bindSteps hsteps
      refine ⟨hcompletes.faithful hcontinues.faithful, fun cell content hne howns hcontent hfree => ?_⟩
      cases hbefore : bound.content? cell with
      | none =>
        obtain ⟨inner, index, position, hinner, hpath⟩ := hcompletes.exists_indexed hcontent hbefore
        have hmem : (⟨inner, index, position⟩ : Reference) ∈ bound.unbound := mem_unbound_iff.2 hinner
        have hreference := hvalid.unbound_subset _ ((hsame _).1 hmem)
        exact absurd ⟨_, List.mem_append_left _ hreference, hpath⟩ hfree
      | some found =>
        obtain rfl : found = content :=
          Option.some.inj ((hcompletes.keepsKnown cell found hbefore).symm.trans hcontent)
        obtain ⟨value, hvalue⟩ := howns
        rw [hcompletes.byContent]
        exact hcontinues.byContent_of_content? (hold cell found hne hfree) ⟨value, hcompletes.owned hvalue⟩ hbefore
    | _ => cases hop

theorem Reached.recorded (h : Reached pool references) : pool.Recorded references := by
  induction h with
  | empty => exact .empty
  | step op hreached hcells ih => exact ih.apply hreached.valid hreached.numbered hcells

/-! ### Equal entries -/

/-- A cell owns an entry that is equal to a constant by value: they contain the same. -/
structure Matches (pool : Pool) (value : Constant Cell) (cell : Cell) : Prop where
  entry : cell ∈ pool.order.toList
  content : ∃ content, pool.contentOf? value = some content ∧ pool.content? cell = some content

/-- An entry is equal to a constant and is the constant itself, or contains no reference. -/
def Findable (pool : Pool) (references : List Reference) (value : Constant Cell) : Prop :=
  ∃ cell, pool.Matches value cell ∧ (pool.get? cell = some value ∨ ¬ pool.ContainsReference references cell)

theorem Matches.ne_zero (h : pool.Matches value cell) (hwell : pool.WellBound) : value ≠ .zero := by
  rintro rfl
  obtain ⟨content, hzero, hcontent⟩ := h.content
  obtain ⟨hne, found, hfound⟩ := (hwell.mem_order cell).1 h.entry
  rw [← hzero, content?_of_owned hfound, contentOf?_eq, contentOf?_eq] at hcontent
  exact hwell.value_ne_zero cell found hfound hne (Constant.eq_zero_of_content? hcontent)

theorem Known.matches_of_find? (h : pool.Known) (hfaithful : pool.Faithful) (hzero : value ≠ .zero)
    (hfind : pool.find? value = some cell) : pool.Matches value cell := by
  have howns := hfaithful.find?_owns hfind
  refine ⟨(hfaithful.mem_order cell).2 ⟨hfaithful.find?_ne_zero hzero hfind, howns⟩, ?_⟩
  obtain ⟨found, hfound⟩ := howns
  obtain ⟨content, hcontent⟩ := h cell (lt_of_binding? hfound)
  exact ⟨content, (hfaithful.content?_find? hfind).symm.trans hcontent, hcontent⟩

theorem Recorded.exists_find? (h : pool.Recorded references) (hvalue : pool.Findable references value) :
    ∃ cell, pool.find? value = some cell := by
  obtain ⟨cell, ⟨hentry, content, hcontentOf, hcontent⟩, hwhere⟩ := hvalue
  obtain ⟨hne, howns⟩ := (h.mem_order cell).1 hentry
  rcases hwhere with hget | hfree
  · have howned := get?_eq_some_iff.1 hget
    rw [canonical_of_owns howns] at howned
    exact ⟨cell, find?_of_find (find_of_byValue (h.byValue_of_owned cell value hne howned))⟩
  · have hknown := h.byContent_of_content? cell content hne howns hcontent hfree
    rw [find?_eq]
    cases pool.byValue[value]? with
    | some found => exact ⟨found, rfl⟩
    | none => exact ⟨cell, by simp only [hcontentOf, Option.bind_some, hknown]⟩

/-- If no reference was bound before, then nothing else is found. -/
theorem Faithful.findable_of_find? (h : start.Faithful) (hvalid : start.Valid references)
    (hunbound : ∀ reference ∈ references, reference ∈ start.unbound) {warnings : Array Warning}
    (hfinal : ((PoolOp.finalize warnings).apply start).isFinalized = true)
    (hknown : ((PoolOp.finalize warnings).apply start).Known) (hzero : value ≠ .zero)
    (hfind : ((PoolOp.finalize warnings).apply start).find? value = some cell) :
    ((PoolOp.finalize warnings).apply start).Findable references value := by
  obtain ⟨bound, hsteps, hsame, hcompletes | ⟨heq, hopen⟩⟩ := hvalid.exists_completes warnings
  swap
  · rw [heq, hopen] at hfinal
    cases hfinal
  have hbound := (h.bindSteps hsteps).faithful
  refine ⟨cell, hknown.matches_of_find? (hcompletes.faithful hbound) hzero hfind, ?_⟩
  rw [find?_eq, hcompletes.byValue, hcompletes.byContent] at hfind
  split at hfind
  · rename_i found hvalue
    obtain rfl := Option.some.inj hfind
    rw [← hcompletes.byValue] at hvalue
    exact .inl (get?_of_owned (hcompletes.after.byValue_eq value found hvalue))
  · obtain ⟨content, -, hcell⟩ := Option.bind_eq_some_iff.1 hfind
    refine .inr ?_
    rintro ⟨reference, hmem, hpath⟩
    have hcontent := hbound.content?_of_byContent content cell hcell
    exact hcompletes.not_indexed_of_contains hcontent hpath _ _
      (mem_unbound_iff.1 ((hsame reference).2 (hunbound reference hmem)))

theorem intern_of_isFinalized (hfinal : pool.isFinalized = true) (hends : ∀ cell, pool.Ends cell)
    (hzero : value ≠ .zero) :
    intern value pool = match pool.find? value with
      | some cell => .ok cell pool
      | none => .error .poolFinalized pool := by
  rw [intern, if_neg hzero, find_of_ends hends, hfinal]
  cases pool.find? value <;> rfl

/-! ### The result -/

/-- Asking a finalized pool in which no entry contains itself for a constant leaves the pool as it is. The cell that is
returned owns an equal entry, and if there is none the constant is refused. An equal entry is found if it is the
constant itself or contains no reference; if no reference was bound before the attempt that finalized the pool, then
nothing else is found, whether or not the pool has an equal entry. -/
theorem intern_of_finalized (h : Reached pool references) (hfinal : pool.isFinalized = true) (hacyclic : pool.Acyclic)
    (value : Constant Cell) :
    PoolOp.left (intern value pool) = pool ∧
      (value ≠ .zero → ∀ cell later, intern value pool = .ok cell later → pool.Matches value cell) ∧
      (value ≠ .zero → (∀ cell, ¬ pool.Matches value cell) → intern value pool = .error .poolFinalized pool) ∧
      (pool.Findable references value → ∃ cell, intern value pool = .ok cell pool ∧ pool.Matches value cell) ∧
      ∀ start warnings, Reached start references → (∀ reference ∈ references, reference ∈ start.unbound) →
        (PoolOp.finalize warnings).apply start = pool → value ≠ .zero → ¬ pool.Findable references value →
        intern value pool = .error .poolFinalized pool := by
  have hrecorded := h.recorded
  have hknown := hacyclic.known h.valid hfinal
  have hends : ∀ cell, pool.Ends cell := fun cell => by_contra fun hnot => hnot (hknown.ends (lt_of_not_ends hnot))
  have hfound : ∀ {cell}, value ≠ .zero → pool.find? value = some cell → pool.Matches value cell :=
    fun hzero => hknown.matches_of_find? hrecorded.toFaithful hzero
  refine ⟨?_, fun hzero cell later hrun => ?_, fun hzero hnone => ?_, fun hfindable => ?_,
    fun start warnings hstart hunbound hpool hzero hnot => ?_⟩
  · by_cases hzero : value = .zero
    · rw [intern, if_pos hzero]
      rfl
    · rw [intern_of_isFinalized hfinal hends hzero]
      cases pool.find? value <;> rfl
  · rw [intern_of_isFinalized hfinal hends hzero] at hrun
    cases hfind : pool.find? value with
    | none => simp [hfind] at hrun
    | some found =>
      obtain ⟨rfl, -⟩ : found = cell ∧ pool = later := by simpa [hfind] using hrun
      exact hfound hzero hfind
  · rw [intern_of_isFinalized hfinal hends hzero]
    cases hfind : pool.find? value with
    | none => rfl
    | some cell => exact absurd (hfound hzero hfind) (hnone cell)
  · obtain ⟨found, hfind⟩ := hrecorded.exists_find? hfindable
    obtain ⟨cell, hmatches, -⟩ := hfindable
    have hzero := hmatches.ne_zero h.valid.wellBound
    exact ⟨found, by rw [intern_of_isFinalized hfinal hends hzero, hfind], hfound hzero hfind⟩
  · subst hpool
    rw [intern_of_isFinalized hfinal hends hzero]
    cases hfind : ((PoolOp.finalize warnings).apply start).find? value with
    | none => rfl
    | some cell =>
      exact absurd (hstart.recorded.toFaithful.findable_of_find? hstart.valid hunbound hfinal hknown hzero
        hfind) hnot

/-- A pool with a text and a reference to the text by its index. -/
def indexedText : Pool := (PoolOp.reference 1 0).apply (Pool.empty.addEntry (.utf8 "A"))

/-- The pool with a class that is named by the reference, after the reference is bound. -/
def boundClass : Pool := (PoolOp.finalize #[]).apply (indexedText.addEntry (.wrapper .classInfo ⟨2⟩))

theorem reached_boundClass : Reached boundClass [⟨⟨2⟩, 1, 0⟩] := by
  have hutf8 : Reached (Pool.empty.addEntry (.utf8 "A")) [] :=
    Reached.empty.addEntry rfl (find_empty rfl) (by simp) (by simp [Constant.refs])
  have hreference : Reached indexedText [⟨⟨2⟩, 1, 0⟩] := hutf8.step (.reference 1 0) (by simp [PoolOp.cells])
  have hfind : indexedText.find (.wrapper .classInfo ⟨2⟩) = .ok none := by
    have hvalue : indexedText.byValue = Pool.empty.byValue.insert (.utf8 "A") ⟨1⟩ := rfl
    have hcontent : indexedText.contentOf (.wrapper .classInfo ⟨2⟩) = .ok none := rfl
    exact find_eq_none (by simp [hvalue, Pool.empty]) hcontent (by simp)
  have hsize : indexedText.slots.size = 3 := rfl
  have hclass := hreference.addEntry rfl hfind (by simp) (by simp [Constant.refs, hsize])
  exact hclass.step (.finalize #[]) (by simp [PoolOp.cells])

/-- The class contains the reference, and nothing else contains anything. -/
theorem contains_boundClass {outer inner : Cell} (h : boundClass.Contains outer inner) : outer = ⟨3⟩ ∧ inner = ⟨2⟩ := by
  obtain ⟨value, hget, hinner⟩ := h
  obtain ⟨id⟩ := outer
  have hlt : id < 4 := lt_of_meaning? (meaning?_of_get? hget)
  have hleaf : ∀ found : Constant Cell, boundClass.get? ⟨id⟩ = some found → found.refs ≠ [] := by
    intro found hfound hrefs
    rw [hget] at hfound
    rw [Option.some.inj hfound, hrefs] at hinner
    cases hinner
  obtain rfl : id = 3 := by
    have hzero : id ≠ 0 := fun heq => hleaf .zero (heq ▸ rfl) rfl
    have hone : id ≠ 1 := fun heq => hleaf (.utf8 "A") (heq ▸ rfl) rfl
    have htwo : id ≠ 2 := fun heq => hleaf (.utf8 "A") (heq ▸ rfl) rfl
    omega
  have hclass : boundClass.get? ⟨3⟩ = some (.wrapper .classInfo ⟨2⟩) := rfl
  obtain rfl := Option.some.inj (hclass.symm.trans hget)
  exact ⟨rfl, List.mem_singleton.1 hinner⟩

theorem acyclic_boundClass : boundClass.Acyclic := by
  intro entry _ cell hpath
  obtain ⟨first, hfirst, -⟩ := Relation.TransGen.head'_iff.1 hpath
  obtain ⟨last, -, hlast⟩ := Relation.TransGen.tail'_iff.1 hpath
  have hcanonical : boundClass.canonical ⟨2⟩ = ⟨1⟩ := rfl
  rw [(contains_boundClass hfirst).1, (contains_boundClass hlast).2, hcanonical]
  simp

/-- The text is found. -/
theorem intern_of_finalized_boundClass :
    Reached boundClass [⟨⟨2⟩, 1, 0⟩] ∧ boundClass.isFinalized = true ∧ boundClass.Acyclic ∧
      ∃ cell, intern (.utf8 "A") boundClass = .ok cell boundClass ∧ boundClass.Matches (.utf8 "A") cell := by
  have hfinal : boundClass.isFinalized = true := rfl
  have hfindable : boundClass.Findable [⟨⟨2⟩, 1, 0⟩] (.utf8 "A") := by
    have hentry : (⟨1⟩ : Cell) ∈ boundClass.order.toList := by
      have horder : boundClass.order.toList = [⟨1⟩, ⟨3⟩] := rfl
      simp [horder]
    exact ⟨⟨1⟩, ⟨hentry, .leaf (.utf8 "A"), rfl, rfl⟩, .inl rfl⟩
  obtain ⟨-, -, -, hfound, -⟩ := intern_of_finalized reached_boundClass hfinal acyclic_boundClass (.utf8 "A")
  exact ⟨reached_boundClass, hfinal, acyclic_boundClass, hfound hfindable⟩

/-- The class of the text itself is refused, although it is equal to the class that the pool has. -/
theorem intern_refused_of_matches :
    Reached boundClass [⟨⟨2⟩, 1, 0⟩] ∧ boundClass.isFinalized = true ∧ boundClass.Acyclic ∧
      boundClass.Matches (.wrapper .classInfo ⟨1⟩) ⟨3⟩ ∧
      intern (.wrapper .classInfo ⟨1⟩) boundClass = .error .poolFinalized boundClass := by
  have hfinal : boundClass.isFinalized = true := rfl
  have hcontent : boundClass.contentOf (.wrapper .classInfo ⟨1⟩) =
      .ok (some (.unary (.wrapper .classInfo ()) (.leaf (.utf8 "A")))) := rfl
  have hentry : (⟨3⟩ : Cell) ∈ boundClass.order.toList := by
    have horder : boundClass.order.toList = [⟨1⟩, ⟨3⟩] := rfl
    simp [horder]
  have hfind : boundClass.find (.wrapper .classInfo ⟨1⟩) = .ok none := by
    have hvalue : boundClass.byValue =
        (Pool.empty.byValue.insert (.utf8 "A") ⟨1⟩).insert (.wrapper .classInfo ⟨2⟩) ⟨3⟩ := rfl
    have htable : boundClass.byContent = Pool.empty.byContent.insert (.leaf (.utf8 "A")) ⟨1⟩ := rfl
    exact find_eq_none (by simp [hvalue, Pool.empty]) hcontent (by simp [htable, Pool.empty])
  refine ⟨reached_boundClass, hfinal, acyclic_boundClass, ⟨hentry, _, by rw [contentOf?, hcontent]; rfl, rfl⟩, ?_⟩
  rw [intern, if_neg (by simp), hfind, hfinal]
  rfl

end JvmAssembler.Pool
