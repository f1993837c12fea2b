import JvmAssembler.Bytecode.LabelTable
import Mathlib.Data.List.Induction

/-!
# Labels are told apart

Calls on a label table only add labels, and keep the names of labels and their places (`LabelTable.Keeps`). Each label
has an origin, the call that made it (`Describes`): a label that was made by name is found by this name alone, and one
that was made without a name is found by none, whatever it is called. A call adds at most one label (`Adds`), so that
the origins of all labels can be told after any calls (`Recounts`). The answers to two calls are the same label exactly
if both calls asked for the same name.
-/

namespace JvmAssembler

/-- A call on a label table. -/
inductive LabelCall where
  | named (name : String)
  | fresh
  | place (label : Label) (instruction : Nat)
  deriving DecidableEq

namespace LabelCall

/-- The label that a call returns. -/
def label? (table : LabelTable) : LabelCall → Option Label
  | named name => some (table.named name).1
  | fresh => some table.fresh.1
  | place _ _ => none

/-- The table after a call, which may have failed. -/
def apply (table : LabelTable) : LabelCall → LabelTable
  | named name => (table.named name).2
  | fresh => table.fresh.2
  | place label instruction =>
    match LabelTable.place label instruction table with
    | .ok _ after | .error _ after => after

/-- The name of a label that a call makes. -/
def nameOf (label : Label) : LabelCall → String
  | named name => name
  | _ => label.text

end LabelCall

namespace LabelTable

variable {table table' table'' : LabelTable} {calls origins : List LabelCall} {label : Label}

/-- The table that calls make from the empty one. -/
def made (calls : List LabelCall) : LabelTable := calls.foldl LabelCall.apply {}

/-- The label that is returned by the call at a position. -/
def answer? (calls : List LabelCall) (i : Nat) : Option Label :=
  calls[i]?.bind fun call => call.label? (made (calls.take i))

theorem made_append (calls more : List LabelCall) : made (calls ++ more) = more.foldl LabelCall.apply (made calls) := by
  rw [made, List.foldl_append, made]

theorem answer?_append {i : Nat} (hi : i < calls.length) (more : List LabelCall) :
    answer? (calls ++ more) i = answer? calls i := by
  rw [answer?, answer?, List.getElem?_append_left hi, List.take_append_of_le_length (Nat.le_of_lt hi)]

theorem answer?_length (calls : List LabelCall) (call : LabelCall) :
    answer? (calls ++ [call]) calls.length = call.label? (made calls) := by
  rw [answer?, List.getElem?_concat_length, List.take_left, Option.bind_some]

/-! ### Placing a label -/

theorem placement_eq_ok_iff {instruction : Nat} :
    table.placement label = .ok instruction ↔ ∃ name, table.infos[label.id]? = some ⟨name, some instruction⟩ := by
  rw [placement]
  cases table.infos[label.id]? with
  | none => simp
  | some info =>
    obtain ⟨name, _ | place⟩ := info <;> simp

/-- A label cannot be placed if it is not of the table, or if it is placed already. Then nothing changes. -/
theorem place_eq_error_iff {instruction : Nat} {e : AssemblyError} :
    place label instruction table = .error e table' ↔ table' = table ∧
      (table.size ≤ label.id ∧ e = .labelOutsideCode label ∨
        ∃ earlier, table.placement label = .ok earlier ∧ e = .duplicateLabel (table.name label)) := by
  obtain ⟨infos, byName⟩ := table
  simp only [place, placement_eq_ok_iff, name, size]
  cases hinfo : infos[label.id]? with
  | none =>
    have hle : infos.size ≤ label.id := Array.getElem?_eq_none_iff.1 hinfo
    simp [hle, eq_comm, and_comm]
  | some info =>
    have hlt : ¬ infos.size ≤ label.id := by
      have := (Array.getElem?_eq_some_iff.1 hinfo).1
      omega
    obtain ⟨name, _ | earlier⟩ := info <;> simp [hlt, eq_comm, and_comm]

/-- A label that is placed stands in its place, and nothing else changes. -/
theorem place_eq_ok {instruction : Nat} (h : place label instruction table = .ok () table') :
    table'.byName = table.byName ∧ ∃ name, table.infos[label.id]? = some ⟨name, none⟩ ∧
      table'.infos = table.infos.modify label.id fun info => { info with placement := some instruction } := by
  obtain ⟨infos, byName⟩ := table
  rw [place] at h
  split at h
  · cases h
  · cases h
  · rename_i name hinfo
    cases h
    exact ⟨rfl, name, hinfo, rfl⟩

theorem placement_of_place {instruction : Nat} (h : place label instruction table = .ok () table') :
    table'.placement label = .ok instruction ∧
      ∀ other, other ≠ label → table'.placement other = table.placement other := by
  obtain ⟨-, name, hinfo, hinfos⟩ := place_eq_ok h
  refine ⟨placement_eq_ok_iff.2 ⟨name, ?_⟩, fun other hne => ?_⟩
  · rw [hinfos, Array.getElem?_modify, if_pos rfl, hinfo]
    rfl
  · have hid : label.id ≠ other.id := by
      obtain ⟨i⟩ := label
      obtain ⟨j⟩ := other
      rintro rfl
      exact hne rfl
    rw [placement, placement, hinfos, Array.getElem?_modify, if_neg hid]

/-! ### What calls keep -/

/-- Labels keep their names, and their places once they have them. -/
def Keeps (table table' : LabelTable) : Prop :=
  ∀ (i : Nat) (info : LabelInfo), table.infos[i]? = some info → ∃ placement,
    table'.infos[i]? = some { info with placement } ∧ (info.placement = none ∨ info.placement = placement)

theorem Keeps.refl (table : LabelTable) : Keeps table table := fun _ info hinfo => ⟨info.placement, hinfo, .inr rfl⟩

theorem Keeps.trans (h : Keeps table table') (h' : Keeps table' table'') : Keeps table table'' := by
  intro i info hinfo
  obtain ⟨placement, hmid, hkept⟩ := h i info hinfo
  obtain ⟨placement', hlast, hkept'⟩ := h' i _ hmid
  refine ⟨placement', hlast, ?_⟩
  rcases hkept with hnone | hsame
  · exact .inl hnone
  · rwa [hsame]

theorem keeps_push (table : LabelTable) (info : LabelInfo) (byName : Std.HashMap String Label) :
    Keeps table ⟨table.infos.push info, byName⟩ := by
  intro i old hold
  have hlt := (Array.getElem?_eq_some_iff.1 hold).1
  refine ⟨old.placement, ?_, .inr rfl⟩
  rw [Array.getElem?_push, if_neg (by omega), hold]

theorem keeps_apply (table : LabelTable) (call : LabelCall) : Keeps table (call.apply table) := by
  cases call with
  | named name =>
    rw [LabelCall.apply, named]
    split
    · exact .refl table
    · exact keeps_push table _ _
  | fresh => exact keeps_push table _ _
  | place label instruction =>
    rw [LabelCall.apply]
    cases hrun : place label instruction table with
    | error e after =>
      rw [(place_eq_error_iff.1 hrun).1]
      exact .refl table
    | ok _ after =>
      obtain ⟨-, name, hlabel, hinfos⟩ := place_eq_ok hrun
      intro i info hinfo
      rw [hinfos, Array.getElem?_modify]
      split
      · rename_i heq
        subst heq
        obtain rfl := Option.some.inj (hlabel.symm.trans hinfo)
        exact ⟨some instruction, by rw [hinfo]; rfl, .inl rfl⟩
      · exact ⟨info.placement, hinfo, .inr rfl⟩

theorem keeps_made (calls more : List LabelCall) : Keeps (made calls) (made (calls ++ more)) := by
  rw [made_append]
  generalize made calls = table
  induction more generalizing table with
  | nil => exact .refl table
  | cons call more ih => exact (keeps_apply table call).trans (ih (call.apply table))

theorem Keeps.name_eq (h : Keeps table table') (hlabel : label.id < table.infos.size) :
    table'.name label = table.name label := by
  have hinfo := Array.getElem?_eq_getElem hlabel
  obtain ⟨placement, hkept, -⟩ := h _ _ hinfo
  rw [name, name, hkept, hinfo]

theorem Keeps.placement_eq (h : Keeps table table') {instruction : Nat}
    (hlabel : table.placement label = .ok instruction) : table'.placement label = .ok instruction := by
  obtain ⟨name, hinfo⟩ := placement_eq_ok_iff.1 hlabel
  obtain ⟨placement, hkept, hnone | hsame⟩ := h _ _ hinfo
  · cases hnone
  · subst hsame
    exact placement_eq_ok_iff.2 ⟨name, hkept⟩

/-! ### Where labels come from -/

/-- The calls that made the labels of a table, in the order of the labels. -/
structure Describes (table : LabelTable) (origins : List LabelCall) : Prop where
  size : table.infos.size = origins.length
  name : ∀ (label : Label) (call : LabelCall), origins[label.id]? = some call → table.name label = call.nameOf label
  byName : ∀ (name : String) (label : Label), table.byName[name]? = some label ↔ origins[label.id]? = some (.named name)

namespace Describes

theorem empty : Describes {} [] where
  size := rfl
  name label call h := by simp at h
  byName name label := by simp

/-- One more label, which is found by a name exactly if it was made by this name. -/
theorem push (h : Describes table origins) {call : LabelCall} {info : LabelInfo} {byName : Std.HashMap String Label}
    (hname : info.name = call.nameOf ⟨table.infos.size⟩)
    (hbyName : ∀ (name : String) (label : Label), byName[name]? = some label ↔
      table.byName[name]? = some label ∨ label.id = table.infos.size ∧ call = .named name) :
    Describes ⟨table.infos.push info, byName⟩ (origins ++ [call]) := by
  have hsize := h.size
  refine ⟨by simp [hsize], fun label origin horigin => ?_, fun name label => ?_⟩
  · by_cases hold : label.id < origins.length
    · rw [List.getElem?_append_left hold] at horigin
      rw [(keeps_push table info byName).name_eq (by omega), h.name label origin horigin]
    · obtain ⟨id⟩ := label
      have hlast : id < (origins ++ [call]).length := (List.getElem?_eq_some_iff.1 horigin).1
      rw [List.length_append, List.length_singleton] at hlast
      obtain rfl : id = origins.length := by
        simp only at hold
        omega
      rw [List.getElem?_concat_length] at horigin
      obtain rfl := Option.some.inj horigin
      rw [← hsize, LabelTable.name, Array.getElem?_push_size, ← hname]
  · rw [hbyName, h.byName]
    -- By the tables before, a name leads only to labels that have an origin.
    rcases Nat.lt_trichotomy label.id origins.length with hlt | heq | hgt
    · rw [List.getElem?_append_left hlt, or_iff_left]
      rintro ⟨hid, -⟩
      omega
    · rw [heq, List.getElem?_concat_length, List.getElem?_eq_none (Nat.le_refl _)]
      simp [hsize]
    · rw [List.getElem?_eq_none (Nat.le_of_lt hgt), List.getElem?_eq_none (by simp; omega)]
      simp
      omega

end Describes

/-- What a call comes to: it adds labels, what it returns was made by such a call, and without a name it returns a new
label. -/
structure Adds (table : LabelTable) (origins : List LabelCall) (call : LabelCall) (added : List LabelCall) : Prop where
  describes : Describes (call.apply table) (origins ++ added)
  origin : ∀ label, call.label? table = some label → (origins ++ added)[label.id]? = some call
  fresh : call = .fresh → ∀ label, call.label? table = some label → label.id = origins.length
  answered : ∀ label : Label, label.id < (origins ++ added).length →
    label.id < origins.length ∨ call.label? table = some label

/-- A call that returns the next label adds this label. -/
theorem Describes.adds_new (h : Describes table origins) {call : LabelCall}
    (hlabel : call.label? table = some ⟨table.infos.size⟩) (hafter : Describes (call.apply table) (origins ++ [call])) :
    Adds table origins call [call] := by
  rw [h.size] at hlabel
  refine ⟨hafter, fun label hcall => ?_, fun _ label hcall => ?_, fun label hlt => ?_⟩
  · obtain rfl := Option.some.inj (hlabel.symm.trans hcall)
    exact List.getElem?_concat_length
  · obtain rfl := Option.some.inj (hlabel.symm.trans hcall)
    rfl
  · obtain ⟨id⟩ := label
    simp only [List.length_append, List.length_singleton] at hlt
    simp only [hlabel, Option.some.injEq, Label.mk.injEq]
    omega

/-- A call that returns no new label adds none. -/
theorem Describes.adds_nothing {call : LabelCall} (hafter : Describes (call.apply table) origins)
    (hfresh : call ≠ .fresh)
    (horigin : ∀ label, call.label? table = some label → origins[label.id]? = some call) :
    Adds table origins call [] := by
  refine ⟨?_, ?_, fun h => absurd h hfresh, fun label hlt => .inl ?_⟩
  · rwa [List.append_nil]
  · rwa [List.append_nil]
  · rwa [List.append_nil] at hlt

theorem size_apply_place (table : LabelTable) (label : Label) (instruction : Nat) :
    ((LabelCall.place label instruction).apply table).infos.size = table.infos.size ∧
      ((LabelCall.place label instruction).apply table).byName = table.byName := by
  rw [LabelCall.apply]
  cases hrun : place label instruction table with
  | error e after =>
    rw [(place_eq_error_iff.1 hrun).1]
    exact ⟨rfl, rfl⟩
  | ok _ after =>
    obtain ⟨hbyName, name, -, hinfos⟩ := place_eq_ok hrun
    exact ⟨by rw [hinfos, Array.size_modify], hbyName⟩

/-- A placed label is described as before. -/
theorem Describes.place (h : Describes table origins) (label : Label) (instruction : Nat) :
    Describes ((LabelCall.place label instruction).apply table) origins := by
  obtain ⟨hsize, hbyName⟩ := size_apply_place table label instruction
  refine ⟨hsize.trans h.size, fun other call hcall => ?_, fun name other => ?_⟩
  · have hlt := (List.getElem?_eq_some_iff.1 hcall).1
    rw [(keeps_apply table _).name_eq (by rwa [h.size]), h.name other call hcall]
  · rw [hbyName, h.byName]

theorem Describes.exists_adds (h : Describes table origins) (call : LabelCall) :
    ∃ added, Adds table origins call added := by
  cases call with
  | named name =>
    cases hfound : table.byName[name]? with
    | some found =>
      have hnamed : table.named name = (found, table) := by rw [named, hfound]
      refine ⟨[], adds_nothing (by rwa [LabelCall.apply, hnamed]) (by simp) fun label hlabel => ?_⟩
      rw [LabelCall.label?, hnamed] at hlabel
      obtain rfl := Option.some.inj hlabel
      exact (h.byName name found).1 hfound
    | none =>
      have hnamed : table.named name = (⟨table.infos.size⟩,
          ⟨table.infos.push { name }, table.byName.insert name ⟨table.infos.size⟩⟩) := by rw [named, hfound]
      refine ⟨_, h.adds_new (by rw [LabelCall.label?, hnamed]) ?_⟩
      rw [LabelCall.apply, hnamed]
      refine h.push rfl fun other label => ?_
      rw [Std.HashMap.getElem?_insert]
      by_cases heq : name = other
      · subst heq
        obtain ⟨id⟩ := label
        simp [hfound, eq_comm]
      · simp [heq]
  | fresh => exact ⟨_, h.adds_new rfl (h.push rfl fun other label => by simp)⟩
  | place target instruction =>
    exact ⟨[], adds_nothing (h.place target instruction) (by simp) (by simp [LabelCall.label?])⟩

/-- The calls that made the labels of a table, among all calls. -/
structure Recounts (calls origins : List LabelCall) : Prop extends Describes (made calls) origins where
  answer : ∀ i label, answer? calls i = some label → calls[i]? = origins[label.id]?
  answered : ∀ label : Label, label.id < origins.length → ∃ i, answer? calls i = some label
  fresh : ∀ i j a b, i < j → calls[j]? = some .fresh → answer? calls i = some a → answer? calls j = some b → a ≠ b

theorem lt_of_answer? {i : Nat} (h : answer? calls i = some label) : i < calls.length := by
  obtain ⟨call, hcall, -⟩ := Option.bind_eq_some_iff.1 h
  exact (List.getElem?_eq_some_iff.1 hcall).1

theorem Recounts.lt_of_answer? (h : Recounts calls origins) {i : Nat} (hi : answer? calls i = some label) :
    label.id < origins.length := by
  have hcall := List.getElem?_eq_getElem (LabelTable.lt_of_answer? hi)
  rw [h.answer i label hi] at hcall
  exact (List.getElem?_eq_some_iff.1 hcall).1

/-- What one more call adds to the account. -/
theorem Recounts.concat (h : Recounts calls origins) (call : LabelCall) :
    ∃ added, Recounts (calls ++ [call]) (origins ++ added) := by
  obtain ⟨added, hadds⟩ := h.exists_adds call
  have hcases : ∀ {i label}, answer? (calls ++ [call]) i = some label →
      i < calls.length ∧ answer? calls i = some label ∨ i = calls.length ∧ call.label? (made calls) = some label := by
    intro i label hi
    have hlt := LabelTable.lt_of_answer? hi
    rw [List.length_append, List.length_singleton] at hlt
    by_cases hold : i < calls.length
    · rw [answer?_append hold] at hi
      exact .inl ⟨hold, hi⟩
    · obtain rfl : i = calls.length := by omega
      rw [answer?_length] at hi
      exact .inr ⟨rfl, hi⟩
  refine ⟨added, ⟨by rw [made_append]; exact hadds.describes, fun i label hi => ?_, fun label hlabel => ?_,
    fun i j a b hij hj hi hb => ?_⟩⟩
  · rcases hcases hi with ⟨hold, hbefore⟩ | ⟨rfl, hcall⟩
    · rw [List.getElem?_append_left hold, h.answer i label hbefore, List.getElem?_append_left (h.lt_of_answer? hbefore)]
    · rw [List.getElem?_concat_length, hadds.origin label hcall]
  · rcases hadds.answered label hlabel with hold | hcall
    · obtain ⟨i, hi⟩ := h.answered label hold
      exact ⟨i, by rw [answer?_append (LabelTable.lt_of_answer? hi), hi]⟩
    · exact ⟨calls.length, by rw [answer?_length, hcall]⟩
  · rcases hcases hb with ⟨hold, hbefore⟩ | ⟨rfl, hcall⟩
    · rw [List.getElem?_append_left hold] at hj
      rw [answer?_append (by omega)] at hi
      exact h.fresh i j a b hij hj hi hbefore
    · rw [List.getElem?_concat_length] at hj
      rw [answer?_append hij] at hi
      have hlt := h.lt_of_answer? hi
      have heq := hadds.fresh (Option.some.inj hj) b hcall
      rintro rfl
      omega

theorem exists_recounts (calls : List LabelCall) : ∃ origins, Recounts calls origins := by
  induction calls using List.reverseRecOn with
  | nil =>
    have hnone : ∀ i, answer? [] i = none := fun _ => rfl
    exact ⟨[], ⟨.empty, by simp [hnone], by simp, by simp [hnone]⟩⟩
  | append_singleton calls call ih =>
    obtain ⟨origins, h⟩ := ih
    obtain ⟨added, hadded⟩ := h.concat call
    exact ⟨_, hadded⟩

/-- Of two calls, the later one returns the label of the earlier one exactly if both ask for one name. -/
theorem Recounts.answer_eq_iff (h : Recounts calls origins) {i j : Nat} {a b : Label} (hij : i < j)
    (ha : answer? calls i = some a) (hb : answer? calls j = some b) :
    a = b ↔ ∃ name, calls[i]? = some (.named name) ∧ calls[j]? = some (.named name) := by
  have hi := h.answer i a ha
  have hj := h.answer j b hb
  constructor
  · rintro rfl
    -- Both calls are like the one that made the label, and a later call without a name would have made another label.
    obtain ⟨call, hcall, hlabel⟩ := Option.bind_eq_some_iff.1 hb
    cases call with
    | named name => exact ⟨name, by rw [hi, ← hj, hcall], hcall⟩
    | fresh => exact absurd rfl (h.fresh i j a a hij hcall ha hb)
    | place target instruction => cases hlabel
  · rintro ⟨name, hname, hname'⟩
    have hfirst := (h.byName name a).2 (hi ▸ hname)
    have hsecond := (h.byName name b).2 (hj ▸ hname')
    exact Option.some.inj (hfirst.symm.trans hsecond)

/-! ### The result -/

/-- Whatever calls are made on a label table: two of them return the same label exactly if both ask for one name. A
label has the name that it was made with, which is its number if it was made without one. A place that a label
has is its place ever after. A label can be placed unless no call has returned it, or it has a place already; then the
failure says so, and the table stays as it is. -/
theorem labels_apart (calls : List LabelCall) :
    (∀ i j a b, i ≠ j → answer? calls i = some a → answer? calls j = some b →
      (a = b ↔ ∃ name, calls[i]? = some (.named name) ∧ calls[j]? = some (.named name))) ∧
    (∀ i label, answer? calls i = some label →
      (∀ name, calls[i]? = some (.named name) → (made calls).name label = name) ∧
      (calls[i]? = some .fresh → (made calls).name label = s!"l{(made (calls.take i)).size}")) ∧
    (∀ label instruction, (made calls).placement label = .ok instruction →
      ∀ more, (made (calls ++ more)).placement label = .ok instruction) ∧
    ∀ label instruction,
      (∀ e after, place label instruction (made calls) = .error e after ↔ after = made calls ∧
        ((∀ i, answer? calls i ≠ some label) ∧ e = .labelOutsideCode label ∨
          ∃ earlier, (made calls).placement label = .ok earlier ∧ e = .duplicateLabel ((made calls).name label))) ∧
      ∀ after, place label instruction (made calls) = .ok () after → after.placement label = .ok instruction ∧
        ∀ other, other ≠ label → after.placement other = (made calls).placement other := by
  obtain ⟨origins, h⟩ := exists_recounts calls
  refine ⟨fun i j a b hne ha hb => ?_, fun i label hi => ⟨fun name hname => ?_, fun hfresh => ?_⟩,
    fun label instruction hlabel more => (keeps_made calls more).placement_eq hlabel,
    fun label instruction => ⟨fun e after => ?_, fun after => placement_of_place⟩⟩
  · rcases Nat.lt_or_gt_of_ne hne with hlt | hgt
    · exact h.answer_eq_iff hlt ha hb
    · rw [eq_comm, h.answer_eq_iff hgt hb ha]
      exact exists_congr fun name => and_comm
  · rw [h.name label (.named name) (h.answer i label hi ▸ hname)]
    rfl
  · rw [h.name label .fresh (h.answer i label hi ▸ hfresh)]
    rw [answer?, hfresh, Option.bind_some] at hi
    obtain rfl := Option.some.inj hi
    rfl
  · have hnot : (made calls).size ≤ label.id ↔ ∀ i, answer? calls i ≠ some label := by
      rw [LabelTable.size, h.size]
      refine ⟨fun hle i hi => ?_, fun hnone => ?_⟩
      · have hlt := h.lt_of_answer? hi
        omega
      · by_contra hlt
        obtain ⟨i, hi⟩ := h.answered label (Nat.lt_of_not_le hlt)
        exact hnone i hi
    rw [place_eq_error_iff, hnot]

end LabelTable

end JvmAssembler
