import JvmAssembler.Proofs.Bytecode.Positions

/-!
# Where switches go

The virtual machine executes a switch on what was written of it: a table by the distance of the key from the lowest
one, a lookup by the first pair with the key. `Switch.Chooses` says which target a switch is meant to choose, from its
keys alone. In code that is laid out, the machine goes from the bytes of a switch to the program counter of this target,
on every key (`Body.SwitchAt.exists_target`).
-/

namespace JvmAssembler

/-! ### Executing a switch -/

/-- The distance that a switch jumps on a key. A table has a slot for each key between its bounds, and a lookup takes
the first pair with the key. There is no distance if a slot is missing, and none for any other instruction. -/
def ReadOperand.jump? (key : Int) : ReadOperand → Option Int
  | .tableSwitch default low high distances =>
    if low ≤ key ∧ key ≤ high then distances[(key - low).toNat]? else some default
  | .lookupSwitch default pairs => some (((pairs.find? (·.1 = key)).map (·.2)).getD default)
  | _ => Option.none

/-- The program counter that the virtual machine goes to from the switch at `pc`, on a key. -/
def dispatch? (code : Bytes) (pc : Nat) (key : Int32) : Option Int := do
  let (instruction, _) ← readInstruction pc (code.drop pc)
  return pc + (← instruction.operand.jump? key.toInt)

/-- Executing what a reader finds at a program counter. -/
theorem dispatch?_append {before bytes after : Bytes} {pc : Nat} {read : ReadInstruction} {key : Int32}
    (hbefore : before.length = pc) (hread : Reads (readInstruction pc) bytes read) :
    dispatch? (before ++ bytes ++ after) pc key = (read.operand.jump? key.toInt).map ((pc : Int) + ·) := by
  have hdrop : (before ++ bytes ++ after).drop pc = bytes ++ after := by
    rw [List.append_assoc, List.drop_left' hbefore]
  rw [dispatch?, hdrop, hread after]
  show (read.operand.jump? key.toInt >>= fun distance => some ((pc : Int) + distance)) = _
  cases read.operand.jump? key.toInt <;> rfl

private theorem forall₂_of_mapM {α β : Type} {f : α → Option β} {items : List α} {values : List β}
    (h : items.mapM f = some values) : List.Forall₂ (fun a b => f a = some b) items values := by
  induction items generalizing values with
  | nil =>
    obtain rfl : [] = values := Option.some.inj h
    exact .nil
  | cons a items ih =>
    rw [List.mapM_cons] at h
    obtain ⟨b, hb, h⟩ := Option.bind_eq_some_iff.1 h
    obtain ⟨bs, hbs, h⟩ := Option.bind_eq_some_iff.1 h
    obtain rfl : b :: bs = values := Option.some.inj h
    exact .cons hb (ih hbs)

/-- The place that a choice leads to: that of the label, or the one behind the switch. -/
def Layout.Reaches (layout : Layout) (next : Nat) (goal : Option Label) (target : Nat) : Prop :=
  match goal with
  | some label => layout.pcOf label = .ok target
  | none => target = next

namespace Switch

variable {switch : Switch} {layout : Layout} {pc : Nat} {key : Int32}

/-! ### The choice of a target -/

/-- The label that a switch goes to on a key. If the key occurs more than once, the last occurrence counts in a table
and the first one in a lookup; if it does not occur, the switch goes to its default, which may be absent. -/
inductive Chooses (switch : Switch) (key : Int32) : Option Label → Prop where
  | target {k : Nat} {label : Label} : switch.keys[k]? = some key → switch.targets[k]? = some label →
      (∀ j : Nat, switch.keys[j]? = some key → match switch.kind with
        | .table => j ≤ k
        | .lookup => k ≤ j) → Chooses switch key (some label)
  | default : key ∉ switch.keys → Chooses switch key switch.default

/-- With distinct keys both forms choose alike. -/
theorem Chooses.eq {other : Switch} {goal goal' : Option Label} (h : switch.Chooses key goal)
    (h' : other.Chooses key goal') (hkeys : other.keys = switch.keys) (htargets : other.targets = switch.targets)
    (hdefault : other.default = switch.default) (hdistinct : switch.keys.Nodup) : goal' = goal := by
  cases h with
  | @target k label hkey hlabel _ =>
    cases h' with
    | @target k' label' hkey' hlabel' _ =>
      rw [hkeys] at hkey'
      rw [htargets] at hlabel'
      obtain ⟨hlt, -⟩ := List.getElem?_eq_some_iff.1 hkey
      obtain rfl := (List.getElem?_inj hlt hdistinct).1 (hkey.trans hkey'.symm)
      rw [← hlabel, hlabel']
    | default hnot => exact absurd (hkeys ▸ List.mem_of_getElem? hkey) hnot
  | default hnot =>
    cases h' with
    | target hkey' _ _ => exact absurd (hkeys ▸ List.mem_of_getElem? hkey') hnot
    | default _ => exact hdefault

/-- A switch with a default always chooses a label. -/
theorem Chooses.exists_label {goal : Option Label} {default : Label} (h : switch.Chooses key goal)
    (hdefault : switch.default = some default) : ∃ label, goal = some label := by
  cases h with
  | target => exact ⟨_, rfl⟩
  | default => exact ⟨default, hdefault⟩

/-- Where the switch at a program counter goes if it chooses a label, or none. -/
def target (switch : Switch) (pc : Nat) : Option Label → SwitchTarget
  | some label => .label label
  | none => .pc (min (pc + switch.size pc) lengthLimit)

theorem defaultTarget_eq (switch : Switch) (pc : Nat) : switch.defaultTarget pc = switch.target pc switch.default := by
  rw [defaultTarget]
  cases switch.default <;> rfl

/-- A pair is chosen if no pair with its key follows it, in a table, or precedes it, in a lookup. -/
private theorem chooses_of_zip (hlen : switch.keys.length = switch.targets.length) {label : Label}
    {before after : List (Int32 × Label)} (hzip : switch.keys.zip switch.targets = before ++ (key, label) :: after)
    (hothers : match switch.kind with
      | .table => ∀ pair ∈ after, pair.1 ≠ key
      | .lookup => ∀ pair ∈ before, pair.1 ≠ key) : switch.Chooses key (some label) := by
  have hat : (switch.keys.zip switch.targets)[before.length]? = some (key, label) := by
    rw [hzip, List.getElem?_append_right (Nat.le_refl _), Nat.sub_self]
    rfl
  obtain ⟨hkey, hlabel⟩ := List.getElem?_zip_eq_some.1 hat
  have hkeys : switch.keys = before.map (·.1) ++ key :: after.map (·.1) := by
    rw [← List.map_fst_zip (Nat.le_of_eq hlen), hzip, List.map_append, List.map_cons]
  refine .target hkey hlabel fun j hj => ?_
  -- Another occurrence on the wrong side would be a key of `after` or of `before`.
  rw [hkeys] at hj
  cases hkind : switch.kind with
  | table =>
    simp only [hkind] at hothers
    by_contra hlt
    rw [List.getElem?_append_right (by simp; omega)] at hj
    obtain ⟨m, hm⟩ : ∃ m, j - (before.map (·.1)).length = m + 1 := ⟨j - before.length - 1, by simp; omega⟩
    rw [hm, List.getElem?_cons_succ] at hj
    obtain ⟨pair, hpair, hfst⟩ := List.mem_map.1 (List.mem_of_getElem? hj)
    exact hothers pair hpair hfst
  | lookup =>
    simp only [hkind] at hothers
    by_contra hlt
    rw [List.getElem?_append_left (by simp; omega)] at hj
    obtain ⟨pair, hpair, hfst⟩ := List.mem_map.1 (List.mem_of_getElem? hj)
    exact hothers pair hpair hfst

private theorem chooses_default (hlen : switch.keys.length = switch.targets.length)
    (hnone : ∀ pair ∈ switch.keys.zip switch.targets, pair.1 ≠ key) : switch.Chooses key switch.default := by
  refine .default fun hkey => ?_
  rw [← List.map_fst_zip (Nat.le_of_eq hlen)] at hkey
  obtain ⟨pair, hpair, hfst⟩ := List.mem_map.1 hkey
  exact hnone pair hpair hfst

/-- The slot of a key in a table holds what the switch chooses. -/
theorem exists_chooses_table (hkind : switch.kind = .table) (hlen : switch.keys.length = switch.targets.length)
    (pc : Nat) (key : Int32) :
    ∃ goal, switch.Chooses key goal ∧ switch.targetOf pc key.toInt = switch.target pc goal := by
  rw [targetOf]
  cases hfind : (switch.keys.zip switch.targets).reverse.find? fun pair => pair.1.toInt = key.toInt with
  | some pair =>
    obtain ⟨found, label⟩ := pair
    obtain ⟨hfound, behind, front, hsplit, hbehind⟩ := List.find?_eq_some_iff_append.1 hfind
    obtain rfl : found = key := Int32.toInt_inj.1 (by simpa using hfound)
    have hzip : switch.keys.zip switch.targets = front.reverse ++ (found, label) :: behind.reverse := by
      rw [← List.reverse_reverse (switch.keys.zip switch.targets), hsplit]
      simp
    refine ⟨some label, chooses_of_zip hlen hzip ?_, rfl⟩
    simp only [hkind]
    intro pair hpair heq
    have := hbehind pair (List.mem_reverse.1 hpair)
    simp [heq] at this
  | none =>
    refine ⟨switch.default, chooses_default hlen fun pair hpair heq => ?_, defaultTarget_eq switch pc⟩
    have := List.find?_eq_none.1 hfind pair (List.mem_reverse.2 hpair)
    simp [heq] at this

/-- The first pair of a key in a lookup holds what the switch chooses. -/
theorem exists_chooses_lookup (hkind : switch.kind = .lookup) (hlen : switch.keys.length = switch.targets.length)
    (pc : Nat) (key : Int32) :
    ∃ goal, switch.Chooses key goal ∧
      ((((switch.keys.zip (switch.targets.map SwitchTarget.label)).find? (·.1 = key)).map (·.2)).getD
        (switch.defaultTarget pc)) = switch.target pc goal := by
  rw [List.zip_map_right, List.find?_map]
  cases hfind : (switch.keys.zip switch.targets).find? fun pair => pair.1 = key with
  | some pair =>
    obtain ⟨found, label⟩ := pair
    obtain ⟨hfound, front, behind, hsplit, hfront⟩ := List.find?_eq_some_iff_append.1 hfind
    obtain rfl : found = key := by simpa using hfound
    have hfind' : (switch.keys.zip switch.targets).find? ((fun pair => decide (pair.1 = found)) ∘
        Prod.map id SwitchTarget.label) = some (found, label) := hfind
    refine ⟨some label, chooses_of_zip hlen hsplit ?_, by rw [hfind']; rfl⟩
    simp only [hkind]
    intro pair hpair heq
    have := hfront pair hpair
    simp [heq] at this
  | none =>
    have hfind' : (switch.keys.zip switch.targets).find? ((fun pair => decide (pair.1 = key)) ∘
        Prod.map id SwitchTarget.label) = none := hfind
    refine ⟨switch.default, chooses_default hlen fun pair hpair heq => ?_, ?_⟩
    · have := List.find?_eq_none.1 hfind pair hpair
      simp [heq] at this
    · rw [hfind']
      exact defaultTarget_eq switch pc

/-! ### What the machine finds -/

/-- No key of a table is outside of its slots. -/
theorem slot_lt {key : Int32} (h : key ∈ switch.keys) :
    switch.bounds.1 ≤ key.toInt ∧ (key.toInt - switch.bounds.1).toNat < switch.bounds.2.2 := by
  obtain ⟨hlow, hhigh⟩ := bounds_of_mem h
  refine ⟨hlow, ?_⟩
  rw [bounds_count]
  omega

theorem targetOf_of_notMem {key : Int32} (h : key ∉ switch.keys) :
    switch.targetOf pc key.toInt = switch.defaultTarget pc := by
  rw [targetOf]
  split
  · rename_i found label hfind
    have hmem := List.mem_reverse.1 (List.mem_of_find?_eq_some hfind)
    have hkey := List.find?_some hfind
    obtain rfl : found = key := Int32.toInt_inj.1 (by simpa using hkey)
    exact absurd (List.of_mem_zip hmem).1 h
  · rfl

/-- A table that was read jumps to where the switch goes. -/
theorem jump?_table {operand : ReadOperand} (h : switch.tableOperand? layout pc = some operand) (key : Int32) :
    ∃ z, operand.jump? key.toInt = some z ∧ distance? layout pc (switch.targetOf pc key.toInt) = some z := by
  have hparts : (distance? layout pc (switch.defaultTarget pc) >>= fun default =>
      ((List.range switch.bounds.2.2).map fun (i : Nat) => switch.targetOf pc (switch.bounds.1 + i)).mapM
        (distance? layout pc) >>= fun distances =>
      some (ReadOperand.tableSwitch default switch.bounds.1 switch.bounds.2.1 distances)) = some operand := h
  obtain ⟨default, hdefault, hparts⟩ := Option.bind_eq_some_iff.1 hparts
  obtain ⟨distances, hdistances, hparts⟩ := Option.bind_eq_some_iff.1 hparts
  obtain rfl := Option.some.inj hparts
  by_cases hbetween : switch.bounds.1 ≤ key.toInt ∧ key.toInt ≤ switch.bounds.2.1
  · obtain ⟨i, hi⟩ : ∃ i : Nat, key.toInt = switch.bounds.1 + i := ⟨(key.toInt - switch.bounds.1).toNat, by omega⟩
    have hindex : (key.toInt - switch.bounds.1).toNat = i := by omega
    have hlt : i < switch.bounds.2.2 := by
      rw [bounds_count]
      omega
    have hslots := forall₂_of_mapM hdistances
    have hlength : distances.length = switch.bounds.2.2 := by
      rw [← hslots.length_eq, List.length_map, List.length_range]
    have hslot := hslots.get (by simpa using hlt) (hlength ▸ hlt)
    simp only [List.get_eq_getElem, List.getElem_map, List.getElem_range] at hslot
    refine ⟨distances[i], ?_, by rw [hi, hslot]⟩
    rw [ReadOperand.jump?, if_pos hbetween, hindex, List.getElem?_eq_getElem]
  · -- Beyond its bounds a table has no key, so that the switch has only its default to go to.
    have hnot : key ∉ switch.keys := fun hmem => hbetween (bounds_of_mem hmem)
    refine ⟨default, ?_, by rw [targetOf_of_notMem hnot, hdefault]⟩
    rw [ReadOperand.jump?, if_neg hbetween]

/-- The first pair with a key, before and after labels are replaced by distances. -/
private theorem distance?_find? {items : List (Int32 × SwitchTarget)} {pairs : List (Int × Int)} {other : SwitchTarget}
    {default : Int} (hdefault : distance? layout pc other = some default)
    (h : List.Forall₂ (fun item pair => (do return (item.1.toInt, ← distance? layout pc item.2)) = some pair)
      items pairs) :
    distance? layout pc (((items.find? (·.1 = key)).map (·.2)).getD other) =
      some (((pairs.find? (·.1 = key.toInt)).map (·.2)).getD default) := by
  induction h with
  | nil => exact hdefault
  | @cons item pair items pairs hitem _ ih =>
    obtain ⟨z, hz, hitem⟩ := Option.bind_eq_some_iff.1 hitem
    obtain rfl := Option.some.inj hitem
    by_cases heq : item.1 = key
    · simpa [heq] using hz
    · have hne : item.1.toInt ≠ key.toInt := fun h => heq (Int32.toInt_inj.1 h)
      simpa [heq, hne] using ih

/-- A lookup that was read jumps to where its first pair with the key goes. -/
theorem jump?_lookup {operand : ReadOperand} (h : switch.lookupOperand? layout pc = some operand) (key : Int32) :
    ∃ z, operand.jump? key.toInt = some z ∧
      distance? layout pc ((((switch.keys.zip (switch.targets.map SwitchTarget.label)).find? (·.1 = key)).map
        (·.2)).getD (switch.defaultTarget pc)) = some z := by
  obtain ⟨default, hdefault, h⟩ := Option.bind_eq_some_iff.1 h
  obtain ⟨pairs, hpairs, h⟩ := Option.bind_eq_some_iff.1 h
  obtain rfl := Option.some.inj h
  exact ⟨_, rfl, distance?_find? hdefault (forall₂_of_mapM hpairs)⟩

/-- The operand that is to be read of a switch, by its form. -/
def operand? (switch : Switch) (layout : Layout) (pc : Nat) : Option ReadOperand :=
  match switch.kind with
  | .table => switch.tableOperand? layout pc
  | .lookup => switch.lookupOperand? layout pc

/-- A switch that was read jumps to the target that it is meant to choose. -/
theorem exists_jump? (hlen : switch.keys.length = switch.targets.length) {operand : ReadOperand}
    (h : switch.operand? layout pc = some operand) (key : Int32) :
    ∃ goal z, switch.Chooses key goal ∧ operand.jump? key.toInt = some z ∧
      distance? layout pc (switch.target pc goal) = some z := by
  cases hkind : switch.kind with
  | table =>
    simp only [operand?, hkind] at h
    obtain ⟨goal, hgoal, htarget⟩ := exists_chooses_table hkind hlen pc key
    obtain ⟨z, hjump, hz⟩ := jump?_table h key
    exact ⟨goal, z, hgoal, hjump, htarget ▸ hz⟩
  | lookup =>
    simp only [operand?, hkind] at h
    obtain ⟨goal, hgoal, htarget⟩ := exists_chooses_lookup hkind hlen pc key
    obtain ⟨z, hjump, hz⟩ := jump?_lookup h key
    exact ⟨goal, z, hgoal, hjump, htarget ▸ hz⟩

/-- A switch with a target for each key, and with not too many keys for its length, can be planned. -/
theorem plan_ne_error (hlen : switch.keys.length = switch.targets.length) (hsize : switch.size pc ≤ Body.maxLength)
    (e : AssemblyError) : switch.plan pc ≠ .error e := by
  intro h
  rw [plan] at h
  simp only [hlen, ne_eq, not_true_eq_false, ↓reduceIte] at h
  split at h
  · cases h
  · rename_i hkind
    have hlt : switch.size pc < lengthLimit := Nat.lt_of_le_of_lt hsize (by decide)
    have hcount := size_table hkind hlt
    have hcapacity : Bytes.capacity 2 = 65536 := rfl
    have hfits : switch.bounds.2.2 < Bytes.capacity 2 := by
      unfold Body.maxLength at hsize
      omega
    rw [if_pos hfits] at h
    cases h

end Switch

namespace Body

variable {body : Body} {layout : Layout} {instruction : Instruction} {switch : Switch} {pc next : Nat}

/-! ### Switches in code -/

/-- The layout that a body keeps has a program counter for every label that is jumped to. -/
theorem Built.exists_pcOf (h : body.Built) (hlayout : body.layout = some layout)
    (hinstruction : instruction ∈ body.instructions.toList) {target : Label} (htarget : target ∈ instruction.targets) :
    ∃ pc, layout.pcOf target = .ok pc := by
  obtain ⟨ops, rfl⟩ := h
  obtain ⟨before, rest, method, hby⟩ := exists_laidOutBy hlayout
  have hwidens : Widens (made before) (made ops) := by
    rw [hby.ops_eq, made_append, List.foldl_cons]
    exact (widens_apply rfl).trans (widens_foldl hby.kept _)
  have hsame : (ops.foldl BodyOp.apply {}).instructions = (made before).instructions := hwidens.instructions
  rw [hsame] at hinstruction
  exact pcOf_of_computeLayout (layOut_eq_ok_iff.1 hby.layOut) hinstruction htarget

/-- A switch starts at `pc` in code that is laid out, and the next instruction, or the end of the code, is at `next`. -/
structure SwitchAt (body : Body) (layout : Layout) (instruction : Instruction) (switch : Switch) (pc next : Nat) :
    Prop where
  built : body.Built
  layout_eq : body.layout = some layout
  opcode : instruction.opcode = .tableSwitch ∨ instruction.opcode = .lookupSwitch
  operand : instruction.operand = .switch switch
  position : ∃ i : Nat, body.instructions[i]? = some instruction ∧ layout.starts[i]? = some pc ∧
    next = layout.starts[i + 1]?.getD layout.length

/-- The format of the operand of each form of a switch. -/
private def formatOf : SwitchKind → OperandFormat
  | .table => .tableSwitch
  | .lookup => .lookupSwitch

private theorem exists_format (h : instruction.opcode = .tableSwitch ∨ instruction.opcode = .lookupSwitch) :
    ∃ byte kind, instruction.opcode = .standard byte ∧ formatOf? byte = some (formatOf kind) := by
  rcases h with h | h
  · exact ⟨0xAA, .table, h, by decide⟩
  · exact ⟨0xAB, .lookup, h, by decide⟩

/-- A switch that has a length is of the form that its opcode asks for. -/
private theorem length_switch {byte : UInt8} {kind : SwitchKind} {n : Nat}
    (hopcode : instruction.opcode = .standard byte) (hformat : formatOf? byte = some (formatOf kind))
    (hoperand : instruction.operand = .switch switch) (hlength : instruction.length pc = .ok n) :
    n = switch.size pc ∧ ∃ info, (Opcode.standard byte).info = .ok info ∧ info.format = formatOf switch.kind := by
  rw [Instruction.length, hopcode] at hlength
  simp only at hlength
  generalize hinfo : (Opcode.standard byte).info = found at hlength ⊢
  cases found with
  | error e => cases hlength
  | ok info =>
    have hsame := Option.some.inj ((Instruction.info_spec hinfo).2.1.symm.trans hformat)
    cases kind <;> simp only [hsame, hoperand, formatOf] at hlength <;> split at hlength
    · exact ⟨(Except.ok.inj hlength).symm, info, rfl, by rw [hsame, ‹switch.kind = _›]⟩
    · cases hlength
    · exact ⟨(Except.ok.inj hlength).symm, info, rfl, by rw [hsame, ‹switch.kind = _›]⟩
    · cases hlength

namespace SwitchAt

/-- The opcode is that of the form of the switch, and the next instruction starts where the switch ends. -/
private theorem stands (h : body.SwitchAt layout instruction switch pc next) :
    (∃ byte info, instruction.opcode = .standard byte ∧ (Opcode.standard byte).info = .ok info ∧
      info.format = formatOf switch.kind) ∧
      instruction.length pc = .ok (switch.size pc) ∧ next = pc + switch.size pc ∧ next ≤ maxLength := by
  obtain ⟨i, hinstruction, hpc, rfl⟩ := h.position
  have hlaid := h.built.current layout h.layout_eq
  have hinstruction' : body.instructions.toList[i]? = some instruction := by rw [Array.getElem?_toList, hinstruction]
  have hpc' : layout.starts.toList[i]? = some pc := by rw [Array.getElem?_toList, hpc]
  obtain ⟨n, hn, hnext⟩ := hlaid.next_eq hinstruction' hpc'
  obtain ⟨byte, kind, hopcode, hformat⟩ := exists_format h.opcode
  obtain ⟨rfl, info, hinfo, hkind⟩ := length_switch hopcode hformat h.operand hn
  have hmem : (instruction, pc) ∈ body.instructions.toList.zip layout.starts.toList :=
    List.mem_of_getElem? (List.getElem?_zip_eq_some.2 ⟨hinstruction', hpc'⟩)
  have hle := hlaid.add_length_le hmem hn
  rw [Array.getElem?_toList] at hnext
  exact ⟨⟨byte, info, hopcode, hinfo, hkind⟩, hn, hnext, hnext ▸ hle⟩

theorem mem (h : body.SwitchAt layout instruction switch pc next) : instruction ∈ body.instructions.toList := by
  obtain ⟨i, hinstruction, -, -⟩ := h.position
  exact Array.mem_toList_iff.2 (Array.mem_of_getElem? hinstruction)

theorem size_le (h : body.SwitchAt layout instruction switch pc next) : switch.size pc ≤ maxLength := by
  obtain ⟨-, -, rfl, hle⟩ := h.stands
  omega

/-- What is read of the instruction is the switch. -/
theorem operand?_eq (h : body.SwitchAt layout instruction switch pc next) {pool : Pool} {read : ReadInstruction}
    (hread : instruction.resolved? pool layout pc = some read) : switch.operand? layout pc = some read.operand := by
  obtain ⟨⟨byte, info, hopcode, hinfo, hkind⟩, -⟩ := h.stands
  have hformat := (Instruction.info_spec hinfo).2.1
  simp only [Instruction.resolved?, hopcode, hformat, Option.bind_eq_bind, Option.bind_some] at hread
  obtain ⟨operand, hoperand, hread⟩ := Option.bind_eq_some_iff.1 hread
  obtain rfl := Option.some.inj hread
  rw [← hoperand, hkind, Switch.operand?]
  cases switch.kind <;> simp only [formatOf, Instruction.resolvedOperand?, h.operand]

/-- A switch with a target for each key can always be written. -/
theorem exists_isWritten (h : body.SwitchAt layout instruction switch pc next)
    (hlen : switch.keys.length = switch.targets.length) (pool : Pool) {scope : Scope}
    (hcode : scope.code = some layout) :
    ∃ bytes, Emit.Yields pool scope (instruction.emit pc) (.ok bytes) ∧
      IsWritten pool layout (instruction, pc) bytes := by
  obtain ⟨⟨byte, info, hopcode, hinfo, hkind⟩, hlength, -⟩ := h.stands
  have hlabel : ∀ label ∈ switch.labels, ∀ e, scope.pcOf label = .error e → False := by
    intro label hlabel e he
    have htarget : label ∈ instruction.targets := by rwa [Instruction.targets, h.operand]
    obtain ⟨target, hpc⟩ := h.built.exists_pcOf h.layout_eq h.mem htarget
    rw [Scope.pcOf, hcode] at he
    cases hpc.symm.trans he
  have hswitch : Emit.Outcome pool scope (switch.emit pc) (fun _ => True) (fun _ => False) :=
    (Switch.reports_emit (fun e he => Switch.plan_ne_error hlen h.size_le e he) hlabel).outcome fun _ _ _ => trivial
  have hoperand : instruction.emitOperand info pc = switch.emit pc := by
    rw [Instruction.emitOperand, hkind, h.operand]
    cases switch.kind <;> rfl
  have hlookup : Emit.Outcome pool scope (Emit.ofExcept (.ok info)) (· = info) (fun _ => False) :=
    .ofExcept (by simp) (by simp)
  have hemit : Emit.Outcome pool scope (instruction.emit pc) (fun _ => True) (fun _ => False) := by
    rw [Instruction.emit, hopcode]
    simp only [hinfo]
    refine hlookup.bind ?_
    rintro _ rfl
    rw [hoperand]
    exact hswitch.bind fun _ _ => .pure trivial
  obtain ⟨result, hyields, hresult⟩ := hemit
  cases result with
  | error e => exact hresult.elim
  | ok bytes =>
    obtain ⟨after, hrun⟩ := hyields #[]
    have hlt : switch.size pc < lengthLimit := Nat.lt_of_le_of_lt h.size_le (by decide)
    obtain ⟨-, hbytes, hread⟩ := (Instruction.ensures_emit hcode hlength hlt).of_ok rfl hrun
    exact ⟨bytes, hyields, by rw [hlength, hbytes], hread⟩

/-- A distance that is read leads to what the switch chooses. -/
private theorem reaches_of_distance? (h : body.SwitchAt layout instruction switch pc next) {goal : Option Label}
    {z : Int} (hz : Switch.distance? layout pc (switch.target pc goal) = some z) :
    ∃ target : Nat, layout.Reaches next goal target ∧ (pc : Int) + z = target := by
  obtain ⟨-, -, hnext, hle⟩ := h.stands
  -- Program counters take two bytes, so that a distance between them is never cut off in four.
  unfold maxLength at hle
  cases goal with
  | none =>
    have hend : min (pc + switch.size pc) lengthLimit = next := by
      unfold lengthLimit
      omega
    have hself : Bytes.signed 4 ((next : Int) - pc) = (next : Int) - pc := Bytes.signed_four (by omega)
    rw [Switch.target, hend, Switch.distance?, hself] at hz
    obtain rfl := Option.some.inj hz
    exact ⟨next, rfl, by omega⟩
  | some label =>
    obtain ⟨start, method, hlayout⟩ := h.built.computed layout h.layout_eq
    cases hpc : layout.pcOf label with
    | error e =>
      rw [Switch.target, Switch.distance?, Layout.distance?, hpc] at hz
      cases hz
    | ok target =>
      have htarget : target ≤ 65535 := pcOf_le_of_computeLayout hlayout hpc
      have hself : Bytes.signed 4 ((target : Int) - pc) = (target : Int) - pc := Bytes.signed_four (by omega)
      rw [Switch.target, Switch.distance?, Layout.distance?, hpc] at hz
      have hvalue : Bytes.signed 4 ((target : Int) - pc) = z := Option.some.inj hz
      exact ⟨target, hpc, by omega⟩

/-- On every key there is a target that the switch chooses, and the machine goes there from whatever was written of the
switch. -/
theorem exists_target (h : body.SwitchAt layout instruction switch pc next)
    (hlen : switch.keys.length = switch.targets.length) (key : Int32) :
    ∃ goal target, switch.Chooses key goal ∧ layout.Reaches next goal target ∧
      ∀ (pool : Pool) (before bytes after : Bytes), before.length = pc → IsWritten pool layout (instruction, pc) bytes →
        dispatch? (before ++ bytes ++ after) pc key = some (target : Int) := by
  -- What is read does not depend on the pool, so any writing of the switch tells what all of them come to.
  have hcode : ({ code := some layout } : Scope).code = some layout := rfl
  obtain ⟨_, -, -, read, hread, -⟩ := h.exists_isWritten hlen .empty hcode
  obtain ⟨goal, z, hgoal, hjump, hz⟩ := Switch.exists_jump? hlen (h.operand?_eq hread) key
  obtain ⟨target, hreaches, htarget⟩ := h.reaches_of_distance? hz
  refine ⟨goal, target, hgoal, hreaches, fun pool before bytes after hbefore hwritten => ?_⟩
  obtain ⟨-, read', hread', hreads⟩ := hwritten
  have hsame := Option.some.inj ((h.operand?_eq hread').symm.trans (h.operand?_eq hread))
  rw [dispatch?_append hbefore hreads, hsame, hjump, Option.map_some, htarget]

end SwitchAt

/-- The bytes of one of the instructions of a layout, among those of the others. -/
theorem Laid.exists_part {pool : Pool} {stop start i : Nat} {instructions : List Instruction} {starts : List Nat}
    (h : Laid pc instructions starts stop) {parts : List Bytes}
    (hparts : List.Forall₂ (IsWritten pool layout) (instructions.zip starts) parts)
    (hinstruction : instructions[i]? = some instruction) (hstart : starts[i]? = some start) :
    ∃ before part after, parts.flatten = before ++ part ++ after ∧ pc + before.length = start ∧
      IsWritten pool layout (instruction, start) part := by
  induction h generalizing i parts with
  | nil => simp at hinstruction
  | cons hlength _ _ ih =>
    rw [List.zip_cons_cons] at hparts
    cases hparts with
    | @cons _ first _ parts hfirst hparts =>
      cases i with
      | zero =>
        simp only [List.getElem?_cons_zero, Option.some.injEq] at hinstruction hstart
        subst hinstruction hstart
        exact ⟨[], first, parts.flatten, by simp, by simp, hfirst⟩
      | succ i =>
        simp only [List.getElem?_cons_succ] at hinstruction hstart
        obtain ⟨before, part, after, hflatten, hbefore, hpart⟩ := ih hparts hinstruction hstart
        have hn := Except.ok.inj (hlength.symm.trans hfirst.1)
        refine ⟨first ++ before, part, after, by simp [hflatten], ?_, hpart⟩
        rw [List.length_append]
        omega

/-- The machine goes to `target` from the switch at `pc` in whatever is written of the body. -/
def Goes (body : Body) (pc : Nat) (key : Int32) (target : Nat) : Prop :=
  ∀ (pool : Pool) (s s' : Reported Scope) (bytes : Bytes), body.emit pool s = .ok bytes s' →
    dispatch? bytes pc key = some (target : Int)

/-- What a switch writes on its own it writes as part of the code. -/
theorem SwitchAt.goes (h : body.SwitchAt layout instruction switch pc next) {key : Int32} {target : Nat}
    (hdispatch : ∀ (pool : Pool) (before bytes after : Bytes), before.length = pc →
      IsWritten pool layout (instruction, pc) bytes →
        dispatch? (before ++ bytes ++ after) pc key = some (target : Int)) : body.Goes pc key target := by
  intro pool s s' bytes hrun
  have hlaid := h.built.current layout h.layout_eq
  rw [emit, h.layout_eq] at hrun
  obtain ⟨-, parts, rfl, hparts⟩ := (ensures_emitWith hlaid).of_ok rfl hrun
  obtain ⟨i, hinstruction, hpc, -⟩ := h.position
  obtain ⟨before, part, after, hflatten, hbefore, hpart⟩ := hlaid.exists_part hparts
    (by rw [Array.getElem?_toList, hinstruction]) (by rw [Array.getElem?_toList, hpc])
  rw [hflatten]
  exact hdispatch pool before part after (by omega) hpart

/-- In code that is laid out, a switch with a target for each key can be written, and the machine goes from its bytes,
on every key, to where the switch is meant to go: to the target of the last occurrence of the key in a table, and of the
first one in a lookup, or else to the default, or else to the next instruction or the end of the code. No slot of a
table is missed. So a table and a lookup with the same distinct keys and the same default label go to the same labels.
-/
theorem switch_goes :
    (∀ (body : Body) (layout : Layout) (instruction : Instruction) (switch : Switch) (pc next : Nat),
      body.SwitchAt layout instruction switch pc next → switch.keys.length = switch.targets.length →
      (∀ key ∈ switch.keys, switch.bounds.1 ≤ key.toInt ∧
        (key.toInt - switch.bounds.1).toNat < switch.bounds.2.2) ∧
      ∀ key : Int32, ∃ goal target, switch.Chooses key goal ∧ layout.Reaches next goal target ∧
        body.Goes pc key target ∧
        ∀ (pool : Pool) (scope : Scope), scope.code = some layout → ∃ bytes,
          Emit.Yields pool scope (instruction.emit pc) (.ok bytes) ∧
          ∀ before after : Bytes, before.length = pc →
            dispatch? (before ++ bytes ++ after) pc key = some (target : Int)) ∧
    ∀ (body body' : Body) (layout layout' : Layout) (instruction instruction' : Instruction) (table lookup : Switch)
      (pc pc' next next' : Nat) (default : Label), body.SwitchAt layout instruction table pc next →
      body'.SwitchAt layout' instruction' lookup pc' next' → table.kind = .table → lookup.kind = .lookup →
      lookup.keys = table.keys → lookup.targets = table.targets → table.default = some default →
      lookup.default = some default → table.keys.length = table.targets.length → table.keys.Nodup →
      ∀ key : Int32, ∃ label target target', layout.pcOf label = .ok target ∧ layout'.pcOf label = .ok target' ∧
        body.Goes pc key target ∧ body'.Goes pc' key target' := by
  refine ⟨fun body layout instruction switch pc next h hlen => ⟨fun key => Switch.slot_lt, fun key => ?_⟩, ?_⟩
  · obtain ⟨goal, target, hgoal, hreaches, hdispatch⟩ := h.exists_target hlen key
    refine ⟨goal, target, hgoal, hreaches, h.goes hdispatch, fun pool scope hcode => ?_⟩
    obtain ⟨bytes, hyields, hwritten⟩ := h.exists_isWritten hlen pool hcode
    exact ⟨bytes, hyields, fun before after hbefore => hdispatch pool before bytes after hbefore hwritten⟩
  · intro body body' layout layout' instruction instruction' table lookup pc pc' next next' default h h' _ _ hkeys
      htargets hdefault hdefault' hlen hdistinct key
    have hlen' : lookup.keys.length = lookup.targets.length := by rw [hkeys, htargets, hlen]
    obtain ⟨goal, target, hgoal, hreaches, hdispatch⟩ := h.exists_target hlen key
    obtain ⟨goal', target', hgoal', hreaches', hdispatch'⟩ := h'.exists_target hlen' key
    obtain rfl := hgoal.eq hgoal' hkeys htargets (hdefault'.trans hdefault.symm) hdistinct
    obtain ⟨label, rfl⟩ := hgoal.exists_label hdefault
    exact ⟨label, target, target', hreaches, hreaches', h.goes hdispatch, h'.goes hdispatch'⟩

/-- Code that starts with a switch, between two labels and with a return behind it. -/
private def switching (switch : Switch) : List BodyOp :=
  [.freshLabel, .freshLabel, .place ⟨0⟩, .push (.switch switch), .push { opcode := .standard 0xB1 }, .place ⟨1⟩,
    .layOut "choose"]

/-- A key that occurs twice, a key that is left out, and no default. -/
private def gappedTable : Switch where
  kind := .table
  keys := [3, 1, 3]
  targets := [⟨0⟩, ⟨0⟩, ⟨1⟩]

private def distinctSwitch (kind : SwitchKind) : Switch where
  kind := kind
  keys := [7, -2]
  targets := [⟨0⟩, ⟨1⟩]
  default := some ⟨0⟩

private def switchingLayout (next : Nat) : Layout := ⟨#[0, next], #[⟨"l0", some 0⟩, ⟨"l1", some (next + 1)⟩], next + 1⟩

private theorem switchAt_switching {switch : Switch} {next : Nat}
    (hlayout : (made (switching switch)).layout = some (switchingLayout next))
    (hinstruction : (made (switching switch)).instructions[0]? = some (.switch switch)) :
    (made (switching switch)).SwitchAt (switchingLayout next) (.switch switch) switch 0 next where
  built := ⟨_, rfl⟩
  layout_eq := hlayout
  opcode := by
    rw [Instruction.switch]
    cases switch.kind
    · exact .inl rfl
    · exact .inr rfl
  operand := rfl
  position := ⟨0, hinstruction, rfl, rfl⟩

/-- On the key 3 the table goes to the end of the code, since this was given for it last. The two forms of the other
switch have different lengths and go to the same label. -/
theorem switch_goes_switching :
    (∃ goal, gappedTable.Chooses 3 goal ∧ (switchingLayout 28).Reaches 28 goal 29 ∧
      (made (switching gappedTable)).Goes 0 3 29) ∧
    ∃ label target target', (switchingLayout 56).pcOf label = .ok target ∧
      (switchingLayout 28).pcOf label = .ok target' ∧
      (made (switching (distinctSwitch .table))).Goes 0 (-2) target ∧
      (made (switching (distinctSwitch .lookup))).Goes 0 (-2) target' := by
  have hgapped : (made (switching gappedTable)).SwitchAt (switchingLayout 28) _ gappedTable 0 28 :=
    switchAt_switching (by decide +kernel) (by decide +kernel)
  have htable : (made (switching (distinctSwitch .table))).SwitchAt (switchingLayout 56) _ _ 0 56 :=
    switchAt_switching (by decide +kernel) (by decide +kernel)
  have hlookup : (made (switching (distinctSwitch .lookup))).SwitchAt (switchingLayout 28) _ _ 0 28 :=
    switchAt_switching (by decide +kernel) (by decide +kernel)
  refine ⟨?_, switch_goes.2 _ _ _ _ _ _ _ _ _ _ _ _ ⟨0⟩ htable hlookup rfl rfl rfl rfl rfl rfl rfl (by decide) (-2)⟩
  obtain ⟨goal, target, hgoal, hreaches, hgoes, -⟩ := (switch_goes.1 _ _ _ _ _ _ hgapped rfl).2 3
  have hvalue : Emit.value? (made (switching gappedTable)).emit .empty ⟨{}, #[]⟩ =
      some [0xAA, 0, 0, 0, 0, 0, 0, 28, 0, 0, 0, 1, 0, 0, 0, 3, 0, 0, 0, 0, 0, 0, 0, 28, 0, 0, 0, 29, 0xB1] := by
    decide +kernel
  obtain ⟨s', hrun⟩ := Emit.exists_of_value? hvalue
  have htarget : (29 : Int) = target := by
    refine Option.some.inj (Eq.trans ?_ (hgoes _ _ _ _ hrun))
    decide +kernel
  obtain rfl : 29 = target := by omega
  exact ⟨goal, hgoal, hreaches, hgoes⟩

end Body

end JvmAssembler
