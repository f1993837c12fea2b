import JvmAssembler.Proofs.Bytecode.Decode
import JvmAssembler.Proofs.Emission

/-!
# Switches as bytes

What a switch writes is read back as the switch: the lowest and the highest key of a table and, for each key
between them, the distance to the last target that was given for the key (`Switch.getElem?_tableSlots`), or the
keys of a lookup with the distances to their targets. The length of what is written is `Switch.size`.
-/

namespace JvmAssembler

theorem Bytes.signed_four {z : Int} (h : -2147483648 ≤ z ∧ z < 2147483648) : Bytes.signed 4 z = z := by
  have hcap : Bytes.capacity 4 = 4294967296 := rfl
  exact signed_eq_self (by omega) (by omega)

theorem Int32.toInt_bounds (x : Int32) : -2147483648 ≤ x.toInt ∧ x.toInt < 2147483648 :=
  ⟨x.le_toInt, x.toInt_lt⟩

namespace Switch

variable {switch : Switch} {pool : Pool} {scope : Scope} {layout : Layout} {pc : Nat}

theorem alignment_eq (pc : Nat) : alignment pc = padding pc := by
  unfold alignment padding
  omega

/-! ### Bounds of the keys -/

theorem bounds_count (switch : Switch) :
    switch.bounds.2.2 = (switch.bounds.2.1 - switch.bounds.1 + 1).toNat := by
  unfold bounds
  split <;> rfl

/-- The bounds of keys are the least and the greatest of them. -/
private theorem bounds_spec (switch : Switch) :
    (switch.keys = [] ∧ switch.bounds.1 = 0 ∧ switch.bounds.2.1 = -1) ∨
      (switch.keys.map Int32.toInt).min? = some switch.bounds.1 ∧
        (switch.keys.map Int32.toInt).max? = some switch.bounds.2.1 := by
  unfold bounds
  split
  · rename_i hnil
    exact .inl ⟨List.map_eq_nil_iff.1 hnil, rfl, rfl⟩
  · rename_i first rest hcons
    rw [hcons]
    exact .inr ⟨List.min?_cons', List.max?_cons'⟩

/-- Every key lies between the bounds. -/
theorem bounds_of_mem {key : Int32} (h : key ∈ switch.keys) :
    switch.bounds.1 ≤ key.toInt ∧ key.toInt ≤ switch.bounds.2.1 := by
  have hmem : key.toInt ∈ switch.keys.map Int32.toInt := List.mem_map_of_mem h
  rcases bounds_spec switch with ⟨hnil, -⟩ | ⟨hlow, hhigh⟩
  · rw [hnil] at h
    cases h
  · exact ⟨(List.min?_eq_some_iff.1 hlow).2 _ hmem, (List.max?_eq_some_iff.1 hhigh).2 _ hmem⟩

theorem signed_bounds (switch : Switch) :
    Bytes.signed 4 switch.bounds.1 = switch.bounds.1 ∧ Bytes.signed 4 switch.bounds.2.1 = switch.bounds.2.1 := by
  rcases bounds_spec switch with ⟨-, hlow, hhigh⟩ | ⟨hlow, hhigh⟩
  · rw [hlow, hhigh]
    exact ⟨Bytes.signed_four (by omega), Bytes.signed_four (by omega)⟩
  · obtain ⟨low, -, hlow⟩ := List.mem_map.1 (List.min?_eq_some_iff.1 hlow).1
    obtain ⟨high, -, hhigh⟩ := List.mem_map.1 (List.max?_eq_some_iff.1 hhigh).1
    rw [← hlow, ← hhigh]
    exact ⟨Bytes.signed_four (Int32.toInt_bounds low), Bytes.signed_four (Int32.toInt_bounds high)⟩

/-! ### Tables -/

/-- Setting a slot for each pair: a slot holds what the last pair with its key says, if there is one. -/
private theorem getElem?_setSlots (low : Int) (pairs : List (Int32 × Label)) (hlow : ∀ p ∈ pairs, low ≤ p.1.toInt)
    (slots : Array SwitchTarget) (i : Nat) (hi : i < slots.size) :
    (pairs.foldl (fun slots (key, target) => slots.setIfInBounds (key.toInt - low).toNat (.label target)) slots)[i]? =
      match pairs.reverse.find? fun p => p.1.toInt = low + i with
      | some (_, label) => some (.label label)
      | none => slots[i]? := by
  induction pairs generalizing slots with
  | nil => simp
  | cons p pairs ih =>
    obtain ⟨key, target⟩ := p
    have hp : low ≤ key.toInt := hlow (key, target) (by simp)
    rw [List.foldl_cons, ih (fun q hq => hlow q (by simp [hq])) _ (by simpa using hi), List.reverse_cons,
      List.find?_append]
    cases hfind : pairs.reverse.find? fun p => decide (p.1.toInt = low + i) with
    | some q => simp
    | none =>
      by_cases hkey : key.toInt = low + i
      · have hidx : (key.toInt - low).toNat = i := by omega
        simp only [hidx]
        simp [hkey, hi]
      · have hidx : (key.toInt - low).toNat ≠ i := by omega
        simp [hkey, Array.getElem?_setIfInBounds_ne hidx]

@[simp] theorem size_tableSlots (low : Int) (count : Nat) : (switch.tableSlots pc low count).size = count := by
  have hsize : ∀ (pairs : List (Int32 × Label)) (slots : Array SwitchTarget),
      (pairs.foldl (fun slots (key, target) =>
        slots.setIfInBounds (key.toInt - low).toNat (.label target)) slots).size = slots.size := by
    intro pairs
    induction pairs with
    | nil => intro slots; rfl
    | cons p pairs ih => intro slots; rw [List.foldl_cons, ih, Array.size_setIfInBounds]
  rw [tableSlots, hsize, Array.size_replicate]

/-- The slot of a key of a table has the target of the key. -/
theorem getElem?_tableSlots {count i : Nat} (hi : i < count) :
    (switch.tableSlots pc switch.bounds.1 count)[i]? = some (switch.targetOf pc (switch.bounds.1 + i)) := by
  have hlow : ∀ p ∈ switch.keys.zip switch.targets, switch.bounds.1 ≤ p.1.toInt :=
    fun p hp => (bounds_of_mem (List.of_mem_zip hp).1).1
  rw [tableSlots, getElem?_setSlots _ _ hlow _ _ (by simpa using hi), targetOf]
  split <;> simp [*]

theorem toList_tableSlots (count : Nat) :
    (switch.tableSlots pc switch.bounds.1 count).toList =
      (List.range count).map fun (i : Nat) => switch.targetOf pc (switch.bounds.1 + i) := by
  apply List.ext_getElem?
  intro i
  rw [Array.getElem?_toList]
  by_cases hi : i < count
  · rw [getElem?_tableSlots hi, List.getElem?_map, List.getElem?_range hi]
    rfl
  · rw [Array.getElem?_eq_none (by simp; omega), List.getElem?_eq_none (by simp; omega)]

/-! ### Sizes and plans -/

/-- The length of a table that is not too long for its length to be counted. -/
theorem size_table (hkind : switch.kind = .table) (h : switch.size pc < lengthLimit) :
    switch.size pc = 1 + padding pc + (12 + 4 * switch.bounds.2.2) := by
  simp only [size, hkind] at h ⊢
  omega

/-- The length of a lookup that is not too long for its length to be counted. -/
theorem size_lookup (hkind : switch.kind = .lookup) (h : switch.size pc < lengthLimit) :
    switch.size pc = 1 + padding pc + 8 * (switch.keys.length + 1) := by
  simp only [size, hkind] at h ⊢
  omega

/-- What a plan consists of, for a table. -/
theorem plan_table {plan : SwitchPlan} (hkind : switch.kind = .table) (h : switch.plan pc = .ok plan) :
    plan = ⟨padding pc, switch.size pc, switch.defaultTarget pc, switch.bounds.1, switch.bounds.2.1,
      switch.tableSlots pc switch.bounds.1 switch.bounds.2.2⟩ := by
  simp only [Switch.plan, hkind] at h
  split at h
  · cases h
  · split at h
    · exact (Except.ok.inj h).symm
    · cases h

/-- What a plan consists of, for a lookup. -/
theorem plan_lookup {plan : SwitchPlan} (hkind : switch.kind = .lookup) (h : switch.plan pc = .ok plan) :
    switch.keys.length = switch.targets.length ∧
      plan = ⟨padding pc, switch.size pc, switch.defaultTarget pc, 0, 0, (switch.targets.map .label).toArray⟩ := by
  simp only [Switch.plan, hkind] at h
  split at h
  · cases h
  · exact ⟨by omega, (Except.ok.inj h).symm⟩

/-- A switch that cannot be planned has not as many targets as keys, or spans too many keys. -/
theorem plan_error {e : AssemblyError} (h : switch.plan pc = .error e) :
    e = .switchMismatch switch.keys.length switch.targets.length ∨
      switch.kind = .table ∧ Bytes.capacity 2 ≤ switch.bounds.2.2 ∧ e = .codeOverflow (switch.size pc) := by
  rw [plan] at h
  simp only at h
  split at h
  · exact .inl (Except.error.inj h).symm
  · cases hkind : switch.kind with
    | lookup =>
      rw [hkind] at h
      cases h
    | table =>
      simp only [hkind] at h
      split at h
      · cases h
      · rename_i hcount
        exact .inr ⟨rfl, Nat.le_of_not_lt hcount, (Except.error.inj h).symm⟩

/-! ### Labels -/

/-- The labels that a switch may go to. -/
def labels (switch : Switch) : List Label := switch.targets ++ switch.default.toList

theorem mem_labels_of_defaultTarget {label : Label} (h : switch.defaultTarget pc = .label label) :
    label ∈ switch.labels := by
  rw [defaultTarget] at h
  split at h
  · rename_i target htarget
    obtain rfl := SwitchTarget.label.inj h
    simp [labels, htarget]
  · cases h

theorem mem_labels_of_targetOf {key : Int} {label : Label} (h : switch.targetOf pc key = .label label) :
    label ∈ switch.labels := by
  rw [targetOf] at h
  split at h
  · rename_i target hfind
    obtain rfl := SwitchTarget.label.inj h
    have hmem := List.mem_reverse.1 (List.mem_of_find?_eq_some hfind)
    exact List.mem_append_left _ (List.of_mem_zip hmem).2
  · exact mem_labels_of_defaultTarget h

/-! ### What is written -/

theorem ensures_reads_distance {target : SwitchTarget} (hcode : scope.code = some layout) :
    Emit.Ensures pool scope (distance pc target)
      (fun bytes => ∃ z, distance? layout pc target = some z ∧ Reads (Reader.int 4) bytes z) := by
  unfold distance
  cases target with
  | label label =>
    refine Emit.Ensures.labelPc.bind fun targetPc ⟨layout', hlayout, hpc⟩ => ?_
    obtain rfl : layout = layout' := by simpa [hcode] using hlayout
    exact Emit.Ensures.pure ⟨_, by rw [distance?, Layout.distance?, hpc]; rfl, Reads.signed 4 _⟩
  | pc target => exact Emit.Ensures.pure ⟨_, rfl, Reads.signed 4 _⟩

theorem ensures_length_distance {target : SwitchTarget} :
    Emit.Ensures pool scope (distance pc target) (fun bytes => bytes.length = 4) := by
  unfold distance
  cases target with
  | label label => exact Emit.Ensures.labelPc.bind fun _ _ => Emit.Ensures.pure (Bytes.length_beInt ..)
  | pc target => exact Emit.Ensures.pure (Bytes.length_beInt ..)

/-- A switch takes as many bytes as its size says. -/
theorem ensures_length_emit (hsize : switch.size pc < lengthLimit) :
    Emit.Ensures pool scope (switch.emit pc) (fun bytes => 1 + bytes.length = switch.size pc) := by
  unfold emit
  refine Emit.Ensures.ofExcept.bind fun plan hplan => ?_
  refine ensures_length_distance.bind fun default hdefault => ?_
  cases hkind : switch.kind with
  | table =>
    obtain rfl := plan_table hkind hplan
    refine (Emit.Ensures.each_length_const fun _ _ => ensures_length_distance).bind fun targets htargets => ?_
    refine Emit.Ensures.pure ?_
    simp only [Array.length_toList, size_tableSlots] at htargets
    simp only [List.length_append, List.length_replicate, Bytes.length_beInt, hdefault, htargets,
      size_table hkind hsize]
    omega
  | lookup =>
    obtain ⟨hlen, rfl⟩ := plan_lookup hkind hplan
    have hpair : ∀ p ∈ switch.keys.zip (switch.targets.map SwitchTarget.label).toArray.toList,
        Emit.Ensures pool scope (do return Bytes.beInt 4 p.1.toInt ++ (← distance pc p.2))
          (fun bytes => bytes.length = 8) :=
      fun p _ => ensures_length_distance.bind fun bytes hbytes => Emit.Ensures.pure (by simp [hbytes])
    refine (Emit.Ensures.each_length_const hpair).bind fun pairs hpairs => Emit.Ensures.pure ?_
    simp only [List.length_zip, List.length_map, ← hlen, Nat.min_self] at hpairs
    simp only [List.length_append, List.length_replicate, Bytes.length_be, hdefault, hpairs,
      size_lookup hkind hsize]
    omega

/-- What a table writes behind its opcode is read back. -/
theorem ensures_reads_table (hcode : scope.code = some layout) (hkind : switch.kind = .table) :
    Emit.Ensures pool scope (switch.emit pc) (fun bytes => ∃ operand,
      switch.tableOperand? layout pc = some operand ∧ Reads (readOperand pc .tableSwitch) bytes operand) := by
  unfold emit
  refine Emit.Ensures.ofExcept.bind fun plan hplan => ?_
  obtain rfl := plan_table hkind hplan
  refine (ensures_reads_distance hcode).bind fun default ⟨d, hd, hdefault⟩ => ?_
  simp only [hkind, toList_tableSlots]
  refine (Emit.Ensures.each_reads fun target _ => ensures_reads_distance hcode).bind
    fun targets ⟨zs, hzs, htargets⟩ => ?_
  refine Emit.Ensures.pure ⟨.tableSwitch d switch.bounds.1 switch.bounds.2.1 zs, ?_, ?_⟩
  · simp only [tableOperand?, hd, hzs]
    rfl
  · rw [List.length_map, List.length_range, bounds_count] at htargets
    have hlow := Reads.signed 4 switch.bounds.1
    have hhigh := Reads.signed 4 switch.bounds.2.1
    rw [(signed_bounds switch).1] at hlow
    rw [(signed_bounds switch).2] at hhigh
    rw [List.append_assoc, List.append_assoc, List.append_assoc, ← alignment_eq]
    exact (Reads.zeros _).bind (hdefault.bind (hlow.bind (hhigh.bind (htargets.map _))))

/-- What a lookup writes behind its opcode is read back. -/
theorem ensures_reads_lookup (hcode : scope.code = some layout) (hkind : switch.kind = .lookup)
    (hkeys : switch.keys.length < Bytes.capacity 4) :
    Emit.Ensures pool scope (switch.emit pc) (fun bytes => ∃ operand,
      switch.lookupOperand? layout pc = some operand ∧ Reads (readOperand pc .lookupSwitch) bytes operand) := by
  have hpair : ∀ p : Int32 × SwitchTarget, Emit.Ensures pool scope
      (do return Bytes.beInt 4 p.1.toInt ++ (← distance pc p.2))
      (fun bytes => ∃ q, (do return (p.1.toInt, ← distance? layout pc p.2)) = some q ∧
        Reads (do return (← Reader.int 4, ← Reader.int 4)) bytes q) := by
    intro p
    refine (ensures_reads_distance hcode).bind fun bytes ⟨z, hz, hbytes⟩ => ?_
    have hkey := Reads.signed 4 p.1.toInt
    rw [Bytes.signed_four (Int32.toInt_bounds p.1)] at hkey
    exact Emit.Ensures.pure ⟨(p.1.toInt, z), by rw [hz]; rfl, hkey.bind (hbytes.map _)⟩
  unfold emit
  refine Emit.Ensures.ofExcept.bind fun plan hplan => ?_
  obtain ⟨hlen, rfl⟩ := plan_lookup hkind hplan
  refine (ensures_reads_distance hcode).bind fun default ⟨d, hd, hdefault⟩ => ?_
  simp only [hkind]
  refine (Emit.Ensures.each_reads fun p _ => hpair p).bind fun pairs ⟨qs, hqs, hpairs⟩ => ?_
  refine Emit.Ensures.pure ⟨.lookupSwitch d qs, ?_, ?_⟩
  · have hpairs? : (switch.keys.zip (switch.targets.map SwitchTarget.label)).mapM (fun p => do
        return (p.1.toInt, ← distance? layout pc p.2)) = some qs := hqs
    simp only [lookupOperand?, hd, hpairs?]
    rfl
  · have hcount := Reads.nat 4 switch.keys.length
    rw [Nat.mod_eq_of_lt hkeys] at hcount
    rw [List.length_zip, List.length_map, ← hlen, Nat.min_self] at hpairs
    rw [List.append_assoc, List.append_assoc, ← alignment_eq]
    exact (Reads.zeros _).bind (hdefault.bind (hcount.bind (hpairs.map _)))

end Switch

end JvmAssembler
