import JvmAssembler.ClassFile
import JvmAssembler.Proofs.Bytecode.Freshness

/-!
# Where code is laid out

Code can be laid out exactly if the lengths of its instructions add up, each of them at the sum of those before it, to
no more than the longest code, and every label that is jumped to is placed (`Body.exists_computeLayout_iff`).
`Body.Describes` says what the layout holds then: the sums, and for each label the one where it is placed. All of
them fit two bytes, so that what is written for a label is its program counter.
-/

namespace JvmAssembler

/-- No instruction is empty. -/
theorem Instruction.length_pos {instruction : Instruction} {pc n : Nat} (h : instruction.length pc = .ok n) :
    0 < n := by
  have hsize : ∀ switch : Switch, 0 < switch.size pc := by
    intro switch
    unfold Switch.size lengthLimit
    simp only
    omega
  unfold length at h
  split at h
  · obtain rfl := Except.ok.inj h
    exact Nat.two_pos
  · obtain rfl := Except.ok.inj h
    exact Nat.two_pos
  · rename_i byte hopcode
    rw [hopcode] at h
    generalize hinfo : (Opcode.standard byte).info = found at h
    cases found with
    | error e => cases h
    | ok info =>
      simp only at h
      have hmem := (info_spec hinfo).1
      split at h
      · split at h
        · obtain rfl := Except.ok.inj h
          exact hsize _
        · cases h
      · split at h
        · obtain rfl := Except.ok.inj h
          exact hsize _
        · cases h
      · obtain rfl := Except.ok.inj h
        split <;> decide
      · cases h
      · cases h
      · cases h
      · obtain rfl := Except.ok.inj h
        -- The lengths in the table count the opcode.
        have hlength := length_of_mem_opcodeTable hmem (by simp_all)
        omega

/-- A method whose code cannot be laid out stays as it was, and the methods behind it are not reached. -/
theorem ClassFile.layOutMethods_of_error {method : Method} {code : Code} {pool : Pool} {e : AssemblyError}
    (hcode : method.code? = some code)
    (herror : code.body.layOut ((pool.utf8? method.name).getD "<unknown>") = .error e) (done rest : List Method) :
    layOutMethods done (method :: rest) pool =
      (.error e, done.reverse ++ method :: rest, code.body.rankConstants pool) := by
  have hlayOut : method.layOut ((pool.utf8? method.name).getD "<unknown>") pool =
      (.error e, code.body.rankConstants pool) := by
    simp only [Method.layOut, hcode, herror]
  rw [layOutMethods]
  simp only [hlayOut, List.reverseAux_eq]

namespace Body

variable {body : Body} {layout : Layout}

/-- The program counter behind instructions of which the first starts at `pc`, if each has a length where it starts. -/
def pcBehind? : (pc : Nat) → List Instruction → Option Nat
  | pc, [] => some pc
  | pc, instruction :: rest =>
    match instruction.length pc with
    | .ok n => pcBehind? (pc + n) rest
    | .error _ => none

/-- The sum of the lengths of the first `k` instructions, each of them at the sum of those before it. -/
def pcBefore? (body : Body) (k : Nat) : Option Nat := pcBehind? 0 (body.instructions.toList.take k)

/-! ### Sums of lengths -/

namespace Laid

variable {pc stop : Nat} {instructions : List Instruction} {starts : List Nat}

/-- Each start is the sum of the lengths before it, and the end is the sum of them all. -/
theorem pcBehind?_take (h : Laid pc instructions starts stop) (k : Nat) :
    pcBehind? pc (instructions.take k) = some (starts[k]?.getD stop) := by
  induction h generalizing k with
  | nil => simp [pcBehind?]
  | cons hlength _ hrest ih =>
    cases k with
    | zero => simp [pcBehind?]
    | succ k => simpa [pcBehind?, hlength] using ih k

/-- Sums that are all defined and small enough are the starts of a layout. -/
theorem exists_of_pcBehind? (h : ∀ k ≤ instructions.length, ∃ n, pcBehind? pc (instructions.take k) = some n ∧
    n ≤ maxLength) : ∃ starts stop, Laid pc instructions starts stop := by
  induction instructions generalizing pc with
  | nil => exact ⟨[], pc, .nil⟩
  | cons instruction rest ih =>
    cases hlength : instruction.length pc with
    | error e =>
      obtain ⟨n, hn, -⟩ := h 1 (by simp)
      simp [pcBehind?, hlength] at hn
    | ok m =>
      have hstep : ∀ k, pcBehind? pc ((instruction :: rest).take (k + 1)) = pcBehind? (pc + m) (rest.take k) := by
        intro k
        rw [List.take_succ_cons, pcBehind?, hlength]
      -- The sum of one length bounds the first instruction, and the sums behind it are those of the rest.
      obtain ⟨n, hn, hle⟩ := h 1 (by simp)
      obtain rfl : pc + m = n := by simpa [pcBehind?, hlength] using hn
      obtain ⟨starts, stop, hlaid⟩ := ih fun k hk => by
        rw [← hstep]
        exact h (k + 1) (by simpa using hk)
      exact ⟨pc :: starts, stop, .cons hlength hle hlaid⟩

theorem first_eq (h : Laid pc instructions starts stop) : starts[0]?.getD stop = pc := by
  cases h <;> rfl

/-- Every instruction reaches to the next start, and the last one to the end. -/
theorem next_eq (h : Laid pc instructions starts stop) {k start : Nat} {instruction : Instruction}
    (hinstruction : instructions[k]? = some instruction) (hstart : starts[k]? = some start) :
    ∃ n, instruction.length start = .ok n ∧ starts[k + 1]?.getD stop = start + n := by
  induction h generalizing k with
  | nil => simp at hinstruction
  | cons hlength _ hrest ih =>
    cases k with
    | zero =>
      simp only [List.getElem?_cons_zero, Option.some.injEq] at hinstruction hstart
      subst hinstruction hstart
      exact ⟨_, hlength, hrest.first_eq⟩
    | succ k =>
      simp only [List.getElem?_cons_succ] at hinstruction hstart ⊢
      exact ih hinstruction hstart

theorem increasing (h : Laid pc instructions starts stop) :
    starts.Pairwise (· < ·) ∧ (∀ start ∈ starts, pc ≤ start ∧ start < stop) ∧ pc ≤ stop := by
  induction h with
  | nil => simp
  | cons hlength _ _ ih =>
    obtain ⟨hpairwise, hbetween, hle⟩ := ih
    have hpos := Instruction.length_pos hlength
    refine ⟨.cons (fun start hstart => ?_) hpairwise, fun start hstart => ?_, by omega⟩
    · have := (hbetween start hstart).1
      omega
    · rcases List.mem_cons.1 hstart with rfl | hstart
      · omega
      · have := hbetween start hstart
        omega

end Laid

/-- A label stands where the instruction starts in front of which it is placed, or at the end of the code. -/
theorem pcOf_eq_map (hlabels : layout.labels = labelPlaces body.labels layout.starts layout.length) (label : Label) :
    layout.pcOf label = (body.labels.placement label).map fun k => layout.starts[k]?.getD layout.length := by
  rw [Layout.pcOf, hlabels, labelPlaces, Array.getElem?_map, LabelTable.placement]
  cases body.labels.infos[label.id]? with
  | none => rfl
  | some info =>
    obtain ⟨name, placement⟩ := info
    cases placement <;> rfl

/-- Code can be laid out exactly if its lengths add up to no more than the longest code and every label that it
jumps to is placed. -/
theorem exists_computeLayout_iff {method : String} :
    (∃ layout, body.computeLayout method = .ok layout) ↔
      (∀ k ≤ body.instructions.size, ∃ pc, body.pcBefore? k = some pc ∧ pc ≤ maxLength) ∧
      ∀ instruction ∈ body.instructions, ∀ target ∈ instruction.targets,
        ∃ k, body.labels.placement target = .ok k := by
  constructor
  · rintro ⟨layout, h⟩
    obtain ⟨hlaid, hlabels, htargets⟩ := computeLayout_eq_ok_iff.1 h
    refine ⟨fun k _ => ⟨_, hlaid.pcBehind?_take k, ?_⟩, fun instruction hinstruction target htarget => ?_⟩
    · obtain ⟨hstop, hstarts⟩ := hlaid.le_maxLength (Nat.zero_le _)
      cases hstart : layout.starts.toList[k]? with
      | none => exact hstop
      | some start => exact hstarts start (List.mem_of_getElem? hstart)
    · obtain ⟨pc, hpc⟩ := htargets instruction (Array.mem_toList_iff.2 hinstruction) target htarget
      rw [pcOf_eq_map hlabels] at hpc
      cases hplace : body.labels.placement target with
      | ok k => exact ⟨k, rfl⟩
      | error e =>
        rw [hplace] at hpc
        cases hpc
  · rintro ⟨hsums, htargets⟩
    obtain ⟨starts, stop, hlaid⟩ := Laid.exists_of_pcBehind? fun k hk => hsums k (by simpa using hk)
    refine ⟨⟨starts.toArray, labelPlaces body.labels starts.toArray stop, stop⟩,
      computeLayout_eq_ok_iff.2 ⟨by simpa using hlaid, rfl, fun instruction hinstruction target htarget => ?_⟩⟩
    obtain ⟨k, hk⟩ := htargets instruction (Array.mem_toList_iff.1 hinstruction) target htarget
    rw [pcOf_eq_map rfl, hk]
    exact ⟨_, rfl⟩

/-! ### What a layout holds -/

/-- The layout has a start for every instruction and a program counter for every label, as the lengths of the
instructions and the places of the labels tell. -/
structure Describes (layout : Layout) (body : Body) : Prop where
  size : layout.starts.size = body.instructions.size
  /-- The sums of the lengths: the starts, and the length of the code behind them. -/
  sums : ∀ k ≤ body.instructions.size, body.pcBefore? k = some (layout.starts[k]?.getD layout.length)
  first : layout.starts[0]?.getD layout.length = 0
  /-- Every instruction reaches to the next start, and the last one to the end of the code. -/
  next : ∀ (k : Nat) (instruction : Instruction) (start : Nat), body.instructions[k]? = some instruction →
    layout.starts[k]? = some start →
      ∃ n, instruction.length start = .ok n ∧ layout.starts[k + 1]?.getD layout.length = start + n
  increasing : layout.starts.toList.Pairwise (· < ·)
  lt_length : ∀ start ∈ layout.starts, start < layout.length
  /-- A label that is placed before an instruction stands where the instruction starts. -/
  before : ∀ (label : Label) (k start : Nat), body.labels.placement label = .ok k → layout.starts[k]? = some start →
    layout.pcOf label = .ok start
  /-- A label that is placed behind the last instruction stands at the end of the code. -/
  behind : ∀ (label : Label) (k : Nat), body.labels.placement label = .ok k → body.instructions.size ≤ k →
    layout.pcOf label = .ok layout.length
  target : ∀ instruction ∈ body.instructions, ∀ target ∈ instruction.targets,
    ∃ pc, layout.pcOf target = .ok pc ∧ (pc ∈ layout.starts ∨ pc = layout.length)
  length_le : layout.length ≤ 65535
  pcOf_le : ∀ (label : Label) (pc : Nat), layout.pcOf label = .ok pc → pc ≤ 65535

theorem describes_of_computeLayout {method : String} (h : body.computeLayout method = .ok layout) :
    Describes layout body := by
  obtain ⟨hlaid, hlabels, htargets⟩ := computeLayout_eq_ok_iff.1 h
  obtain ⟨hincreasing, hbetween, -⟩ := hlaid.increasing
  have hsize : layout.starts.size = body.instructions.size := hlaid.length_eq
  have hget : ∀ k : Nat, layout.starts.toList[k]? = layout.starts[k]? := fun k => Array.getElem?_toList
  have hpcOf := pcOf_eq_map hlabels
  refine ⟨hsize, fun k _ => ?_, ?_, fun k instruction start hinstruction hstart => ?_, hincreasing,
    fun start hstart => (hbetween start (Array.mem_toList_iff.2 hstart)).2, fun label k start hplace hstart => ?_,
    fun label k hplace hk => ?_, fun instruction hinstruction target htarget => ?_,
    (hlaid.le_maxLength (Nat.zero_le _)).1, fun label pc hpc => pcOf_le_of_computeLayout h hpc⟩
  · rw [pcBefore?, hlaid.pcBehind?_take, hget]
  · rw [← hget, hlaid.first_eq]
  · rw [← hget]
    exact hlaid.next_eq (by rw [Array.getElem?_toList, hinstruction]) (by rw [hget, hstart])
  · rw [hpcOf, hplace, Except.map, hstart, Option.getD_some]
  · rw [hpcOf, hplace, Except.map, Array.getElem?_eq_none (by omega), Option.getD_none]
  · obtain ⟨pc, hpc⟩ := htargets instruction (Array.mem_toList_iff.2 hinstruction) target htarget
    refine ⟨pc, hpc, ?_⟩
    rw [hpcOf] at hpc
    cases hplace : body.labels.placement target with
    | error e =>
      rw [hplace] at hpc
      cases hpc
    | ok k =>
      rw [hplace] at hpc
      have hplaced : layout.starts[k]?.getD layout.length = pc := Except.ok.inj hpc
      cases hstart : layout.starts[k]? with
      | none =>
        rw [hstart] at hplaced
        exact .inr hplaced.symm
      | some start =>
        rw [hstart] at hplaced
        exact .inl (hplaced ▸ Array.mem_of_getElem? hstart)

/-! ### Program counters in two bytes -/

namespace Describes

variable {pool : Pool} {s s' : Reported Scope} {bytes : Bytes}

theorem lt_capacity (h : Describes layout body) {label : Label} {pc : Nat} (hpc : layout.pcOf label = .ok pc) :
    pc < Bytes.capacity 2 :=
  Nat.lt_of_le_of_lt (h.pcOf_le label pc hpc) (by decide)

/-- What is written for a label is its program counter. -/
theorem toNat_label (h : Describes layout body) (hcode : s.state.code = some layout) {label : Label}
    (hrun : Emit.label label pool s = .ok bytes s') : layout.pcOf label = .ok bytes.toNat := by
  obtain ⟨-, found, pc, hfound, hpc, rfl⟩ := Emit.Ensures.label.of_ok rfl hrun
  obtain rfl := Option.some.inj (hcode.symm.trans hfound)
  rw [Bytes.toNat_be, Nat.mod_eq_of_lt (h.lt_capacity hpc), hpc]

/-- What is written for a local variable starts with its program counter and with the length of its range. -/
theorem toNat_localVariable (h : Describes layout body) (hcode : s.state.code = some layout) {item : LocalVariable}
    (hrun : item.emit pool s = .ok bytes s') :
    ∃ start stop, layout.pcOf item.start = .ok start ∧ layout.pcOf item.stop = .ok stop ∧
      Bytes.toNat (bytes.take 2) = start ∧ Bytes.toNat ((bytes.drop 2).take 2) = stop - start := by
  have hensures : Emit.Ensures pool s.state item.emit (fun bytes => ∃ start stop rest,
      layout.pcOf item.start = .ok start ∧ layout.pcOf item.stop = .ok stop ∧
        bytes = Bytes.be 2 start ++ (Bytes.be 2 (stop - start) ++ rest)) := by
    unfold LocalVariable.emit
    refine Emit.Ensures.labelPc.bind fun start ⟨first, hfirst, hstart⟩ => ?_
    refine Emit.Ensures.labelPc.bind fun stop ⟨last, hlast, hstop⟩ => ?_
    obtain rfl := Option.some.inj (hcode.symm.trans hfirst)
    obtain rfl := Option.some.inj (hcode.symm.trans hlast)
    refine Emit.Ensures.cell.bind fun name _ => Emit.Ensures.cell.bind fun descriptor _ => ?_
    exact .pure ⟨start, stop, name ++ (descriptor ++ Bytes.u16 item.index), hstart, hstop, by
      simp only [List.append_assoc]⟩
  obtain ⟨-, start, stop, rest, hstart, hstop, rfl⟩ := hensures.of_ok rfl hrun
  have hlt := h.lt_capacity hstart
  have hlt' := h.lt_capacity hstop
  refine ⟨start, stop, hstart, hstop, ?_, ?_⟩
  · rw [List.take_left' (Bytes.length_be 2 start), Bytes.toNat_be, Nat.mod_eq_of_lt hlt]
  · rw [List.drop_left' (Bytes.length_be 2 start), List.take_left' (Bytes.length_be 2 _), Bytes.toNat_be,
      Nat.mod_eq_of_lt (by omega)]

end Describes

/-- Laying out code succeeds exactly if the lengths of its instructions, each at the sum of those before it, are
defined and never add up to more than 65535, and every label that is jumped to is placed. The layout then holds these
sums and where the labels stand among them, and what is written for a label or for the range of a local variable is
the number itself. Otherwise the body stays as it is, also where it is the code of a method of a class. -/
theorem layOut_describes (body : Body) (method : String) :
    ((∃ laid, body.layOut method = .ok laid) ↔
      (∀ k ≤ body.instructions.size, ∃ pc, body.pcBefore? k = some pc ∧ pc ≤ 65535) ∧
      ∀ instruction ∈ body.instructions, ∀ target ∈ instruction.targets,
        ∃ k, body.labels.placement target = .ok k) ∧
    (∀ laid, body.layOut method = .ok laid → ∃ layout, laid = { body with layout := some layout } ∧
      Describes layout body ∧
      ∀ (pool : Pool) (s s' : Reported Scope) (bytes : Bytes), s.state.code = some layout →
        (∀ label, Emit.label label pool s = .ok bytes s' → layout.pcOf label = .ok bytes.toNat) ∧
        ∀ item : LocalVariable, item.emit pool s = .ok bytes s' →
          ∃ start stop, layout.pcOf item.start = .ok start ∧ layout.pcOf item.stop = .ok stop ∧
            Bytes.toNat (bytes.take 2) = start ∧ Bytes.toNat ((bytes.drop 2).take 2) = stop - start) ∧
    ∀ e, body.layOut method = .error e → (BodyOp.layOut method).apply body = body ∧
      ∀ (owner : Method) (code : Code) (pool : Pool) (done rest : List Method), owner.code? = some code →
        code.body = body → (pool.utf8? owner.name).getD "<unknown>" = method →
        ∃ ranked, ClassFile.layOutMethods done (owner :: rest) pool =
          (.error e, done.reverse ++ owner :: rest, ranked) := by
  refine ⟨?_, fun laid hlay => ?_, fun e he => ⟨?_, ?_⟩⟩
  · have hiff : (∃ laid, body.layOut method = .ok laid) ↔ ∃ layout, body.computeLayout method = .ok layout := by
      constructor
      · rintro ⟨laid, hlay⟩
        obtain ⟨layout, -, hlayout⟩ := layOut_spec hlay
        exact ⟨layout, hlayout⟩
      · rintro ⟨layout, hlayout⟩
        exact ⟨_, layOut_eq_ok_iff.2 hlayout⟩
    exact hiff.trans exists_computeLayout_iff
  · obtain ⟨layout, rfl, hlayout⟩ := layOut_spec hlay
    have hdescribes := describes_of_computeLayout hlayout
    exact ⟨layout, rfl, hdescribes, fun pool s s' bytes hcode =>
      ⟨fun label => hdescribes.toNat_label hcode, fun item => hdescribes.toNat_localVariable hcode⟩⟩
  · rw [BodyOp.apply, he]
  · rintro owner code pool done rest hcode rfl rfl
    exact ⟨_, ClassFile.layOutMethods_of_error hcode he done rest⟩

/-- A jump to the end of the code and a switch back to its start. -/
private def loopingBody : Body where
  instructions := #[{ opcode := .standard 0xA7, operand := .label ⟨1⟩ },
    .switch { kind := .lookup, keys := [7], targets := [⟨0⟩] }]
  labels := { infos := #[⟨"start", some 0⟩, ⟨"end", some 2⟩] }

private def loopingLayout : Layout := ⟨#[0, 3], #[⟨"start", some 0⟩, ⟨"end", some 20⟩], 20⟩

/-- The end stands behind the switch, which starts at 3 and takes 17 bytes. Without its labels the code is refused. -/
theorem layOut_describes_loopingBody :
    (∃ laid, loopingBody.layOut "loop" = .ok laid) ∧ Describes loopingLayout loopingBody ∧
    loopingBody.pcBefore? 2 = some 20 ∧ loopingLayout.pcOf ⟨1⟩ = .ok 20 ∧
    (∀ s' bytes, Emit.label ⟨1⟩ .empty ⟨{ code := loopingLayout }, #[]⟩ = .ok bytes s' → 20 = bytes.toNat) ∧
    (BodyOp.layOut "loop").apply { loopingBody with labels := {} } = { loopingBody with labels := {} } := by
  have hlay : loopingBody.layOut "loop" = .ok { loopingBody with layout := some loopingLayout } :=
    layOut_eq_ok_iff.2 (by decide +kernel)
  have hend : loopingLayout.pcOf ⟨1⟩ = .ok 20 := rfl
  obtain ⟨layout, heq, hdescribes, hwritten⟩ := (layOut_describes loopingBody "loop").2.1 _ hlay
  obtain rfl : loopingLayout = layout := by simpa using heq
  have hrefused : Body.layOut { loopingBody with labels := {} } "loop" = .error (.labelOutsideCode ⟨1⟩) := by
    rw [layOut, show computeLayout _ _ = .error (.labelOutsideCode ⟨1⟩) by decide +kernel]
    rfl
  refine ⟨⟨_, hlay⟩, hdescribes, hdescribes.sums 2 (by decide), hend, fun s' bytes hrun => ?_,
    ((layOut_describes _ "loop").2.2 _ hrefused).1⟩
  exact Except.ok.inj (hend.symm.trans ((hwritten _ _ s' bytes rfl).1 _ hrun))

end Body

end JvmAssembler
