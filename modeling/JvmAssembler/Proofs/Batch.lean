import JvmAssembler.Batch
import JvmAssembler.Proofs.ClassFile.Prepare
import JvmAssembler.Proofs.Pool.Decision

/-!
# What a batch records

What becomes of a job depends on the assembly of its class and on the settings alone (`Job.Earns`,
`Job.verdict?_eq_some_iff`). A batch that writes no files records one verdict after the other (`Settings.runJob_eq`), so
its outcome is that of the verdicts of its jobs (`Settings.assembleAll_eq`), whatever came before them. There is no
verdict on a job whose assembly has no end (`Job.verdict?_eq_none_iff`), and no outcome of a batch with such a job.
-/

namespace JvmAssembler

/-! ### Verdicts -/

/-- What is recorded of a job. -/
inductive Verdict where
  /-- The class file has its path. -/
  | written (path : String)
  | failed (source : String) (failure : Failure)

namespace Verdict

def path? : Verdict → Option String
  | written path => some path
  | failed _ _ => none

def failure? : Verdict → Option (String × Failure)
  | written _ => none
  | failed source failure => some (source, failure)

end Verdict

/-- The class is one with this name. -/
def ClassFile.IsNamed (model : ClassFile) (text : String) : Prop :=
  ∃ name, model.pool.get? model.thisClass = some (.wrapper .classInfo name) ∧ model.pool.get? name = some (.utf8 text)

theorem ClassFile.binaryName?_eq_some_iff {model : ClassFile} {text : String} :
    model.binaryName? = some text ↔ model.IsNamed text := by
  unfold binaryName? IsNamed Pool.utf8?
  constructor
  · intro h
    split at h
    · rename_i name hclass
      split at h
      · rename_i found hname
        obtain rfl := Option.some.inj h
        exact ⟨name, hclass, hname⟩
      · cases h
    · cases h
  · rintro ⟨name, hclass, hname⟩
    simp only [hclass, hname]

/-- A class with these warnings is not kept back because of them. -/
def Settings.Tolerates (settings : Settings) (warnings : Array Warning) : Prop :=
  ¬ (settings.strict = true ∧ settings.noWarn = false ∧ warnings ≠ #[])

instance (settings : Settings) (warnings : Array Warning) : Decidable (settings.Tolerates warnings) :=
  inferInstanceAs (Decidable (¬ _))

/-- The assembly of the class of a job has no end. -/
def Job.IsEndless (job : Job) : Prop := ∃ s, ClassFile.assemble ⟨job.model, #[]⟩ = .error .endless s

/-- What becomes of a job, by what the assembly of its class comes to. -/
inductive Job.Earns (settings : Settings) (job : Job) : Verdict → Prop where
  | refused {e : AssemblyError} {s : Reported ClassFile} : ClassFile.assemble ⟨job.model, #[]⟩ = .error e s →
      e ≠ .endless → Earns settings job (.failed job.source (.error e))
  | warned {bytes : Bytes} {s : Reported ClassFile} : ClassFile.assemble ⟨job.model, #[]⟩ = .ok bytes s →
      ¬ settings.Tolerates s.warnings → Earns settings job (.failed job.source (.warnings s.warnings))
  | unnamed {bytes : Bytes} {s : Reported ClassFile} : ClassFile.assemble ⟨job.model, #[]⟩ = .ok bytes s →
      settings.Tolerates s.warnings → (∀ text, ¬ s.state.IsNamed text) →
      Earns settings job (.failed job.source (.error (.unresolvedConstant s.state.thisClass)))
  | written {bytes : Bytes} {s : Reported ClassFile} {text : String} :
      ClassFile.assemble ⟨job.model, #[]⟩ = .ok bytes s → settings.Tolerates s.warnings → s.state.IsNamed text →
      Earns settings job (.written (Path.join settings.directory (text ++ ".class")))

namespace Job

variable {settings : Settings} {job : Job} {bytes : Bytes} {s : Reported ClassFile}

/-- The verdict on a job whose class file is not written, if there is one. -/
def verdict? (settings : Settings) (job : Job) : Option Verdict :=
  match job.classFile settings with
  | .ok (path, _) => some (.written path)
  | .error (.error .endless) => none
  | .error failure => some (.failed job.source failure)

theorem classFile_of_error {e : AssemblyError} (h : ClassFile.assemble ⟨job.model, #[]⟩ = .error e s) :
    job.classFile settings = .error (.error e) := by
  have hassemble : ∃ s', settings.assemble ⟨job.model, #[]⟩ = .error e s' := by
    simp only [Settings.assemble, h]
    split
    · exact ⟨_, rfl⟩
    · exact ⟨_, rfl⟩
  obtain ⟨s', hassemble⟩ := hassemble
  simp only [classFile, hassemble]

theorem verdict?_of_error {e : AssemblyError} (h : ClassFile.assemble ⟨job.model, #[]⟩ = .error e s)
    (hend : e ≠ .endless) : job.verdict? settings = some (.failed job.source (.error e)) := by
  rw [verdict?, classFile_of_error h]
  split <;> simp_all

/-- Warnings that are dropped keep no class back. -/
theorem verdict?_of_ok (h : ClassFile.assemble ⟨job.model, #[]⟩ = .ok bytes s) :
    job.verdict? settings = some (
      if settings.Tolerates s.warnings then
        match s.state.binaryName? with
        | some text => .written (Path.join settings.directory (text ++ ".class"))
        | none => .failed job.source (.error (.unresolvedConstant s.state.thisClass))
      else .failed job.source (.warnings s.warnings)) := by
  cases hdrop : settings.noWarn with
  | true =>
    have hassemble : settings.assemble ⟨job.model, #[]⟩ = .ok bytes ⟨s.state, #[]⟩ := by
      simp only [Settings.assemble, hdrop, h, ↓reduceIte]
    have htolerates : settings.Tolerates s.warnings := by simp [Settings.Tolerates, hdrop]
    rw [if_pos htolerates]
    simp only [verdict?, classFile, hassemble, Array.isEmpty_empty, Bool.not_true, Bool.and_false, Bool.false_eq_true,
      ↓reduceIte]
    cases s.state.binaryName? <;> rfl
  | false =>
    have hassemble : settings.assemble ⟨job.model, #[]⟩ = .ok bytes s := by
      simp only [Settings.assemble, hdrop, h, Bool.false_eq_true, ↓reduceIte]
    have hkept : (settings.strict && !s.warnings.isEmpty) = true ↔ ¬ settings.Tolerates s.warnings := by
      simp [Settings.Tolerates, hdrop]
    simp only [verdict?, classFile, hassemble]
    by_cases htolerates : settings.Tolerates s.warnings
    · rw [if_pos htolerates, if_neg fun hstrict => hkept.1 hstrict htolerates]
      cases s.state.binaryName? <;> rfl
    · rw [if_neg htolerates, if_pos (hkept.2 htolerates)]

theorem exists_verdict_of_ok (settings : Settings) (h : ClassFile.assemble ⟨job.model, #[]⟩ = .ok bytes s) :
    ∃ verdict, job.verdict? settings = some verdict ∧ job.Earns settings verdict := by
  refine ⟨_, verdict?_of_ok h, ?_⟩
  split
  · rename_i htolerates
    cases hname : s.state.binaryName? with
    | some text => exact .written h htolerates (ClassFile.binaryName?_eq_some_iff.1 hname)
    | none =>
      refine .unnamed h htolerates fun text htext => ?_
      rw [ClassFile.binaryName?_eq_some_iff.2 htext] at hname
      cases hname
  · rename_i htolerates
    exact .warned h htolerates

/-- There is no verdict on a job without an end. -/
theorem verdict?_eq_none_iff : job.verdict? settings = none ↔ job.IsEndless := by
  constructor
  · intro hnone
    cases hassemble : ClassFile.assemble ⟨job.model, #[]⟩ with
    | ok bytes s =>
      obtain ⟨verdict, hsome, -⟩ := exists_verdict_of_ok settings hassemble
      cases hsome.symm.trans hnone
    | error e s =>
      by_cases hend : e = .endless
      · exact ⟨s, hend ▸ hassemble⟩
      · cases (verdict?_of_error hassemble hend).symm.trans hnone
  · rintro ⟨s, hassemble⟩
    rw [verdict?, classFile_of_error hassemble]

/-- There is one verdict on every other job. -/
theorem verdict?_eq_some_iff {verdict : Verdict} :
    job.verdict? settings = some verdict ↔ job.Earns settings verdict := by
  constructor
  · intro hsome
    cases hassemble : ClassFile.assemble ⟨job.model, #[]⟩ with
    | ok bytes s =>
      obtain ⟨found, hfound, hearns⟩ := exists_verdict_of_ok settings hassemble
      rwa [Option.some.inj (hsome.symm.trans hfound)]
    | error e s =>
      have hend : e ≠ .endless := by
        rintro rfl
        rw [verdict?_eq_none_iff.2 ⟨s, hassemble⟩] at hsome
        cases hsome
      rw [verdict?_of_error hassemble hend] at hsome
      exact Option.some.inj hsome ▸ .refused hassemble hend
  · intro h
    cases h with
    | refused hassemble hend => exact verdict?_of_error hassemble hend
    | warned hassemble htolerates => rw [verdict?_of_ok hassemble, if_neg htolerates]
    | @unnamed _ s hassemble htolerates hname =>
      have hnone : s.state.binaryName? = none := by
        rw [Option.eq_none_iff_forall_ne_some]
        exact fun text htext => hname text (ClassFile.binaryName?_eq_some_iff.1 htext)
      rw [verdict?_of_ok hassemble, if_pos htolerates, hnone]
    | written hassemble htolerates hname =>
      rw [verdict?_of_ok hassemble, if_pos htolerates, ClassFile.binaryName?_eq_some_iff.2 hname]

theorem earns_written_iff : (∃ path, job.Earns settings (.written path)) ↔
    ∃ bytes s, ClassFile.assemble ⟨job.model, #[]⟩ = .ok bytes s ∧ (∃ text, s.state.IsNamed text) ∧
      settings.Tolerates s.warnings := by
  constructor
  · rintro ⟨path, hearns⟩
    cases hearns with
    | written hassemble htolerates hname => exact ⟨_, _, hassemble, ⟨_, hname⟩, htolerates⟩
  · rintro ⟨bytes, s, hassemble, ⟨text, hname⟩, htolerates⟩
    exact ⟨_, .written hassemble htolerates hname⟩

end Job

/-! ### Outcomes -/

namespace BatchOutcome

/-- The outcome in which these verdicts are recorded, each in its place. -/
def ofVerdicts (verdicts : List Verdict) : BatchOutcome :=
  ⟨(verdicts.filterMap Verdict.path?).toArray, (verdicts.filterMap Verdict.failure?).toArray⟩

theorem ofVerdicts_written (path : String) : ofVerdicts [.written path] = ⟨#[path], #[]⟩ := rfl

theorem ofVerdicts_failed (source : String) (failure : Failure) :
    ofVerdicts [.failed source failure] = ⟨#[], #[(source, failure)]⟩ := rfl

/-- One outcome behind the other. -/
def append (first second : BatchOutcome) : BatchOutcome :=
  ⟨first.written ++ second.written, first.failed ++ second.failed⟩

theorem append_assoc (a b c : BatchOutcome) : (a.append b).append c = a.append (b.append c) := by
  simp [append]

theorem ofVerdicts_append (first second : List Verdict) :
    ofVerdicts (first ++ second) = (ofVerdicts first).append (ofVerdicts second) := by
  simp [ofVerdicts, append]

theorem size_ofVerdicts (verdicts : List Verdict) :
    (ofVerdicts verdicts).written.size + (ofVerdicts verdicts).failed.size = verdicts.length := by
  induction verdicts with
  | nil => rfl
  | cons verdict verdicts ih =>
    simp only [ofVerdicts, List.size_toArray] at ih ⊢
    cases verdict with
    | written path =>
      simp only [List.filterMap_cons, Verdict.path?, Verdict.failure?, List.length_cons]
      omega
    | failed source failure =>
      simp only [List.filterMap_cons, Verdict.path?, Verdict.failure?, List.length_cons]
      omega

end BatchOutcome

namespace Settings

variable {settings : Settings}

/-- One job records its verdict, and leaves the files as they are. -/
theorem runJob_eq (hnoWrite : settings.noWrite = true) (outcome : BatchOutcome) (tree : FileTree) (job : Job) :
    settings.runJob outcome tree job =
      (job.verdict? settings).map fun verdict => (outcome.append (.ofVerdicts [verdict]), tree) := by
  rw [runJob, Job.verdict?]
  cases job.classFile settings with
  | ok file => simp [hnoWrite, BatchOutcome.addWritten, BatchOutcome.append, BatchOutcome.ofVerdicts_written]
  | error failure =>
    by_cases hend : failure = .error .endless
    · subst hend
      rfl
    · simp only [Option.map_some, BatchOutcome.addFailed, BatchOutcome.append, BatchOutcome.ofVerdicts_failed,
        Array.append_empty, Array.push_eq_append]

/-- The jobs of a batch record their verdicts, behind what is recorded already. -/
theorem foldlM_runJob (hnoWrite : settings.noWrite = true) (jobs : List Job) (outcome : BatchOutcome)
    (tree : FileTree) :
    jobs.foldlM (fun s job => settings.runJob s.1 s.2 job) (outcome, tree) =
      (jobs.mapM (Job.verdict? settings)).map fun verdicts => (outcome.append (.ofVerdicts verdicts), tree) := by
  induction jobs generalizing outcome with
  | nil => simp [BatchOutcome.append, BatchOutcome.ofVerdicts]
  | cons job jobs ih =>
    rw [List.foldlM_cons, List.mapM_cons, runJob_eq hnoWrite]
    cases job.verdict? settings with
    | none => rfl
    | some verdict =>
      simp only [Option.map_some, Option.bind_eq_bind, Option.bind_some, ih]
      cases jobs.mapM (Job.verdict? settings) with
      | none => rfl
      | some verdicts =>
        simp [BatchOutcome.append_assoc, ← BatchOutcome.ofVerdicts_append]

theorem assembleAll_eq (hnoWrite : settings.noWrite = true) (jobs : List Job) (tree : FileTree) :
    settings.assembleAll jobs tree =
      (jobs.mapM (Job.verdict? settings)).map fun verdicts => (.ofVerdicts verdicts, tree) := by
  show jobs.foldlM (fun s job => settings.runJob s.1 s.2 job) ({}, tree) = _
  rw [foldlM_runJob hnoWrite]
  simp [BatchOutcome.append]

theorem mapM_verdict?_of_earns {jobs : List Job} {verdicts : List Verdict}
    (h : List.Forall₂ (Job.Earns settings) jobs verdicts) : jobs.mapM (Job.verdict? settings) = some verdicts := by
  induction h with
  | nil => rfl
  | cons hearns _ ih =>
    rw [List.mapM_cons, Job.verdict?_eq_some_iff.2 hearns, ih]
    rfl

/-- There are verdicts on all jobs, unless one of the jobs has no end. -/
theorem mapM_verdict?_eq_none_iff {jobs : List Job} :
    jobs.mapM (Job.verdict? settings) = none ↔ ∃ job ∈ jobs, job.IsEndless := by
  induction jobs with
  | nil => simp
  | cons job jobs ih =>
    have hjob : job.verdict? settings = none ↔ job.IsEndless := Job.verdict?_eq_none_iff
    simp only [List.mapM_cons, List.mem_cons, exists_eq_or_imp, ← ih, ← hjob]
    cases job.verdict? settings with
    | none => simp
    | some verdict => cases jobs.mapM (Job.verdict? settings) <;> simp

/-- A batch that writes no files has no outcome exactly if the assembly of one of its jobs has no end. Otherwise it
records every job once, as written or as failed, and both in the order of the jobs. What it records of a job is the
verdict on it, by the job and the settings alone, so that jobs one after the other have the outcomes that they have
apart. A job is recorded as written exactly if its class is assembled and has a name, and no warning keeps it back. -/
theorem assembleAll_records (settings : Settings) (hnoWrite : settings.noWrite = true) :
    (∀ jobs tree, (settings.assembleAll jobs tree = none ↔ ∃ job ∈ jobs, job.IsEndless) ∧
      ∀ verdicts, List.Forall₂ (Job.Earns settings) jobs verdicts →
        settings.assembleAll jobs tree = some (.ofVerdicts verdicts, tree) ∧
        (BatchOutcome.ofVerdicts verdicts).written.size + (BatchOutcome.ofVerdicts verdicts).failed.size =
          jobs.length) ∧
    (∀ job : Job, ¬ job.IsEndless → ∃! verdict, job.Earns settings verdict) ∧
    (∀ xs ys tree tree' tree'', (settings.assembleAll (xs ++ ys) tree).map Prod.fst = do
      let first ← settings.assembleAll xs tree'
      let second ← settings.assembleAll ys tree''
      return first.1.append second.1) ∧
    ∀ job : Job, (∃ path, job.Earns settings (.written path)) ↔
      ∃ bytes s, ClassFile.assemble ⟨job.model, #[]⟩ = .ok bytes s ∧ (∃ text, s.state.IsNamed text) ∧
        ¬ (settings.strict = true ∧ settings.noWarn = false ∧ s.warnings ≠ #[]) := by
  refine ⟨fun jobs tree => ⟨?_, fun verdicts hearn => ⟨?_, ?_⟩⟩, fun job hends => ?_,
    fun xs ys tree tree' tree'' => ?_, fun job => Job.earns_written_iff⟩
  · rw [assembleAll_eq hnoWrite, Option.map_eq_none_iff, mapM_verdict?_eq_none_iff]
  · rw [assembleAll_eq hnoWrite, mapM_verdict?_of_earns hearn]
    rfl
  · rw [BatchOutcome.size_ofVerdicts, hearn.length_eq]
  · cases hverdict : job.verdict? settings with
    | none => exact absurd (Job.verdict?_eq_none_iff.1 hverdict) hends
    | some verdict =>
      refine ⟨verdict, Job.verdict?_eq_some_iff.1 hverdict, fun other hother => ?_⟩
      exact Option.some.inj ((Job.verdict?_eq_some_iff.2 hother).symm.trans hverdict)
  · simp only [assembleAll_eq hnoWrite, List.mapM_append]
    cases xs.mapM (Job.verdict? settings) with
    | none => rfl
    | some first =>
      cases ys.mapM (Job.verdict? settings) with
      | none => rfl
      | some second => simp [BatchOutcome.ofVerdicts_append]

private def brokenJob : Job := ⟨"broken", {}⟩

/-- A class with an explicit reference to the reserved index. -/
private def warnedJob : Job :=
  ⟨"warned", {
    pool := ((Pool.empty.addEntry (.utf8 "A")).addEntry (.wrapper .classInfo ⟨1⟩)).pushSlot (.indexed 0 5)
    thisClass := ⟨2⟩ }⟩

private def fineJob : Job :=
  ⟨"fine", { pool := (Pool.empty.addEntry (.utf8 "B")).addEntry (.wrapper .classInfo ⟨1⟩), thisClass := ⟨2⟩ }⟩

private def strictSettings : Settings := { directory := "out", noWrite := true, strict := true }

/-- The third job is recorded as written, whatever failed before it. -/
theorem assembleAll_records_mixed : strictSettings.assembleAll [brokenJob, warnedJob, fineJob] {} =
    some (⟨#[Path.join "out" ("B" ++ ".class")],
      #[("broken", .error (.missingReference "this_class")), ("warned", .warnings #[⟨5, .zeroReference⟩])]⟩, {}) := by
  have hbroken : ClassFile.assemble ⟨brokenJob.model, #[]⟩ = .error (.missingReference "this_class") _ := rfl
  obtain ⟨_, warned, hwarned, hwarnings⟩ : ∃ bytes s, ClassFile.assemble ⟨warnedJob.model, #[]⟩ = .ok bytes s ∧
      s.warnings = #[⟨5, .zeroReference⟩] := ⟨_, _, rfl, rfl⟩
  obtain ⟨_, fine, hfine, hnone, hname⟩ : ∃ bytes s, ClassFile.assemble ⟨fineJob.model, #[]⟩ = .ok bytes s ∧
      s.warnings = #[] ∧ s.state.IsNamed "B" := ⟨_, _, rfl, rfl, ⟨1⟩, rfl, rfl⟩
  have hearn : List.Forall₂ (Job.Earns strictSettings) [brokenJob, warnedJob, fineJob]
      [.failed "broken" (.error (.missingReference "this_class")), .failed "warned" (.warnings warned.warnings),
        .written (Path.join "out" ("B" ++ ".class"))] := by
    refine .cons (.refused hbroken (by simp)) (.cons (.warned hwarned ?_) (.cons (.written hfine ?_ hname) .nil))
    · simp [Tolerates, strictSettings, hwarnings]
    · simp [Tolerates, hnone]
  obtain ⟨hbatch, -⟩ := ((assembleAll_records strictSettings rfl).1 [brokenJob, warnedJob, fineJob] {}).2 _ hearn
  rw [hbatch, hwarnings]
  rfl

/-- A class in whose pool a constant contains itself. -/
private def endlessJob : Job := ⟨"endless", { pool := .selfContaining, thisClass := ⟨5⟩ }⟩

private theorem isEndless_endlessJob : endlessJob.IsEndless := by
  have hstuck := Pool.reached_selfContaining.faithful.bindPromises_endless_iff rfl
  obtain ⟨left, hrun⟩ := hstuck.2 Pool.stuck_selfContaining
  have hlaid : ClassFile.layOut endlessJob.model = .ok () endlessJob.model := rfl
  have hheld : ClassFile.updateBootstraps endlessJob.model = .ok () endlessJob.model := rfl
  obtain ⟨final, hfinalize⟩ : ∃ s, ClassFile.finalizePool ⟨endlessJob.model, #[]⟩ = .error .endless s := by
    rw [ClassFile.finalizePool]
    simp only [endlessJob, Pool.finalize_of_endless rfl hrun #[]]
    exact ⟨_, rfl⟩
  have hprepare : ClassFile.prepare ⟨endlessJob.model, #[]⟩ = .error .endless final := by
    rw [ClassFile.prepare_eq, if_neg (by decide), hlaid]
    simp only [hheld, hfinalize]
  exact ⟨final, by rw [ClassFile.assemble, hprepare]⟩

/-- A class that contains itself leaves the batch without an outcome, also for the class behind it. -/
theorem assembleAll_endless : strictSettings.noWrite = true ∧
    strictSettings.assembleAll [endlessJob, fineJob] {} = none := by
  refine ⟨rfl, ?_⟩
  rw [assembleAll_eq rfl, Option.map_eq_none_iff, mapM_verdict?_eq_none_iff]
  exact ⟨endlessJob, by simp, isEndless_endlessJob⟩

end Settings

end JvmAssembler
