import JvmAssembler.ClassFile
import JvmAssembler.FileTree

/-!
# Batches

Assembles a list of classes, one after the other, and writes the class files of those that succeed.
A class that fails is recorded, and the batch goes on with the next one. A class whose assembly never
comes to an end leaves the batch without an outcome.
-/

namespace JvmAssembler

/-- How a batch is assembled. -/
structure Settings where
  /-- The directory in which the class files are written, each at the name of its class. -/
  directory : String
  /-- Whether the directories of packages are made if they are missing. -/
  makeMissing : Bool := true
  /-- Whether the class files are not written. -/
  noWrite : Bool := false
  /-- Whether warnings are dropped. -/
  noWarn : Bool := false
  /-- Whether a class with warnings fails. -/
  strict : Bool := false

/-- A class to assemble, with the name of its source. -/
structure Job where
  source : String
  model : ClassFile

/-- Why a class was not written. -/
inductive Failure where
  | error (error : AssemblyError)
  | warnings (warnings : Array Warning)

/-- What became of the classes of a batch. -/
structure BatchOutcome where
  /-- The paths of the class files that were written, or would have been. -/
  written : Array String := #[]
  /-- The sources that failed. -/
  failed : Array (String × Failure) := #[]

/-- Whether no class failed. -/
def BatchOutcome.isSuccess (outcome : BatchOutcome) : Bool := outcome.failed.isEmpty

/-- Assembles a class, and drops the warnings if the settings say so. -/
def Settings.assemble (settings : Settings) : Reporting ClassFile Bytes := fun ⟨model, warnings⟩ =>
  if settings.noWarn then
    match ClassFile.assemble ⟨model, #[]⟩ with
    | .ok bytes ⟨model, _⟩ => .ok bytes ⟨model, warnings⟩
    | .error e ⟨model, _⟩ => .error e ⟨model, warnings⟩
  else ClassFile.assemble ⟨model, warnings⟩

/-- The path and the bytes of the class file of a job, or why there is none. -/
def Job.classFile (job : Job) (settings : Settings) : Except Failure (String × Bytes) :=
  match settings.assemble ⟨job.model, #[]⟩ with
  | .error e _ => .error (.error e)
  | .ok bytes ⟨model, warnings⟩ =>
    if settings.strict && !warnings.isEmpty then .error (.warnings warnings)
    else
      match model.binaryName? with
      | some name => .ok (Path.join settings.directory (name ++ ".class"), bytes)
      | none => .error (.error (.unresolvedConstant model.thisClass))

namespace BatchOutcome

/-- The outcome with one more class file. -/
def addWritten (outcome : BatchOutcome) (path : String) : BatchOutcome :=
  { outcome with written := outcome.written.push path }

/-- The outcome with one more failure. -/
def addFailed (outcome : BatchOutcome) (source : String) (failure : Failure) : BatchOutcome :=
  { outcome with failed := outcome.failed.push (source, failure) }

end BatchOutcome

/-- Assembles one class of a batch and records what became of it. There is no outcome if the assembly has no end. -/
def Settings.runJob (settings : Settings) (outcome : BatchOutcome) (tree : FileTree) (job : Job) :
    Option (BatchOutcome × FileTree) :=
  match job.classFile settings with
  | .error (.error .endless) => none
  | .error failure => some (outcome.addFailed job.source failure, tree)
  | .ok (path, bytes) =>
    if settings.noWrite then some (outcome.addWritten path, tree)
    else
      match tree.save path bytes settings.makeMissing with
      | (true, tree) => some (outcome.addWritten path, tree)
      | (false, tree) => some (outcome.addFailed job.source (.error .storage), tree)

/-- Assembles the classes of a batch in order. -/
def Settings.assembleAll (settings : Settings) (jobs : List Job) (tree : FileTree) :
    Option (BatchOutcome × FileTree) :=
  jobs.foldlM (fun (outcome, tree) job => settings.runJob outcome tree job) ({}, tree)

end JvmAssembler
