import JvmAssembler.Emission
import JvmAssembler.Flags

/-!
# Module descriptions

What the `Module` attribute says of a module: which modules it requires, which packages it exports
and opens, and which services it uses and provides.
-/

namespace JvmAssembler

/-- A module that is required. -/
structure Requirement where
  target : Cell
  flags : Flags .moduleInfo
  version : Option Cell
  deriving DecidableEq, Repr

/-- A package that is exported or opened, to all modules or to the ones listed. -/
structure Export where
  package : Cell
  flags : Flags .moduleInfo
  modules : List Cell
  deriving DecidableEq, Repr

/-- A service that is provided by the classes listed. -/
structure Provision where
  service : Cell
  providers : List Cell
  deriving DecidableEq, Repr

/-- The description of a module. -/
structure ModuleInfo where
  name : Cell
  flags : Flags .moduleInfo
  version : Option Cell := none
  requires : List Requirement := []
  exports : List Export := []
  opens : List Export := []
  uses : List Cell := []
  provides : List Provision := []
  deriving DecidableEq, Repr

/-- The length of a requirement in bytes. -/
def Requirement.length (_ : Requirement) : Nat := 6

/-- The bytes of a requirement. -/
def Requirement.emit (requirement : Requirement) : Emit Bytes := do
  return (← Emit.cell requirement.target) ++ requirement.flags.encode ++ (← Emit.cell? requirement.version)

/-- The length of an exported package in bytes. -/
def Export.length (package : Export) : Nat := 4 + Emit.cellsLength package.modules

/-- The bytes of an exported package. -/
def Export.emit (package : Export) : Emit Bytes := do
  return (← Emit.cell package.package) ++ package.flags.encode ++ (← Emit.cells package.modules)

/-- The length of a provided service in bytes. -/
def Provision.length (provision : Provision) : Nat := 2 + Emit.cellsLength provision.providers

/-- The bytes of a provided service. -/
def Provision.emit (provision : Provision) : Emit Bytes := do
  return (← Emit.cell provision.service) ++ (← Emit.cells provision.providers)

namespace ModuleInfo

/-- The length of the description in bytes. -/
def length (info : ModuleInfo) : Nat :=
  6 + Emit.recordsLength info.requires Requirement.length + Emit.recordsLength info.exports Export.length
    + Emit.recordsLength info.opens Export.length + Emit.cellsLength info.uses
    + Emit.recordsLength info.provides Provision.length

/-- The bytes of the description. -/
def emit (info : ModuleInfo) : Emit Bytes := do
  let head := (← Emit.cell info.name) ++ info.flags.encode ++ (← Emit.cell? info.version)
  let requires ← Emit.records info.requires Requirement.emit
  let exports ← Emit.records info.exports Export.emit
  let opens ← Emit.records info.opens Export.emit
  let uses ← Emit.cells info.uses
  let provides ← Emit.records info.provides Provision.emit
  return head ++ requires ++ exports ++ opens ++ uses ++ provides

end ModuleInfo

end JvmAssembler
