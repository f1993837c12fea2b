import JvmAssembler.Emission

/-!
# Switches

The operands of `tableswitch` and `lookupswitch`: keys, each with its target, and a default target.
What a switch looks like depends on its program counter, because its operands are aligned and a
switch without a default goes on behind itself.
-/

namespace JvmAssembler

/-- The two forms of a switch. -/
inductive SwitchKind where
  /-- One target for each key between the lowest and the highest. -/
  | table
  /-- A list of keys with their targets. -/
  | lookup
  deriving DecidableEq, Repr

/-- The operands of a switch. The key at each position goes with the target at the same position. -/
structure Switch where
  kind : SwitchKind
  keys : List Int32
  targets : List Label
  /-- Where to go if no key matches; behind the switch if absent. -/
  default : Option Label := none
  deriving DecidableEq, Repr

/-- Where a switch goes. -/
inductive SwitchTarget where
  | label (label : Label)
  | pc (pc : Nat)
  deriving DecidableEq, Repr

/-- A switch at a program counter. -/
structure SwitchPlan where
  /-- The number of zero bytes behind the opcode. -/
  padding : Nat
  /-- The length of the instruction, its opcode included. -/
  size : Nat
  default : SwitchTarget
  /-- The lowest key of a table. -/
  low : Int
  /-- The highest key of a table. -/
  high : Int
  /-- For a table the target of each key from `low` to `high`, otherwise the targets in the order of
  the keys. -/
  slots : Array SwitchTarget
  deriving DecidableEq, Repr

/-- Lengths of instructions are 32-bit words: larger ones stop at the largest word. -/
def lengthLimit : Nat := 0xFFFFFFFF

namespace Switch

/-- The number of zero bytes behind an opcode that align what follows to a multiple of four. -/
def padding (pc : Nat) : Nat := 3 - pc % 4

/-- The lowest key, the highest key, and the number of keys between them. Without keys there are
none between 0 and -1. -/
def bounds (switch : Switch) : Int × Int × Nat :=
  match switch.keys.map Int32.toInt with
  | [] => (0, -1, 0)
  | key :: rest =>
    let low := rest.foldl min key
    let high := rest.foldl max key
    (low, high, (high - low + 1).toNat)

/-- The length of the instruction at a program counter, its opcode included. -/
def size (switch : Switch) (pc : Nat) : Nat :=
  let operands := match switch.kind with
    | .lookup => 8 * (switch.keys.length + 1)
    | .table => 12 + 4 * switch.bounds.2.2
  min (1 + padding pc + operands) lengthLimit

/-- Where the switch at a program counter goes if no key matches. -/
def defaultTarget (switch : Switch) (pc : Nat) : SwitchTarget :=
  match switch.default with
  | some label => .label label
  | none => .pc (min (pc + switch.size pc) lengthLimit)

/-- The targets of `count` consecutive keys from `low` on. Of the targets of one key the last
counts, and a key that does not occur has the default target. -/
def tableSlots (switch : Switch) (pc : Nat) (low : Int) (count : Nat) : Array SwitchTarget :=
  (switch.keys.zip switch.targets).foldl
    (fun slots (key, target) => slots.setIfInBounds (key.toInt - low).toNat (.label target))
    (Array.replicate count (switch.defaultTarget pc))

/-- The switch at a program counter. -/
def plan (switch : Switch) (pc : Nat) : Except AssemblyError SwitchPlan :=
  let size := switch.size pc
  let plan := SwitchPlan.mk (padding pc) size (switch.defaultTarget pc)
  if switch.keys.length ≠ switch.targets.length then
    .error (.switchMismatch switch.keys.length switch.targets.length)
  else
    match switch.kind with
    | .lookup => .ok (plan 0 0 (switch.targets.map .label).toArray)
    | .table =>
      let (low, high, count) := switch.bounds
      if count < Bytes.capacity 2 then .ok (plan low high (switch.tableSlots pc low count))
      else .error (.codeOverflow size)

/-- The distance from the switch at a program counter to a target, in four bytes. -/
def distance (pc : Nat) (target : SwitchTarget) : Emit Bytes := do
  let targetPc ← match target with
    | .label label => Emit.labelPc label
    | .pc pc => pure pc
  return Bytes.beInt 4 ((targetPc : Int) - pc)

/-- What follows the opcode of the switch at a program counter. -/
def emit (switch : Switch) (pc : Nat) : Emit Bytes := do
  let plan ← Emit.ofExcept (switch.plan pc)
  let head := List.replicate plan.padding 0 ++ (← distance pc plan.default)
  match switch.kind with
  | .lookup =>
    let pairs ← Emit.each (switch.keys.zip plan.slots.toList) fun (key, target) => do
      return Bytes.beInt 4 key.toInt ++ (← distance pc target)
    return head ++ Bytes.be 4 switch.keys.length ++ pairs
  | .table =>
    let targets ← Emit.each plan.slots.toList (distance pc)
    return head ++ Bytes.beInt 4 plan.low ++ Bytes.beInt 4 plan.high ++ targets

end Switch

end JvmAssembler
