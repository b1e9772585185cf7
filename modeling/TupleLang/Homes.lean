import TupleLang.Coloring
import TupleLang.X86.Printer

/-!
# Homes of variables

A coloring of the interference graph gives every variable a home: the register of its color, or
else a place in memory, which is a root slot for a root and a stack slot for any other variable.
`Allocation.ofColoring` finds the homes and lays out the frame; `X86.Function.allocate` puts the
homes in place of the variables.

Moves between variables with the same home stay; they are dropped later.
-/

namespace TupleLang

open X86 (Operand Frame Instruction)

/-- The homes of the variables of a function, and the frame they need. -/
structure Allocation where
  /-- The home of each variable. -/
  homes : Std.ExtTreeMap Name Operand := ∅
  /-- The frame that holds the homes in memory. -/
  frame : Frame := {}

namespace Allocation

/-- The variables of a graph with their colors, in the order of their numbers. -/
def coloredVariables (graph : InterferenceGraph) (colors : Table Nat) : List (Name × Nat) :=
  graph.nodes.items.numbered.filterMap fun
    | (node, .var name) => some (name, colors.getD node 0)
    | (_, .register _) => none

/-- The registers to save: those a call must keep that are the home of some variable, in the order
of the table. -/
def savedRegisters (config : Config) (colored : List (Name × Nat)) : List X86.Register :=
  config.allocatable.zipIdx.filterMap fun (register, color) =>
    if config.isCalleeSaved register && colored.any (·.2 == color) then some register else none

/-- The home of one more variable, with the slots it needs. -/
def addHome (config : Config) (roots : Std.ExtTreeSet Name) (allocation : Allocation) :
    Name × Nat → Allocation
  | (name, color) =>
    match config.allocatable[color]? with
    | some register =>
      { allocation with homes := allocation.homes.insert name (.register register) }
    | none =>
      let slot := color - config.allocatable.length
      let frame := allocation.frame
      if roots.contains name then
        { homes := allocation.homes.insert name (Frame.rootSlot slot)
          frame := { frame with rootSlots := max frame.rootSlots (slot + 1) } }
      else
        { homes := allocation.homes.insert name (Frame.stackSlot frame.calleeSaved.length slot)
          frame := { frame with stackSlots := max frame.stackSlots (slot + 1) } }

/-- The homes that a coloring gives to the variables of a graph. -/
def ofColoring (config : Config) (graph : InterferenceGraph) (colors : Table Nat) : Allocation :=
  let colored := coloredVariables graph colors
  colored.foldl (addHome config graph.roots)
    { frame := { calleeSaved := savedRegisters config colored } }

/-- The homes of the variables of a graph. -/
def ofGraph (config : Config) (graph : InterferenceGraph) : Allocation :=
  ofColoring config graph (graph.color config)

/-- An operand with its home in place of a variable, if it has one. -/
def place (allocation : Allocation) : Operand → Operand
  | .var name => allocation.homes.getD name (.var name)
  | operand => operand

/-- The variables of an instruction that have no home. -/
def homeless (allocation : Allocation) (instruction : Instruction) : List Name :=
  instruction.operands.filterMap fun
    | .var name => if allocation.homes.contains name then none else some name
    | _ => none

end Allocation

/-- A function with homes in place of its variables.  Of several variables without a home the last
one is reported. -/
def X86.Function.allocate (allocation : Allocation) (function : X86.Function) :
    Except CompileError X86.Function :=
  match (function.instructions.flatMap allocation.homeless).getLast? with
  | some name => .error (.unsupported .allocateRegisters (.homeless name))
  | none =>
    .ok { function.expand (fun instruction => [instruction.mapOperands allocation.place]) with
      frame := allocation.frame }

end TupleLang
