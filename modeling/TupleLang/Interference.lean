import TupleLang.Liveness
import TupleLang.Table

/-!
# Interference

Two locations interfere when one is written while the value of the other is still needed; they
cannot share a home then.  An `InterferenceGraph` numbers locations by their first occurrence and
keeps for each of them the numbers of those it interferes with.

Variables that hold tuples and are live across a call that may collect are *roots*: the collector
must find them, so they may only live on the root stack.  They interfere with every allocatable
register.

`InterferenceGraph.ofRows` builds the graph of a function from its instructions, each with a list
of what is live after it.  The order of those lists is of no consequence: all locations that can
occur in them are numbered before the first edge is drawn, the registers first, in the order of the
register table, and then the variables in the order of their first occurrence as operands.
-/

namespace TupleLang

open X86 (Instruction)

/-- Which locations cannot share a home. -/
structure InterferenceGraph where
  /-- The locations and their numbers. -/
  nodes : Numbering Location := {}
  /-- For each location, the numbers of those it interferes with. -/
  adjacent : Table (Std.ExtTreeSet Nat) := {}
  /-- The variables that may only live on the root stack. -/
  roots : Std.ExtTreeSet Name := ∅

namespace InterferenceGraph

/-- The number of locations. -/
def size (graph : InterferenceGraph) : Nat :=
  graph.nodes.size

/-- The number of a location, which is new if the graph does not have it. -/
def node (graph : InterferenceGraph) (location : Location) : Nat × InterferenceGraph :=
  match graph.nodes.find? location with
  | some number => (number, graph)
  | none =>
    let (number, nodes) := graph.nodes.insert location
    (number, { graph with nodes, adjacent := (graph.adjacent.push ∅).2 })

/-- The number of a location that the graph has. -/
def find? (graph : InterferenceGraph) (location : Location) : Option Nat :=
  graph.nodes.find? location

/-- The location with the given number. -/
def location? (graph : InterferenceGraph) (number : Nat) : Option Location :=
  graph.nodes.get? number

/-- The numbers of the locations that a location interferes with. -/
def neighbors (graph : InterferenceGraph) (number : Nat) : Std.ExtTreeSet Nat :=
  graph.adjacent.getD number ∅

/-- Adds a location. -/
def addNode (graph : InterferenceGraph) (location : Location) : InterferenceGraph :=
  (graph.node location).2

/-- Makes two different locations interfere. -/
def addEdge (graph : InterferenceGraph) (a b : Location) : InterferenceGraph :=
  if a = b then graph
  else
    let (i, graph) := graph.node a
    let (j, graph) := graph.node b
    { graph with adjacent := (graph.adjacent.modify i (·.insert j)).modify j (·.insert i) }

/-- Makes a variable a root. -/
def addRoot (graph : InterferenceGraph) (name : Name) : InterferenceGraph :=
  { graph with roots := graph.roots.insert name }

/-- The number of pairs of locations that interfere. -/
def edgeCount (graph : InterferenceGraph) : Nat :=
  graph.adjacent.toList.foldl (fun total neighbors => total + neighbors.size) 0 / 2

/-- Texts in the order of their characters. -/
def sortTexts (texts : List String) : List String :=
  texts.mergeSort fun a b => decide (a ≤ b)

/-- The texts of the locations that a location interferes with, sorted. -/
def neighborTexts (graph : InterferenceGraph) (number : Nat) : List String :=
  sortTexts ((graph.neighbors number).toList.filterMap fun neighbor =>
    (graph.location? neighbor).map Location.text)

/-- A line for each location with those it interferes with. -/
def text (graph : InterferenceGraph) : String :=
  String.join (graph.nodes.items.numbered.map fun (number, location) =>
    location.text ++ ": " ++ ", ".intercalate (graph.neighborTexts number) ++ "\n")

/-- Whether a collection may happen while the instruction runs. -/
def mayCollect : Instruction → Bool
  | .callq label _ => label != Name.printInt
  | .callIndirect _ _ => true
  | _ => false

/-- The pairs of locations that interfere because of an instruction, given what is live after it.
A move does not make its source and its destination interfere: they hold the same value. -/
def edges (config : Config) (instruction : Instruction) (live : List Location) :
    List (Location × Location) :=
  match instruction with
  | .binary operator source destination =>
    if operator.isMove then
      match Location.ofOperand? config destination with
      | none => []
      | some written =>
        (live.filter fun location => some location != Location.ofOperand? config source).map
          (written, ·)
    else
      (instruction.writes config).flatMap fun written => live.map (written, ·)
  | _ => (instruction.writes config).flatMap fun written => live.map (written, ·)

/-- The variables with tuples that the collector must find while an instruction runs, given what
is live after it. -/
def rootsAt (types : Std.ExtTreeMap Name Ty) (instruction : Instruction) (live : List Location) :
    List Name :=
  if mayCollect instruction then
    live.filterMap fun
      | .var name => if (types[name]?).any Ty.isTuple then some name else none
      | .register _ => none
  else []

/-- Adds what an instruction contributes, given what is live after it. -/
def addRow (config : Config) (types : Std.ExtTreeMap Name Ty) (graph : InterferenceGraph) :
    Instruction × List Location → InterferenceGraph
  | (instruction, live) =>
    let graph := (edges config instruction live).foldl (fun graph (a, b) => graph.addEdge a b) graph
    (rootsAt types instruction live).foldl addRoot graph

/-- The variables among the operands of an instruction. -/
def operandVariables (instruction : Instruction) : List Location :=
  instruction.operands.filterMap fun
    | .var name => some (.var name)
    | _ => none

/-- The registers in the order of the table, then the variables in the order of occurrence. -/
def numbered (config : Config) (instructions : List Instruction) : InterferenceGraph :=
  let registers := config.allocatable.map Location.register
  (registers ++ instructions.flatMap operandVariables).foldl addNode {}

/-- Makes each of the given roots interfere with every allocatable register. -/
def separateRoots (config : Config) (roots : List Name) (graph : InterferenceGraph) :
    InterferenceGraph :=
  roots.foldl (fun graph root =>
    config.allocatable.foldl (fun graph register =>
      graph.addEdge (.var root) (.register register)) graph) graph

/-- The graph of a sequence of instructions, each with what is live after it. -/
def ofRows (config : Config) (types : Std.ExtTreeMap Name Ty)
    (rows : List (Instruction × List Location)) : InterferenceGraph :=
  let graph := rows.foldl (addRow config types) (numbered config (rows.map Prod.fst))
  graph.separateRoots config graph.roots.toList

end InterferenceGraph

/-- The interference graph of a function with the given live sets. -/
def X86.Function.interference (config : Config) (function : X86.Function) (liveness : Liveness) :
    InterferenceGraph :=
  .ofRows config function.variableTypes
    ((liveness.rows function).map fun (instruction, live) => (instruction, live.toList))

end TupleLang
