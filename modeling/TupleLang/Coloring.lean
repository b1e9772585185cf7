import TupleLang.Interference

/-!
# Coloring

Colors are numbers.  A color below the number of allocatable registers stands for a register, and
each higher one for a place in memory.

`InterferenceGraph.color` gives each location a color that none of its neighbors has.  The
registers of the table come first, each with its own color; then, as long as a location has no
color, the first of those whose neighbors have the most different colors gets the least color that
none of its neighbors has.  A `Coloring` keeps for each location the colors of its neighbors.
-/

namespace TupleLang

/-- A coloring in the making. -/
structure Coloring where
  /-- The colors of the locations that have one. -/
  colors : Table (Option Nat)
  /-- For each location, the colors of its neighbors. -/
  saturation : Table (Std.ExtTreeSet Nat)

namespace Coloring

/-- No location has a color. -/
def empty (graph : InterferenceGraph) : Coloring where
  colors := .ofList (List.replicate graph.size none)
  saturation := .ofList (List.replicate graph.size ∅)

/-- The colors of the neighbors of a location. -/
def saturationOf (coloring : Coloring) (node : Nat) : Std.ExtTreeSet Nat :=
  coloring.saturation.getD node ∅

/-- Whether a location has a color. -/
def isColored (coloring : Coloring) (node : Nat) : Bool :=
  (coloring.colors.getD node none).isSome

/-- Gives a location a color. -/
def assign (graph : InterferenceGraph) (coloring : Coloring) (node color : Nat) : Coloring where
  colors := coloring.colors.set node (some color)
  saturation := (graph.neighbors node).toList.foldl
    (fun saturation neighbor => saturation.modify neighbor (·.insert color)) coloring.saturation

/-- Gives a register of the table its own color, which is the first place where the table has
it. -/
def assignRegister (graph : InterferenceGraph) (registers : List X86.Register)
    (coloring : Coloring) : Nat × Location → Coloring
  | (node, .register register) =>
    match registers.idxOf? register with
    | some color => coloring.assign graph node color
    | none => coloring
  | (_, .var _) => coloring

/-- The first of the given locations without a color whose neighbors have the most colors. -/
def mostSaturated? (coloring : Coloring) (nodes : List Nat) : Option Nat :=
  (nodes.filter (!coloring.isColored ·)).foldl (fun best node =>
    match best with
    | some chosen =>
      if (coloring.saturationOf node).size ≤ (coloring.saturationOf chosen).size then some chosen
      else some node
    | none => some node) none

/-- The least color that is not in the set; it is at most the size of the set. -/
def leastFree (used : Std.ExtTreeSet Nat) : Nat :=
  ((List.range (used.size + 1)).find? (!used.contains ·)).getD 0

/-- Colors `count` more locations, or as many as there are. -/
def extend (graph : InterferenceGraph) : (count : Nat) → Coloring → Coloring
  | 0, coloring => coloring
  | count + 1, coloring =>
    match coloring.mostSaturated? graph.nodes.items.numbers with
    | none => coloring
    | some node =>
      extend graph count (coloring.assign graph node (leastFree (coloring.saturationOf node)))

end Coloring

namespace InterferenceGraph

/-- A color for each location. -/
def color (config : Config) (graph : InterferenceGraph) : Table Nat :=
  let registers := graph.nodes.items.numbered.foldl
    (Coloring.assignRegister graph config.allocatable) (Coloring.empty graph)
  (Coloring.extend graph graph.size registers).colors.map (·.getD 0)

/-- Whether no two neighbors have the same color. -/
def isValidColoring (graph : InterferenceGraph) (colors : Table Nat) : Bool :=
  graph.nodes.items.numbers.all fun node =>
    (graph.neighbors node).toList.all fun neighbor => colors.getD neighbor 0 != colors.getD node 0

end InterferenceGraph

end TupleLang
