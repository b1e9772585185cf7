import TupleLang.Flow.Build
import TupleLang.Flow.Printer
import TupleLang.Homes
import TupleLang.Journal
import TupleLang.Program.Allocation
import TupleLang.Program.Flat
import TupleLang.Text.Basic
import TupleLang.X86.Encoding
import TupleLang.X86.FrameCode
import TupleLang.X86.Selection

/-!
# The compiler

`Program.lower` takes a program through all stages to finished instructions and `Program.compile`
goes on to the text of an assembly file.  Both keep a journal.

A compilation first checks the configuration and the types of the program.  The types of the names
that a stage introduced are found by checking its result again, with the rules about reserved names
lifted.  All stages of a compilation take their names from one supply.
-/

namespace TupleLang

/-- A stage of a compilation, with its journal. -/
abbrev Compilation := Journaled CompileError

namespace Compilation

/-- Reports the end of a stage, and what it produced if the configuration asks for that. -/
def finished (config : Config) (stage product : String) : Compilation Unit :=
  Journaled.debug <|
    if config.logPasses then "after " ++ stage ++ ":\n" ++ product else "finished " ++ stage

/-- Runs a stage that takes names from the supply. -/
def naming {α : Type} (supply : NameSupply) (stage : Lowering α) : Compilation (α × NameSupply) :=
  (stage.run supply : Except CompileError (α × NameSupply))

/-- A name as it stands in the journal. -/
def ticked (name : Name) : String :=
  "`" ++ name ++ "`"

/-- Reports the blocks of each function. -/
def traceBlocks (program : Flow.Program) : Compilation Unit :=
  Journaled.write .trace <| program.functions.map fun function =>
    "explicated " ++ ticked function.name ++ " into " ++ toString function.blocks.length ++
      " block(s)"

/-- Reports the functions that instructions were selected for. -/
def traceSelection (program : X86.Program) : Compilation Unit :=
  Journaled.write .trace <| program.functions.map fun function =>
    "selected instructions for " ++ ticked function.name

/-- The journal's lines about the homes of the variables of a function. -/
def homeTexts (function : Name) (allocation : Allocation) : List String :=
  InterferenceGraph.sortTexts <| allocation.homes.toList.map fun (name, home) =>
    ticked function ++ ": " ++ name ++ " -> " ++ home.text

/-- Gives homes to the variables of a function. -/
def allocate (config : Config) (function : X86.Function) : Compilation X86.Function := do
  let liveness ← function.liveness config
  Journaled.trace ("liveness of " ++ ticked function.name ++ " converged after " ++
    toString liveness.rounds ++ " rounds")
  let graph := function.interference config liveness
  Journaled.trace ("interference graph of " ++ ticked function.name ++ ": " ++
    toString graph.size ++ " nodes, " ++ toString graph.edgeCount ++ " edges, " ++
    toString graph.roots.size ++ " roots")
  if config.logPasses then
    Journaled.debug ("interference graph of " ++ ticked function.name ++ ":\n" ++ graph.text)
  let allocation := Allocation.ofGraph config graph
  Journaled.write .trace (homeTexts function.name allocation)
  function.allocate allocation

end Compilation

open Compilation in
/-- The finished instructions of a program. -/
def Program.lower (config : Config) (program : Program) : Compilation X86.Program := do
  config.validate.mapError CompileError.configuration
  let _ ← program.typeCheck
  finished config "type check" program.text
  let (flat, supply) ← naming {} program.flatten
  finished config "flatten" flat.text
  let (exposed, supply) ← naming supply (flat.exposeAllocation (← flat.typeCheckLowered))
  finished config "expose allocation" exposed.text
  let (flow, supply) ← naming supply (exposed.toFlow (← exposed.typeCheckLowered))
  traceBlocks flow
  flow.validate
  finished config "explicate control" flow.text
  let (selected, _) ← naming supply (flow.select config)
  traceSelection selected
  finished config "select instructions" selected.listing
  let allocated : X86.Program := ⟨← selected.functions.mapM (allocate config)⟩
  finished config "allocate registers" allocated.listing
  let patched := allocated.patch
  finished config "patch instructions" patched.listing
  let enclosed := patched.enclose config
  finished config "prelude and conclusion" enclosed.listing
  return enclosed

/-- The assembly text of a program. -/
def Program.compile (config : Config) (program : Program) : Compilation String := do
  let assembly := (← program.lower config).assembly
  Journaled.debug ("emitted " ++ toString (Text.lineCount assembly) ++ " lines of assembly")
  return assembly

end TupleLang
