import TupleLang.Error
import TupleLang.Location
import TupleLang.X86.Program

/-!
# Liveness

A location is live at a point of a function if its value there may still be needed.
`X86.Function.liveness` computes the live sets of all points of a function, from the last
instruction of a block to the first (`Liveness.ofBlock`):

* after a jump, what is live at the start of its target is live, and after a conditional jump also
  what is live at the next instruction;
* nothing is live at the conclusion of the function, nor after an instruction that leaves it;
* before an instruction, what it needs is live, and what is live after it and not changed by it.

Blocks jump to each other, so this is repeated until the sets at the starts of the blocks no longer
change (`Liveness.solve`).  Those sets never shrink and hold only locations that some instruction
reads, so each round but the last adds one of the reads to one of the blocks, which bounds the
number of rounds (`Liveness.roundLimit`).
-/

namespace TupleLang

open X86 (Instruction)

/-- The live sets of a block. -/
structure BlockLiveness where
  /-- What is live at the start of the block. -/
  liveBefore : LiveSet := ∅
  /-- What is live after each of its instructions, in order. -/
  liveAfter : List LiveSet := []

/-- The live sets of a function. -/
structure Liveness where
  /-- The live sets of its blocks, in order. -/
  blocks : List BlockLiveness
  /-- After how many rounds they no longer changed. -/
  rounds : Nat

namespace Liveness

/-- What is live before an instruction, from what is live after it. -/
def before (config : Config) (instruction : Instruction) (after : LiveSet) : LiveSet :=
  (after.eraseMany (instruction.writes config)).insertMany (instruction.reads config)

/-- What is live after an instruction, from what is live at the next one and at the labels. -/
def after (atLabel : Name → Except CompileError LiveSet) (instruction : Instruction)
    (atNext : LiveSet) : Except CompileError LiveSet :=
  match instruction with
  | .jump label => atLabel label
  | .jumpIf _ label => do return atNext ∪ (← atLabel label)
  | .retq | .tailJump _ _ | .jumpIndirect _ => .ok ∅
  | _ => .ok atNext

/-- The live sets of a block, from what is live at the labels. -/
def ofBlock (config : Config) (atLabel : Name → Except CompileError LiveSet) :
    List Instruction → Except CompileError BlockLiveness
  | [] => .ok {}
  | instruction :: rest => do
    let next ← ofBlock config atLabel rest
    let after ← after atLabel instruction next.liveBefore
    return ⟨before config instruction after, after :: next.liveAfter⟩

/-- The number of the block with each label; of two blocks with one label the last one counts. -/
def blockNumbers (function : X86.Function) : Std.ExtTreeMap Name Nat :=
  function.blocks.zipIdx.foldl (fun numbers (block, number) => numbers.insert block.label number) ∅

/-- What is live at a label of a function, from the live sets of its blocks. -/
def atLabel (function : X86.Function) (numbers : Std.ExtTreeMap Name Nat)
    (table : Array BlockLiveness) (label : Name) : Except CompileError LiveSet :=
  if label = function.name.conclusionLabel then .ok ∅
  else
    match numbers[label]? with
    | some number => .ok (table.getD number {}).liveBefore
    | none => .error (.unboundLabel function.name label)

/-- Computes the live sets of one block once more. -/
def update (config : Config) (function : X86.Function) (numbers : Std.ExtTreeMap Name Nat)
    (table : Array BlockLiveness) :
    X86.Block × Nat → Except CompileError (Array BlockLiveness)
  | (block, number) => do
    let liveness ← ofBlock config (atLabel function numbers table) block.instructions
    return table.setIfInBounds number liveness

/-- Computes the live sets of all blocks once more, from the last block to the first; each block
sees the new sets of the blocks after it. -/
def round (config : Config) (function : X86.Function) (table : Array BlockLiveness) :
    Except CompileError (Array BlockLiveness) :=
  function.blocks.zipIdx.reverse.foldlM (update config function (blockNumbers function)) table

/-- Whether two tables agree about the starts of all blocks. -/
def isStable (table next : Array BlockLiveness) : Bool :=
  table.toList.map (·.liveBefore.toList) == next.toList.map (·.liveBefore.toList)

/-- Repeats rounds until nothing changes, `limit` times at most; `rounds` counts those before. -/
def solve (config : Config) (function : X86.Function) :
    (limit rounds : Nat) → Array BlockLiveness → Except CompileError Liveness
  | 0, rounds, table => .ok ⟨table.toList, rounds⟩
  | limit + 1, rounds, table => do
    let next ← round config function table
    if isStable table next then return ⟨next.toList, rounds + 1⟩
    else solve config function limit (rounds + 1) next

/-- A bound on the number of rounds: one for each block and each read, and a last one. -/
def roundLimit (config : Config) (function : X86.Function) : Nat :=
  function.blocks.length * (function.instructions.flatMap (·.reads config)).length + 1

end Liveness

/-- The live sets of a function. -/
def X86.Function.liveness (config : Config) (function : X86.Function) :
    Except CompileError Liveness :=
  Liveness.solve config function (Liveness.roundLimit config function) 0
    (Array.replicate function.blocks.length {})

/-- The instructions of a function in order, each with what is live after it. -/
def Liveness.rows (liveness : Liveness) (function : X86.Function) :
    List (Instruction × LiveSet) :=
  (function.blocks.zip liveness.blocks).flatMap fun (block, live) =>
    block.instructions.zip live.liveAfter

end TupleLang
