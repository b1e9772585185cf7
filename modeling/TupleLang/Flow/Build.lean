import TupleLang.Error
import TupleLang.Flow.Basic
import TupleLang.Typing

/-!
# From programs to control-flow programs

`Program.toFlow` turns a program with flat operands and explicit allocations into a control-flow
program.  Statements are turned back to front: `Stmt.toFlow` takes the code that runs after a
statement and returns the code that runs the statement and then that.  Code that must be reachable
from more than one place gets a block of its own and is reached by a jump, so no code is written
twice.

`Flow.labelFor` makes such a block, unless the code only jumps to a block that is there already;
`Flow.newBlock` always makes one.  A returned call becomes a tail call, and what follows a `return`
is dropped.

`Flow.Program.validate` accepts a program in which every block ends with its only statement that
passes control on, and every such statement continues at blocks of the same function.
-/

namespace TupleLang

namespace Flow

/-- A computation that may make new blocks; the last one made is the first of the list. -/
abbrev Building := StateT (List Block) Lowering

/-- Refuses a construct. -/
def refuse {α : Type} (construct : Construct) : Except CompileError α :=
  .error (.unsupported .explicateControl construct)

/-- Takes the next name for `base`. -/
def fresh (base : String) : Building Name :=
  liftM (Lowering.fresh base)

/-- Adds a block under a given label. -/
def addBlock (label : Name) (statements : List Stmt) : Building Unit :=
  modify (⟨label, statements⟩ :: ·)

/-- Puts statements into a block of their own. -/
def newBlock (statements : List Stmt) : Building Name := do
  let label ← fresh "block"
  addBlock label statements
  return label

/-- A label under which the statements can be reached. -/
def labelFor (statements : List Stmt) : Building Name :=
  match statements with
  | [.goto label] => return label
  | _ => newBlock statements

end Flow

/-- The atom that an expression is. -/
def Expr.toAtom : Expr → Except CompileError Flow.Atom
  | .var name => .ok (.var name)
  | .const value => .ok (.const value)
  | expression => Flow.refuse (.expression expression)

/-- The operation that a flat expression is. -/
def Expr.toOperation : Expr → Except CompileError Flow.Operation
  | .var name => .ok (.atom (.var name))
  | .const value => .ok (.atom (.const value))
  | .primitive operator operands => do
    return .primitive operator (← operands.mapM Expr.toAtom)
  | .call target arguments => do
    let target ← target.toAtom
    return .call target (← arguments.mapM Expr.toAtom)
  | .allocate bytes ty => .ok (.allocate bytes ty)
  | .global name => .ok (.global name)
  | .tuple fields => Flow.refuse (.expression (.tuple fields))
  | .begin statements value => Flow.refuse (.expression (.begin statements value))

open TupleLang.Flow (fresh addBlock newBlock labelFor)

mutual

/-- Code that continues at `positive` if the condition holds and at `negative` if it does not. -/
def Expr.toBranch (positive negative : Name) : Expr → Flow.Building (List Flow.Stmt)
  | .const (.bool value) => return [.goto (if value then positive else negative)]
  | .var name => return [.branch .eq (.var name) (.const (.bool true)) positive negative]
  | .primitive .not [operand] => operand.toBranch negative positive
  | .primitive .and [lhs, rhs] => do
    let right ← labelFor (← rhs.toBranch positive negative)
    lhs.toBranch right negative
  | .primitive .or [lhs, rhs] => do
    let right ← labelFor (← rhs.toBranch positive negative)
    lhs.toBranch positive right
  | .primitive operator [lhs, rhs] => do
    if !operator.isComparison then
      Flow.refuse (.expression (.primitive operator [lhs, rhs]))
    let left ← lhs.toAtom
    let right ← rhs.toAtom
    return [.branch operator left right positive negative]
  | .begin statements value => do
    let test ← value.toBranch positive negative
    Stmt.toFlowBlock test statements
  | condition => Flow.refuse (.expression condition)

/-- Code that runs a statement and then `next`. -/
def Stmt.toFlow (next : List Flow.Stmt) : Stmt → Flow.Building (List Flow.Stmt)
  | .assign target value => do
    return .assign target (← value.toOperation) :: next
  | .print value => do
    return .print (← value.toAtom) :: next
  | .collect bytes => return .collect bytes :: next
  | .setField tuple index value => do
    return .setField tuple index (← value.toAtom) :: next
  | .ifElse condition positive negative => do
    let join ← labelFor next
    let positive ← newBlock (← Stmt.toFlowBlock [.goto join] positive)
    let negative ← newBlock (← Stmt.toFlowBlock [.goto join] negative)
    condition.toBranch positive negative
  | .whileDo condition body => do
    let join ← labelFor next
    let test ← fresh "loop"
    let body ← newBlock (← Stmt.toFlowBlock [.goto test] body)
    addBlock test (← condition.toBranch body join)
    return [.goto test]
  | .ret (.call target arguments) => do
    let target ← target.toAtom
    return [.tailCall target (← arguments.mapM (liftM ∘ Expr.toAtom))]
  | .ret value => do
    return [.ret (← value.toAtom)]
  | .define name _ _ _ => Flow.refuse (.name name)

/-- Code that runs statements one after the other and then `next`. -/
def Stmt.toFlowBlock (next : List Flow.Stmt) : List Stmt → Flow.Building (List Flow.Stmt)
  | [] => return next
  | statement :: statements => do
    let rest ← Stmt.toFlowBlock next statements
    statement.toFlow rest

end

namespace Flow

/-- The control-flow function with the given body.  A function that runs off its end returns
zero. -/
def functionOf (environment : TypeEnvironment) (name : Name) (parameters : List Name)
    (body : List TupleLang.Stmt) : Lowering Function := do
  let (start, blocks) ← (Stmt.toFlowBlock [.ret (.const (.int 0))] body).run []
  return {
    name
    parameters
    blocks := ⟨name.startLabel, start⟩ :: blocks
    variableTypes := (environment.variablesOf? name).getD ∅ }

end Flow

/-- The control-flow program of a program: its functions in order, then the entry point. -/
def Program.toFlow (environment : TypeEnvironment) (program : Program) :
    Lowering Flow.Program := do
  let functions ← program.functions.mapM fun function =>
    Flow.functionOf environment function.name (function.parameters.map Prod.fst) function.body
  let entry ← Flow.functionOf environment Name.entryPoint []
    (program.statements.filter (·.function?.isNone))
  return ⟨functions ++ [entry], .ofList environment.functions.keys⟩

namespace Flow

/-- Refuses a block that breaks the rules of a function with the given labels. -/
def Block.validate (function : Name) (labels : List Name) (block : Block) :
    Except CompileError Unit :=
  match block.statements.getLast? with
  | none => .error (.unsupported .validateFlow (.name block.label))
  | some last =>
    if !last.isTerminator || block.statements.dropLast.any Stmt.isTerminator then
      .error (.unsupported .validateFlow (.statements block.statements))
    else
      match last.successors.find? (!labels.contains ·) with
      | some label => .error (.unboundLabel function label)
      | none => .ok ()

/-- Refuses a function with a block that breaks the rules. -/
def Function.validate (function : Function) : Except CompileError Unit :=
  function.blocks.forM (Block.validate function.name function.labels)

/-- Refuses a program with a block that breaks the rules. -/
def Program.validate (program : Program) : Except CompileError Unit :=
  program.functions.forM Function.validate

end Flow

end TupleLang
