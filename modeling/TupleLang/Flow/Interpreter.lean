import TupleLang.Flow.Basic
import TupleLang.Interpreter

/-!
# Running control-flow programs

`Flow.Program.interpret` runs a control-flow program and returns the words it prints.  A call binds
the parameters of a function and starts at its first block; a block runs its statements in order
(`Flow.runStmts`), and its last one continues at another block, returns, or returns the result of a
call.  Statements act on the same state, and operators on the same values, as in the programs that
have the shape of the source, so the two ways of running a program can be compared.

Every call and every jump goes one level deeper, and a run has a limit on the depth.
-/

namespace TupleLang.Flow

open Interpreter (Eval)

/-- What stays the same while a control-flow program runs. -/
structure Context where
  /-- The functions by their names; of two with the same name the last one counts. -/
  functions : Std.ExtTreeMap Name Function
  /-- The names that stand for functions rather than variables. -/
  functionNames : Std.ExtTreeSet Name
  /-- The limit on the depth of the whole run. -/
  limit : Nat

/-- Code that is entered anew. -/
inductive Entry where
  /-- A function, with its arguments. -/
  | call (function : Name) (arguments : List Value)
  /-- A block of a function. -/
  | block (function : Function) (label : Name)

/-- The value of an atom. -/
def Atom.eval (context : Context) : Atom → Eval Value
  | .const (.int value) => return .int value
  | .const (.bool value) => return .bool value
  | .var name => do
    match (← get).locals[name]? with
    | some value => return value
    | none =>
      if context.functionNames.contains name then return .function name
      else throw (.unboundVariable name)

/-- The values of atoms, from left to right. -/
def Atom.evalAll (context : Context) : List Atom → Eval (List Value)
  | [] => return []
  | atom :: atoms => do
    let value ← atom.eval context
    return value :: (← Atom.evalAll context atoms)

/-- The value of a call; `enter` runs the code that is entered anew. -/
def evalCall (context : Context) (enter : Entry → Eval Value) (target : Atom)
    (arguments : List Atom) : Eval Value := do
  let target ← target.eval context
  let arguments ← Atom.evalAll context arguments
  match target with
  | .function name => enter (.call name arguments)
  | other => Interpreter.invalid "call" other

/-- The value of an operator.  The right operand of `and` and `or` is looked at only if the left
one does not decide. -/
def applyOperator (context : Context) : Operator → List Atom → Eval Value
  | .and, [lhs, rhs] => do
    let left ← Interpreter.condition (← lhs.eval context)
    if left then return .bool (← Interpreter.condition (← rhs.eval context))
    else return .bool false
  | .or, [lhs, rhs] => do
    let left ← Interpreter.condition (← lhs.eval context)
    if left then return .bool true
    else return .bool (← Interpreter.condition (← rhs.eval context))
  | operator, operands => do
    let values ← Atom.evalAll context operands
    Value.primitive (← get).heap operator values

/-- The value of an operation. -/
def Operation.eval (context : Context) (enter : Entry → Eval Value) : Operation → Eval Value
  | .atom operand => operand.eval context
  | .primitive operator operands => applyOperator context operator operands
  | .call target arguments => evalCall context enter target arguments
  | .allocate _ (.tuple fields) => Interpreter.newTuple (fields.map fun _ => .int 0)
  | .allocate _ ty => throw (.invalidOperand "allocate" ty.text)
  | .global name => return Interpreter.globalValue name

/-- Runs the statements of a block of a function and gives the value that the function returns.
Control never runs off the end of a valid block; if it does, the function returns zero. -/
def runStmts (context : Context) (enter : Entry → Eval Value) (function : Function) :
    List Stmt → Eval Value
  | [] => return .int 0
  | .assign target value :: rest => do
    let value ← value.eval context enter
    modify fun state => { state with locals := state.locals.insert target value }
    runStmts context enter function rest
  | .print value :: rest => do
    let value ← value.eval context
    match value.word? with
    | some word =>
      modify fun state => { state with output := state.output.push word }
      runStmts context enter function rest
    | none => Interpreter.invalid "print" value
  | .collect _ :: rest => runStmts context enter function rest
  | .setField tuple index value :: rest => do
    let value ← value.eval context
    Interpreter.setField tuple index value
    runStmts context enter function rest
  | .goto label :: _ => enter (.block function label)
  | .branch operator lhs rhs positive negative :: _ => do
    let test ← Interpreter.condition (← applyOperator context operator [lhs, rhs])
    enter (.block function (if test then positive else negative))
  | .ret value :: _ => value.eval context
  | .tailCall target arguments :: _ => evalCall context enter target arguments

/-- Runs code that is entered anew, with entries nested at most `depth` deep.  A label or a function
that is not there is reported like a variable that is not bound. -/
def enter (context : Context) : (depth : Nat) → Entry → Eval Value
  | 0, _ => throw (.outOfFuel context.limit)
  | depth + 1, .call name arguments => do
    match context.functions[name]? with
    | none => throw (.unboundVariable name)
    | some function =>
      let caller := (← get).locals
      let locals := Interpreter.bindArguments function.parameters arguments
      modify ({ · with locals })
      let statements := (function.blocks.head?.map Block.statements).getD []
      let value ← runStmts context (enter context depth) function statements
      modify ({ · with locals := caller })
      return value
  | depth + 1, .block function label =>
    match function.blocks.find? (·.label == label) with
    | none => throw (.unboundVariable label)
    | some block => runStmts context (enter context depth) function block.statements

/-- The words that a control-flow program prints, in order, when its calls and jumps are nested no
deeper than the limit. -/
def Program.interpret (program : Program) (limit : Nat) : Except EvalError (List Word) := do
  let functions := program.functions.foldl
    (fun table function => table.insert function.name function) ∅
  let context : Context := ⟨functions, program.functionNames, limit⟩
  let (_, state) ← (enter context limit (.call Name.entryPoint [])).run { fuel := 0 }
  return state.output.toList

end TupleLang.Flow
